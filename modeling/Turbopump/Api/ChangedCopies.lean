import Turbopump.Api.RebuiltIndex

/-! A key whose number of copies changes: the index keeps it under the old number as well, a restart does not. -/

namespace Turbopump

open FileStore
open VectorClock (IsVersion)

namespace Node

open WriteCommand

variable {θ : Type} {T : TurboLib} {hasher : Bytes → Bytes} {later : LaterCallbacks θ} {keys : Set Bytes}
  {copies : Bytes → UInt8} {homedir : Bytes}

/-- The numbers of copies that the files of a key have, the finished ones and those in progress. -/
def copiesOf (fs : FileSystem) (n : Bytes) : List ℕ := (fs.fileNames (dirpath n)).filterMap fun nm =>
  (fs.lookup (dirpath n) nm).map fun inode => (mdFromString {} (fs.file inode).md).totalCopies

/-- A write keeps the number of copies that the key's files have, and a drop takes no files but the key's own. -/
def Consistent (T : TurboLib) (keys : Set Bytes) (s : Node θ) : Action → Prop
  | .request w => Writable T keys s (.request w)
  | .packet i host buff => Writable T keys s (.packet i host buff) ∧
    ∀ c w fs, s.commands[i]? = some c → c.started = false → c.finished = false →
      FileStore.write T host s.store.fs c.instructions.name c.instructions.version
        (toUnsignedShort c.instructions.copies) = (.accepted w, fs) →
      0 ≤ c.instructions.copies ∧ c.instructions.copies < 256 ∧
        ∀ k ∈ copiesOf s.store.fs c.instructions.name, (k : ℤ) = c.instructions.copies
  | .drop n => n ∈ keys ∧ ∀ reader, FileStore.read T s.store.fs n [] false = .accepted reader →
    Removable keys s.store.fs n ∧ ∀ c ∈ s.commands, c.isOpen = true → c.instructions.name ≠ n

section History

variable {s : Node θ} {n : Bytes} {allowed allowed' : Bytes → ℤ → Prop}

lemma Accounted.fileNames_of_stored (hT : T.Base64) (h : Accounted T hasher keys allowed s) (hn : n ∈ keys) {v : Bytes}
    {file : File} (hstored : stored s.store.fs n v = some file) : s.store.fs.fileNames (dirpath n) ≠ [] := by
  obtain ⟨-, k, hk⟩ := (h.tidy.mem_versions hT hn).1 ((h.tidy.mem_versions_iff_stored hT hn).2 ⟨file, hstored⟩)
  exact List.ne_nil_of_mem (FileSystem.mem_fileNames.2 ⟨k, hk⟩)

lemma Accounted.fileNames_of_writing (h : Accounted T hasher keys allowed s) {i : ℕ} {c : WriteCommand Writestream}
    {w : Writestream} (hc : s.commands[i]? = some c) (hw : Writing T allowed s.store.fs c w) :
    w.name ∈ keys ∧ s.store.fs.fileNames (dirpath w.name) ≠ [] := by
  obtain ⟨hlive, hname⟩ := hw.mem_keys h hc
  obtain ⟨k, ho⟩ := h.tidy.opened i w hlive
  exact ⟨hname, List.ne_nil_of_mem (FileSystem.mem_fileNames.2 ⟨k, ho.linked⟩)⟩

/-- What is said of the copies of a key is about its files: there is nothing in the index of a key without files. -/
lemma Accounted.reallow (hT : T.Base64) (hself : ∀ v, T.compare v v = .equal) (h : Accounted T hasher keys allowed s)
    (hsame : ∀ n ∈ keys, s.store.fs.fileNames (dirpath n) ≠ [] → ∀ k, allowed n k → allowed' n k) :
    Accounted T hasher keys allowed' s where
  tidy := h.tidy
  commands i c hc := (h.commands i c hc).imp_right <| Or.imp_right fun ⟨w, hw⟩ => by
    obtain ⟨hname, hfiles⟩ := h.fileNames_of_writing hc hw
    exact ⟨w, { hw with copies := hsame _ hname hfiles _ hw.copies }⟩
  balance := h.balance
  indexed n hn := by
    obtain ⟨hfiles, hmirrors, hcounted⟩ := h.indexed n hn
    refine ⟨fun v file hv => ?_, fun u hu => ?_, hcounted⟩
    · obtain ⟨k, hk, hmd⟩ := hfiles v file hv
      exact ⟨k, hsame n hn (h.fileNames_of_stored hT hn hv) k hk, hmd⟩
    · obtain ⟨k, hk, hu'⟩ := hmirrors u hu
      refine ⟨k, hsame n hn ?_ k hk, hu'⟩
      rcases h.present hself n hn (List.ne_nil_of_mem hu) with ⟨v, file, hv⟩ | ⟨i, c, hc, hopen, rfl⟩
      · exact h.fileNames_of_stored hT hn hv
      · rcases h.commands i c hc with hfinished | hwaiting | ⟨w, hw⟩
        · simp [WriteCommand.isOpen, hfinished] at hopen
        · simp [hwaiting.isOpen] at hopen
        · exact hw.name ▸ (h.fileNames_of_writing hc hw).2
  present := h.present

lemma mem_copiesOf {fs : FileSystem} {nm : Bytes} {k : ℕ} (hk : fs.lookup (dirpath n) nm = some k) :
    (mdFromString {} (fs.file k).md).totalCopies ∈ copiesOf fs n :=
  List.mem_filterMap.2 ⟨nm, FileSystem.mem_fileNames.2 ⟨k, hk⟩, by rw [hk]; rfl⟩

lemma Regulated.open (hT : T.Base64) (hself : ∀ v, T.compare v v = .equal) (h : Regulated T hasher keys copies s)
    (hn : n ∈ keys) {k : UInt8} (hk : ∀ j ∈ copiesOf s.store.fs n, j = k.toNat) :
    Regulated T hasher keys (Function.update copies n k) s := by
  by_cases hfiles : s.store.fs.fileNames (dirpath n) = []
  · refine ⟨h.accounted.reallow hT hself fun m hm hne j hj => ?_, h.confined, h.steady, h.writers⟩
    have hother : m ≠ n := by
      rintro rfl
      exact hne hfiles
    rw [Function.update_of_ne hother]
    exact hj
  · obtain ⟨nm, hnm⟩ := List.exists_mem_of_ne_nil _ hfiles
    obtain ⟨inode, hlookup⟩ := FileSystem.mem_fileNames.1 hnm
    have hsame : copies n = k :=
      UInt8.toNat_inj.1 ((h.totalCopies hT hn hlookup).symm.trans (hk _ (mem_copiesOf hlookup)))
    rw [← hsame, Function.update_eq_self]
    exact h

variable (later) in
lemma Regulated.step (hT : T.Base64) (hself : ∀ v, T.compare v v = .equal) (hk : Addressed keys)
    (h : Regulated T hasher keys copies s) {a : Action} (ha : Consistent T keys s a) :
    ∃ copies', Regulated T hasher keys copies' (s.step T hasher later a) := by
  cases a with
  | request w => exact ⟨copies, h.request ha.1 ha.2⟩
  | packet i host buff =>
    obtain ⟨hwritable, hcopies⟩ := ha
    by_cases hopens : ∃ c w fs, s.commands[i]? = some c ∧ c.started = false ∧ c.finished = false ∧
        FileStore.write T host s.store.fs c.instructions.name c.instructions.version
          (toUnsignedShort c.instructions.copies) = (.accepted w, fs)
    · obtain ⟨c, w, fs, hc, hstarted, hfinished, haccepted⟩ := hopens
      obtain ⟨hpos, hbyte, hsame⟩ := hcopies c w fs hc hstarted hfinished haccepted
      have hn : c.instructions.name ∈ keys := by
        rcases h.accounted.commands i c hc with hdone | hwaiting | ⟨w, hw⟩
        · simp [hdone] at hfinished
        · exact hwaiting.name
        · simp [hw.started] at hstarted
      obtain ⟨k, hk'⟩ : ∃ k : UInt8, c.instructions.copies = k.toNat := by
        refine ⟨UInt8.ofNat c.instructions.copies.toNat, ?_⟩
        rw [UInt8.toNat_ofNat', Nat.mod_eq_of_lt (by omega), Int.toNat_of_nonneg hpos]
      rw [hk'] at hsame
      refine ⟨_, (h.open hT hself hn fun j hj => Int.ofNat_inj.1 (hsame j hj)).packet hT hk ⟨hwritable, ?_⟩⟩
      intro d w fs hd _ _ _
      obtain rfl := Option.some.inj (hc.symm.trans hd)
      rw [Function.update_self, hk']
    · exact ⟨copies, h.packet hT hk ⟨hwritable, fun c w fs hc hstarted hfinished haccepted =>
        absurd ⟨c, w, fs, hc, hstarted, hfinished, haccepted⟩ hopens⟩⟩
  | drop n =>
    obtain ⟨hn, hremoves⟩ := ha
    refine ⟨copies, ?_⟩
    cases hread : FileStore.read T s.store.fs n [] false with
    | accepted reader => exact h.drop hT hk hn (hremoves reader hread).1 (hremoves reader hread).2
    | refused =>
      simp only [Node.step, SkewCorrector.dropKey, hread]
      exact h
    | threw =>
      simp only [Node.step, SkewCorrector.dropKey, hread]
      exact h

theorem Regulated.run (hT : T.Base64) (hself : ∀ v, T.compare v v = .equal) (hk : Addressed keys)
    (actions : List Action) : ∀ (s : Node θ) (copies : Bytes → UInt8), Regulated T hasher keys copies s →
      Along T hasher later (Consistent T keys) s actions →
        ∃ copies', Regulated T hasher keys copies' (s.run T hasher later actions) := by
  induction actions with
  | nil => exact fun s copies h _ => ⟨copies, h⟩
  | cons a actions ih =>
    rintro s copies h ⟨ha, hrest⟩
    obtain ⟨copies', h'⟩ := h.step later hT hself hk ha
    exact ih _ copies' h' hrest

/-- What a history has left in which every step is consistent, with no command open. -/
structure Settled (T : TurboLib) (hasher : Bytes → Bytes) (later : LaterCallbacks θ) (keys : Set Bytes) (s : Node θ) :
    Prop where
  history : ∃ host others actions, Along T hasher later (Consistent T keys) ⟨⟨.empty, host, ⟨[], others⟩⟩, []⟩ actions ∧
    run T hasher later ⟨⟨.empty, host, ⟨[], others⟩⟩, []⟩ actions = s
  done : ∀ c ∈ s.commands, c.isOpen = false

lemma Settled.regulated (hT : T.Base64) (hself : ∀ v, T.compare v v = .equal) (hk : Addressed keys)
    (h : Settled T hasher later keys s) : ∃ copies, Regulated T hasher keys copies s := by
  obtain ⟨host, others, actions, hrun, hend⟩ := h.history
  have hstart : Regulated T hasher keys (fun _ => 0) ⟨⟨.empty, host, ⟨[], others⟩⟩, []⟩ := .start hT host others
  exact hend ▸ Regulated.run hT hself hk actions _ _ hstart hrun

end History

section Example

def twoKeys : Set Bytes := {[107], [107, 47, 109]}

/-- The key beneath the other is dropped, and written again with more copies. -/
def movedKeys : List Action :=
  [.request { name := [107], copies := 3 }, .request { name := [107, 47, 109], copies := 2 }, .packet 0 ⟨[97], 1⟩ [],
    .packet 1 ⟨[97], 1⟩ [1], .packet 0 ⟨[97], 2⟩ [2, 3], .packet 0 ⟨[97], 2⟩ [], .packet 1 ⟨[97], 3⟩ [],
    .drop [107, 47, 109], .request { name := [107, 47, 109], copies := 5 }, .packet 2 ⟨[98], 4⟩ [5],
    .packet 2 ⟨[98], 4⟩ []]

def oneNode : LocateKeys := ⟨(⟨.empty⟩ : ConsistentHashRing).insert id [97] [97], some [97]⟩

def callsOf (s : Node Unit) : KeyTabulator :=
  KeyTabulator.calls id (s.store.callbacks.calls.map fun c => (oneNode, c))

def restarted (s : Node Unit) : KeyTabulator := KeyTabulator.postStart id [46] oneNode s.store.fs

lemma consistent_packet {s : Node θ} {i : ℕ} {host : Host} {buff : Bytes}
    (hwritable : Writable T keys s (.packet i host buff))
    (h : ∀ c ∈ s.commands[i]?, c.started = false → 0 ≤ c.instructions.copies ∧ c.instructions.copies < 256 ∧
      ∀ k ∈ copiesOf s.store.fs c.instructions.name, (k : ℤ) = c.instructions.copies) :
    Consistent T keys s (.packet i host buff) :=
  ⟨hwritable, fun c _ _ hc hstarted _ _ => h c hc hstarted⟩

lemma twoKeys_addressed : Addressed twoKeys := by
  refine ⟨by simp [twoKeys], ?_, ?_⟩
  · simp only [twoKeys, Set.mem_insert_iff, Set.mem_singleton_iff, forall_eq_or_imp, forall_eq, SimpleStore.Normal]
    decide
  · have hdir : dirpath [107] = [[107]] ∧ dirpath [107, 47, 109] = [[107], [109]] := by decide
    rintro n (rfl | rfl) m (rfl | rfl) c hc <;> simp [hdir] at hc
    rw [hc]
    decide

lemma twoKeys_injOn : Set.InjOn (DigestTree.keyhash id) twoKeys := by
  rintro n (rfl | rfl) m (rfl | rfl) <;> decide +kernel

def firstVersion : Bytes := VectorClock.toString .reference [⟨[97], 1, 0⟩]

def laterVersion : Bytes := VectorClock.toString .reference [⟨[97], 2, 0⟩]

lemma versions_canonical : IsVersion .reference firstVersion ∧ IsVersion .reference laterVersion :=
  ⟨⟨⟨[⟨[97], 1, 0⟩], by decide +kernel, by simp, rfl⟩, by decide +kernel⟩,
    ⟨⟨[⟨[97], 2, 0⟩], by decide +kernel, by simp, rfl⟩, by decide +kernel⟩⟩

lemma writable_named {s : Node θ} {i : ℕ} (h : ∀ c ∈ s.commands[i]?, c.instructions.version ≠ []) (host : Host)
    (buff : Bytes) : Writable T keys s (.packet i host buff) :=
  fun c hc _ hversion => absurd hversion (h c hc)

/-- A version is written over an earlier one. -/
def overwritten : List Action :=
  [.request { name := [107], version := firstVersion }, .packet 0 ⟨[97], 1⟩ [1], .packet 0 ⟨[97], 1⟩ [],
    .request { name := [107], version := laterVersion }, .packet 1 ⟨[97], 2⟩ [2, 3], .packet 1 ⟨[97], 2⟩ []]

/-- The later version alone comes from another node. -/
def mirrored : List Action :=
  [.request { name := [107], version := laterVersion, mirror := 1 }, .packet 0 ⟨[98], 5⟩ [2], .packet 0 ⟨[98], 5⟩ [3],
    .packet 0 ⟨[98], 6⟩ []]

def changedCopies : List Action :=
  [.request { name := [107], version := firstVersion, copies := 3 }, .packet 0 ⟨[97], 1⟩ [1], .packet 0 ⟨[97], 1⟩ [],
    .request { name := [107], version := laterVersion, copies := 2 }, .packet 1 ⟨[97], 2⟩ [2, 3],
    .packet 1 ⟨[97], 2⟩ []]

end Example

end Node

end Turbopump
