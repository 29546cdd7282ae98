import Turbopump.Api.IndexSum
import Turbopump.Deskew.Tabulated
import Turbopump.Storage.Confined

/-! The index that writes and drops have left is the one that the next start builds from the files. -/

namespace Turbopump

open FileStore
open VectorClock (IsVersion)

/-- No other key has files beneath the directory of the key. -/
def Removable (keys : Set Bytes) (fs : FileSystem) (n : Bytes) : Prop :=
  ∀ m ∈ keys, m ≠ n → dirpath n <+: dirpath m → fs.fileNames (dirpath m) = []

section Drop

variable {θ : Type} {T : TurboLib} {hasher : Bytes → Bytes} {keys : Set Bytes} {fs : FileSystem}
  {live : ℕ → Option Writestream} {n : Bytes}

lemma FileSystem.inodes_removeAll (p : Path) : (fs.removeAll p).inodes = fs.inodes := FileSystem.inodes_remove p

lemma FileSystem.file_removeAll (p : Path) (k : ℕ) : (fs.removeAll p).file k = fs.file k := by
  rw [FileSystem.file, FileSystem.inodes_removeAll, FileSystem.file]

lemma FileSystem.lookup_of_fileNames {d : Path} (h : fs.fileNames d = []) (nm : Bytes) : fs.lookup d nm = none := by
  by_contra hsome
  obtain ⟨k, hk⟩ := Option.ne_none_iff_exists'.1 hsome
  exact List.not_mem_nil (h ▸ FileSystem.mem_fileNames.2 ⟨k, hk⟩)

namespace FileStore

lemma Tidy.comma (h : Tidy T keys fs live) (hn : n ∈ keys) {nm : Bytes} {k : ℕ}
    (hk : fs.lookup (dirpath n) nm = some k) : 44 ∈ nm := by
  rcases (h.keyDir hn).entries nm k hk with hv | ⟨u, hu, rfl⟩
  · exact hv.comma
  · exact List.mem_append_left _ hu.comma

lemma Tidy.lookup_removeAll (hk : Addressed keys) (h : Tidy T keys fs live) (hn : n ∈ keys)
    (hremovable : Removable keys fs n) {m : Bytes} (hm : m ∈ keys) (hne : m ≠ n) (nm : Bytes) :
    (fs.removeAll (dirpath n)).lookup (dirpath m) nm = fs.lookup (dirpath m) nm := by
  rw [FileSystem.lookup_removeAll]
  split_ifs with hin
  · rcases hin with hpre | heq
    · rw [FileSystem.lookup_of_fileNames (hremovable m hm hne hpre)]
    · -- the directory of the key would be a file of another
      by_contra hsome
      obtain ⟨k, hlookup⟩ := Option.ne_none_iff_exists'.1 (Ne.symm hsome)
      exact hk.nested m hm n hn nm (heq ▸ List.prefix_refl _) (h.comma hm hlookup)
  · rfl

lemma Tidy.removeAll (hk : Addressed keys) (h : Tidy T keys fs live) (hn : n ∈ keys) (hremovable : Removable keys fs n)
    (hclosed : ∀ i w, live i = some w → w.name ≠ n) : Tidy T keys (fs.removeAll (dirpath n)) live where
  subdirs m hm c hc := h.subdirs m hm c (FileSystem.hasDir_removeAll.1 hc).1
  linked d nm k hk := by
    rw [FileSystem.lookup_removeAll] at hk
    split_ifs at hk
    rw [FileSystem.inodes_removeAll]
    exact h.linked d nm k hk
  single d nm d' nm' k hk hk' := by
    rw [FileSystem.lookup_removeAll] at hk hk'
    split_ifs at hk hk'
    exact h.single d nm d' nm' k hk hk'
  opened i w hw := by
    obtain ⟨k, ho⟩ := h.opened i w hw
    refine ⟨k, ho.name, ho.version, ho.clock, ho.path, ho.writer, ?_, ?_, ?_⟩
    · rw [h.lookup_removeAll hk hn hremovable ho.name (hclosed i w hw)]
      exact ho.linked
    · rw [FileSystem.file_removeAll]
      exact ho.offset
    · rw [FileSystem.file_removeAll]
      exact ho.md
  distinct := h.distinct
  entries m hm nm k hk := by
    rw [FileSystem.lookup_removeAll] at hk
    split_ifs at hk
    exact h.entries m hm nm k hk

lemma Tidy.stored_removeAll (hT : T.Base64) (hk : Addressed keys) (h : Tidy T keys fs live) (hn : n ∈ keys)
    (hremovable : Removable keys fs n) (hclosed : ∀ i w, live i = some w → w.name ≠ n) {m : Bytes} (hm : m ∈ keys)
    (v : Bytes) : stored (fs.removeAll (dirpath n)) m v = if m = n then none else stored fs m v := by
  have htidy := h.removeAll hk hn hremovable hclosed
  split_ifs with hmn
  · subst hmn
    by_cases hv : IsVersion T v
    · rw [htidy.stored_eq hT hm hv, FileSystem.lookup_removeAll, if_pos (Or.inl (List.prefix_refl _))]
      rfl
    · exact htidy.stored_none hT hm hv
  · apply h.stored_congr hT htidy hm
    intro u _
    rw [h.lookup_removeAll hk hn hremovable hm hmn, funext (FileSystem.file_removeAll _)]

lemma writer_of_accepted {v : Bytes} {host : Host} (hv : v = [] ∨ IsVersion T v)
    (hfresh : v = [] → NewVersion T host fs n) {copies : ℕ} {w : Writestream} {fs' : FileSystem}
    (h : FileStore.write T host fs n v copies = (.accepted w, fs')) : w.name = n ∧ IsVersion T (w.vstr T) := by
  have hopen (clock : VectorClock) (hversion : IsVersion T (VectorClock.toString T clock))
      (hopened : openVersion T fs n clock copies = (.accepted w, fs')) : w.name = n ∧ IsVersion T (w.vstr T) := by
    rw [openVersion] at hopened
    split at hopened
    · simp at hopened
    · rw [Prod.mk.injEq, StoreAnswer.accepted.injEq] at hopened
      rw [← hopened.1]
      exact ⟨rfl, hversion⟩
  rcases hv with rfl | hv
  · rw [write_fresh] at h
    exact hopen _ (hfresh rfl).isVersion h
  · rw [write_version hv] at h
    split_ifs at h
    · simp at h
    · exact hopen _ (hv.toString_ofName.symm ▸ hv) h

end FileStore

lemma SkewCorrector.dropKey_cases (hk : Addressed keys) {s : StoreState (Callbacks θ)} (hconfined : Confined keys s.fs)
    (hn : n ∈ keys) : SkewCorrector.dropKey T s n = (false, s) ∨
      ∃ nm k, s.fs.lookup (dirpath n) nm = some k ∧ SkewCorrector.dropKey T s n =
        (true, ⟨s.fs.removeAll (dirpath n), s.host, ⟨s.callbacks.calls ++
          [digestDelFunct n (mdFromString {} (s.fs.file k).md).totalCopies], s.callbacks.others⟩⟩) := by
  have hcopies (clock : VectorClock) (md : Bytes) :
      (mdFromString { version := clock } md).totalCopies = (mdFromString {} md).totalCopies := by
    cases md <;> rfl
  have hopen (clock : VectorClock) : read.openReader T s.fs n false clock = .refused ∨
      ∃ nm k, s.fs.lookup (dirpath n) nm = some k ∧
        read.openReader T s.fs n false clock = .accepted ⟨k, mdFromString { version := clock } (s.fs.file k).md⟩ := by
    simp only [read.openReader, Bool.false_eq_true, if_false, Option.none_or]
    cases hfind : s.fs.find (filepath n (VectorClock.toString T clock)) with
    | none => exact Or.inl rfl
    | some k =>
      obtain ⟨nm, hlookup⟩ := hconfined.parent hk hn hfind
      exact Or.inr ⟨nm, k, hlookup, rfl⟩
  have hnone : VectorClock.fromString T [] = .failed := by simp [VectorClock.fromString, readUnsigned, readSign]
  have hread : FileStore.read T s.fs n [] false = read.openReader T s.fs n false (mergedVersion T s.fs n false) := by
    simp only [FileStore.read, hnone]
  rcases hopen (mergedVersion T s.fs n false) with hrefused | ⟨nm, k, hlookup, haccepted⟩
  · left
    rw [SkewCorrector.dropKey, hread, hrefused]
  · refine Or.inr ⟨nm, k, hlookup, ?_⟩
    have hgone : (FileStore.remove s.fs n) = (true, s.fs.removeAll (dirpath n)) := by
      have hnodir : ¬ (s.fs.removeAll (dirpath n)).HasDir (dirpath n) :=
        fun hdir => (FileSystem.hasDir_removeAll.1 hdir).2 (List.prefix_refl _)
      rw [FileStore.remove, versions, FileSystem.list, FileSystem.not_hasDir.1 hnodir]
      rfl
    rw [SkewCorrector.dropKey, hread, haccepted]
    simp only [hgone, hcopies]
    rfl

end Drop

namespace Node

open WriteCommand

variable {θ : Type} {T : TurboLib} {hasher : Bytes → Bytes} {later : LaterCallbacks θ} {keys : Set Bytes}
  {copies : Bytes → UInt8}

/-- The calls name keys only, with numbers of mirrors that are bytes, and every call on a key has the number of those
before it since the key was last removed. -/
structure Steady (keys : Set Bytes) (calls : List IndexCall) : Prop where
  names : ∀ c ∈ calls, c.name ∈ keys
  bytes : ∀ c ∈ calls, c.mirrors < 256
  same : ∀ before c, before ++ [c] <+: calls → ∀ u ∈ updates c.name before, u.2 = c.mirrors

structure Fits (T : TurboLib) (keys : Set Bytes) (c : WriteCommand Writestream) (fs : FileSystem) : Prop where
  writer : ∀ w, c.writer = some w → w.name ∈ keys ∧ IsVersion T (w.vstr T)
  confined : Confined keys fs

lemma toUnsigned_byte (b : UInt8) : toUnsigned b.toNat = b.toNat := by
  have hb := b.toNat_lt
  rw [toUnsigned]
  omega

section Command

variable {c : WriteCommand Writestream} {store : StoreState (Callbacks θ)}

lemma Fits.touch {fs : FileSystem} (h : Fits T keys c fs) {c' : WriteCommand Writestream}
    (hwriter : c'.writer = c.writer) : Fits T keys c' fs :=
  ⟨hwriter ▸ h.writer, h.confined⟩

variable (hasher later) in
lemma Fits.append (h : Fits T keys c store.fs) (buff : Bytes) :
    Fits T keys (c.append (env T hasher later) buff store).1 (c.append (env T hasher later) buff store).2.fs := by
  cases hw : c.writer with
  | none =>
    simp only [WriteCommand.append, hw]
    exact h
  | some w =>
    simp only [WriteCommand.append, hw, FileStore.env]
    refine ⟨?_, h.confined.writeBuff w buff⟩
    rintro w' ⟨⟩
    rw [Writestream.write]
    split <;> exact h.writer w hw

variable (hasher later) in
lemma Fits.flush (h : Fits T keys c store.fs) :
    Fits T keys (c.flush (env T hasher later) store).2.1 (c.flush (env T hasher later) store).2.2.fs := by
  cases hw : c.writer with
  | none =>
    simp only [WriteCommand.flush, hw]
    exact h
  | some w =>
    obtain ⟨hname, hversion⟩ := h.writer w hw
    have hconfined : Confined keys (w.commit T hasher store.fs c.instructions.isComplete).2.2 :=
      h.confined.commit hname hversion _
    cases hcommit : w.commit T hasher store.fs c.instructions.isComplete with
    | mk reader rest =>
      obtain ⟨w', fs'⟩ := rest
      have hkept := Confined.commit_kept (T := T) hasher store.fs w c.instructions.isComplete
      rw [hcommit] at hconfined hkept
      cases reader with
      | none =>
        simp only [WriteCommand.flush, hw, FileStore.env, hcommit]
        refine ⟨?_, hconfined⟩
        rintro w'' ⟨⟩
        rw [hkept.1, hkept.2]
        exact ⟨hname, hversion⟩
      | some reader =>
        have hcommit' : w.commit T hasher store.fs c.instructions.isComplete = (some reader, w', fs') := hcommit
        obtain ⟨c', store', hflush, hf⟩ := flush_flushed later hw hcommit'
        rw [hflush]
        refine ⟨fun w'' hw'' => ?_, hf.fs ▸ hconfined⟩
        obtain rfl := Option.some.inj (hf.writer.symm.trans hw'')
        rw [hkept.1, hkept.2]
        exact ⟨hname, hversion⟩

variable (hasher later) in
lemma Fits.overflow (h : Fits T keys c store.fs) (buff : Bytes) (overfill topoff : ℕ) :
    Fits T keys (c.overflow (env T hasher later) buff overfill topoff store).2.1
      (c.overflow (env T hasher later) buff overfill topoff store).2.2.fs := by
  have htop : Fits T keys (if 0 < topoff then c.append (env T hasher later) (buff.take topoff) store
      else (c, store)).1 (if 0 < topoff then c.append (env T hasher later) (buff.take topoff) store
      else (c, store)).2.fs := by
    split_ifs
    · exact h.append hasher later _
    · exact h
  simp only [WriteCommand.overflow]
  generalize (if 0 < topoff then c.append (env T hasher later) (buff.take topoff) store else (c, store)) = top at htop ⊢
  have h₂ := htop.flush hasher later
  split_ifs
  · exact (h₂.append hasher later ((buff.drop topoff).take overfill)).touch rfl
  · exact h₂

variable (hasher later) in
lemma Fits.commit (h : Fits T keys c store.fs) : Fits T keys (c.commit (env T hasher later) store).2.1
    (c.commit (env T hasher later) store).2.2.fs := by
  have hclosing : Fits T keys
      { c with finished := true, instructions := { c.instructions with isComplete := true } } store.fs := h.touch rfl
  have h₁ := hclosing.flush hasher later
  simp only [WriteCommand.commit]
  split_ifs
  · exact h₁.touch rfl
  · exact h₁.touch rfl

variable (hasher later) in
lemma Fits.proceed (h : Fits T keys c store.fs) (buff : Bytes) :
    Fits T keys (c.proceed (env T hasher later) buff store).2.1
      (c.proceed (env T hasher later) buff store).2.2.fs := by
  have hstarted : Fits T keys { c with started := true } store.fs := h.touch rfl
  simp only [WriteCommand.proceed, WriteCommand.consume]
  split_ifs
  · exact h.commit hasher later
  · exact hstarted
  · exact hstarted.overflow hasher later _ _ _
  · exact (hstarted.append hasher later buff).touch rfl

variable (hasher later) in
lemma Fits.run (hk : Addressed keys) (h : Fits T keys c store.fs) (buff : Bytes)
    (hopens : c.finished = false → c.started = false → c.instructions.name ∈ keys ∧
      (c.instructions.version = [] ∨ IsVersion T c.instructions.version) ∧
      (c.instructions.version = [] → NewVersion T store.host store.fs c.instructions.name)) :
    Fits T keys (c.run (env T hasher later) buff store).2.1 (c.run (env T hasher later) buff store).2.2.fs := by
  simp only [WriteCommand.run, FileStore.env]
  split_ifs with hfinished hstarted
  · exact h
  · exact h.proceed hasher later buff
  · exact h.touch rfl
  · rw [Bool.not_eq_true] at hfinished hstarted
    obtain ⟨hname, hversion, hfresh⟩ := hopens hfinished hstarted
    have hwrite := h.confined.write hk hname hversion hfresh (toUnsignedShort c.instructions.copies)
    have hwriter := @FileStore.writer_of_accepted T store.fs c.instructions.name c.instructions.version store.host
      hversion hfresh (toUnsignedShort c.instructions.copies)
    cases hanswer : FileStore.write T store.host store.fs c.instructions.name c.instructions.version
        (toUnsignedShort c.instructions.copies) with
    | mk answer fs' =>
      rw [hanswer] at hwrite
      cases answer with
      | accepted w =>
        obtain ⟨hsame, hv⟩ := hwriter hanswer
        have htaken : Fits T keys { c with writer := some w } fs' := by
          refine ⟨?_, hwrite⟩
          rintro w' ⟨⟩
          exact ⟨hsame ▸ hname, hv⟩
        exact @Fits.proceed θ T hasher later keys _ { store with fs := fs' } htaken buff
      | refused =>
        refine ⟨?_, hwrite⟩
        rintro w ⟨⟩
      | threw => exact ⟨h.writer, hwrite⟩

end Command

section Calls

variable {calls : List IndexCall} {n : Bytes}

lemma updates_remove (n name : Bytes) (mirrors : ℕ) (calls : List IndexCall) :
    updates n (calls ++ [.remove name mirrors]) = if name = n then [] else updates n calls := by
  simp [updates]

lemma updates_updates (n : Bytes) (mirrors : ℕ) (calls : List IndexCall) (vs : List UInt64) :
    updates n (calls ++ vs.map fun value => .update n value mirrors) =
      updates n calls ++ vs.map fun value => (value, mirrors) := by
  induction vs using List.reverseRecOn with
  | nil => simp
  | append_singleton vs value ih =>
    rw [List.map_append, List.map_singleton, ← List.append_assoc, updates_update, ih, if_pos rfl, List.map_append,
      List.append_assoc]
    rfl

lemma Steady.concat (h : Steady keys calls) {c : IndexCall} (hname : c.name ∈ keys) (hbyte : c.mirrors < 256)
    (hsame : ∀ u ∈ updates c.name calls, u.2 = c.mirrors) : Steady keys (calls ++ [c]) where
  names d hd := (List.mem_append.1 hd).elim (h.names d) fun hd => List.mem_singleton.1 hd ▸ hname
  bytes d hd := (List.mem_append.1 hd).elim (h.bytes d) fun hd => List.mem_singleton.1 hd ▸ hbyte
  same before d hprefix := by
    rcases List.prefix_concat_iff.1 hprefix with heq | hprefix
    · obtain ⟨rfl, hd⟩ := List.append_inj' heq rfl
      rw [List.singleton_inj.1 hd]
      exact hsame
    · exact h.same before d hprefix

lemma Steady.updates (h : Steady keys calls) {mirrors : ℕ} (hname : n ∈ keys) (hbyte : mirrors < 256)
    (hsame : ∀ u ∈ Node.updates n calls, u.2 = mirrors) (vs : List UInt64) :
    Steady keys (calls ++ vs.map fun value => .update n value mirrors) := by
  induction vs using List.reverseRecOn with
  | nil => simpa using h
  | append_singleton vs value ih =>
    rw [List.map_append, List.map_singleton, ← List.append_assoc]
    refine Steady.concat (c := .update n value mirrors) ih hname hbyte fun u hu => ?_
    rw [IndexCall.name, updates_updates, List.mem_append, List.mem_map] at hu
    rcases hu with hu | ⟨v, -, rfl⟩
    · exact hsame u hu
    · rfl

lemma Steady.of_mirrors (h : Steady keys calls) (hname : n ∈ keys) (vs : List UInt64) {mirrors : ℕ} {k : UInt8}
    (hmirrors : ∀ u ∈ Node.updates n (calls ++ vs.map fun value => .update n value mirrors), u.2 = k.toNat) :
    Steady keys (calls ++ vs.map fun value => .update n value mirrors) := by
  rw [updates_updates] at hmirrors
  cases vs with
  | nil => simpa using h
  | cons value vs =>
    obtain rfl : mirrors = k.toNat := hmirrors (value, mirrors) (by simp)
    exact h.updates hname k.toNat_lt (fun u hu => hmirrors u (List.mem_append_left _ hu)) (value :: vs)

end Calls

/-- `copies` says how many of each key there are. -/
structure Regulated (T : TurboLib) (hasher : Bytes → Bytes) (keys : Set Bytes) (copies : Bytes → UInt8) (s : Node θ) :
    Prop where
  accounted : Accounted T hasher keys (fun n k => k = (copies n).toNat) s
  confined : Confined keys s.store.fs
  steady : Steady keys s.store.callbacks.calls
  writers : ∀ c ∈ s.commands, ∀ w, c.writer = some w → w.name ∈ keys ∧ IsVersion T (w.vstr T)

section History

variable {s : Node θ} {n : Bytes}

lemma totalCopies_of_written (b : UInt8) :
    (mdFromString {} (mdToString { totalCopies := toUnsignedShort (b.toNat : ℤ) })).totalCopies = b.toNat := by
  have hb := b.toNat_lt
  have hshort : toUnsignedShort (b.toNat : ℤ) = b.toNat := by
    rw [toUnsignedShort]
    omega
  simp [hshort, mdToString, mdFromString]

lemma Regulated.mirrors (h : Regulated T hasher keys copies s) (hn : n ∈ keys) :
    ∀ u ∈ updates n s.store.callbacks.calls, u.2 = (copies n).toNat := by
  intro u hu
  obtain ⟨k, rfl, hk⟩ := (h.accounted.indexed n hn).mirrors u hu
  exact hk.trans (toUnsigned_byte _)

lemma Accounted.live_ne {allowed : Bytes → ℤ → Prop} (h : Accounted T hasher keys allowed s)
    (hclosed : ∀ c ∈ s.commands, c.isOpen = true → c.instructions.name ≠ n) (i : ℕ) (w : Writestream)
    (hw : live s.commands i = some w) : w.name ≠ n := by
  obtain ⟨c, hc, hlive⟩ := Option.bind_eq_some_iff.1 hw
  split_ifs at hlive with hopen
  rcases h.commands i c hc with hfinished | hwaiting | ⟨w', hwriting⟩
  · simp [WriteCommand.isOpen, hfinished] at hopen
  · simp [hwaiting.isOpen] at hopen
  · obtain rfl := Option.some.inj (hwriting.writer.symm.trans hlive)
    rw [hwriting.name]
    exact hclosed c (List.mem_of_getElem? hc) hopen

lemma owed_of_closed (commands : List (WriteCommand Writestream))
    (hclosed : ∀ c ∈ commands, c.isOpen = true → c.instructions.name ≠ n) : xorAll (commands.map (owed n)) = 0 := by
  induction commands with
  | nil => rfl
  | cons c commands ih =>
    have howed : owed n c = 0 := if_neg fun h => hclosed c (by simp) h.1 h.2
    rw [List.map_cons, xorAll_cons, howed, ih fun d hd => hclosed d (List.mem_cons_of_mem c hd), UInt64.xor_zero]

lemma Regulated.totalCopies (hT : T.Base64) (h : Regulated T hasher keys copies s) (hn : n ∈ keys) {nm : Bytes} {k : ℕ}
    (hk : s.store.fs.lookup (dirpath n) nm = some k) :
    (mdFromString {} (s.store.fs.file k).md).totalCopies = (copies n).toNat := by
  rcases h.accounted.tidy.entries n hn nm k hk with hv | ⟨i, w, hw, rfl, rfl⟩
  · obtain ⟨j, rfl, hmd⟩ := (h.accounted.indexed n hn).files nm (s.store.fs.file k) (by
      rw [h.accounted.tidy.stored_eq hT hn hv, hk]
      rfl)
    rw [hmd, totalCopies_of_written]
  · -- the file of an open session
    obtain ⟨l, ho⟩ := h.accounted.tidy.opened i w hw
    obtain rfl : k = l := Option.some.inj (hk.symm.trans ho.linked)
    obtain ⟨c, hc, hlive⟩ := Option.bind_eq_some_iff.1 hw
    split_ifs at hlive with hopen
    rcases h.accounted.commands i c hc with hfinished | hwaiting | ⟨w', hwriting⟩
    · simp [WriteCommand.isOpen, hfinished] at hopen
    · simp [hwaiting.isOpen] at hopen
    · obtain rfl := Option.some.inj (hwriting.writer.symm.trans hlive)
      rw [ho.md, hwriting.md, hwriting.copies, totalCopies_of_written]

lemma Accounted.drop {allowed : Bytes → ℤ → Prop} (hT : T.Base64) (hk : Addressed keys)
    (h : Accounted T hasher keys allowed s) (hn : n ∈ keys) (hremovable : Removable keys s.store.fs n)
    (hclosed : ∀ c ∈ s.commands, c.isOpen = true → c.instructions.name ≠ n) (mirrors : ℤ) :
    Accounted T hasher keys allowed ⟨⟨s.store.fs.removeAll (dirpath n), s.store.host,
      ⟨s.store.callbacks.calls ++ [digestDelFunct n mirrors], s.store.callbacks.others⟩⟩, s.commands⟩ := by
  have hlive := h.live_ne hclosed
  have htidy := h.tidy.removeAll hk hn hremovable hlive
  have hstored {m : Bytes} (hm : m ∈ keys) := h.tidy.stored_removeAll hT hk hn hremovable hlive hm
  have hupdates (m : Bytes) : updates m (s.store.callbacks.calls ++ [digestDelFunct n mirrors]) =
      if n = m then [] else updates m s.store.callbacks.calls := updates_remove m n _ _
  refine ⟨htidy, fun i c hc => ?_, fun m hm => ?_, fun m hm => ?_, fun hself m hm => ?_⟩
  · rcases h.commands i c hc with hfinished | hwaiting | ⟨w, hw⟩
    · exact Or.inl hfinished
    · exact Or.inr (Or.inl hwaiting)
    · obtain ⟨hlive', hname⟩ := hw.mem_keys h hc
      refine Or.inr (Or.inr ⟨w, { hw with new := ?_ }⟩)
      rw [h.tidy.mem_versions_congr hT htidy hname]
      · exact hw.new
      · rw [hstored hname, if_neg (hlive i w hlive')]
  · by_cases hm' : n = m
    · subst hm'
      have hnone : versions (s.store.fs.removeAll (dirpath n)) n false = [] := by
        apply List.eq_nil_iff_forall_not_mem.2
        intro v hv
        obtain ⟨file, hfile⟩ := (htidy.mem_versions_iff_stored hT hn).1 hv
        simp [hstored hn] at hfile
      rw [hupdates, if_pos rfl, owed_of_closed s.commands hclosed, FileStore.indexed, hnone]
      simp
    · rw [hupdates, if_neg hm', h.balance m hm, indexed_congr hT h.tidy htidy hm]
      intro u
      rw [hstored hm, if_neg (Ne.symm hm')]
  · by_cases hm' : n = m
    · subst hm'
      constructor <;> simp [hstored hm, hupdates]
    · constructor <;> simp only [hstored hm, hupdates, if_neg hm', if_neg (Ne.symm hm')]
      exacts [(h.indexed m hm).files, (h.indexed m hm).mirrors, (h.indexed m hm).counted]
  · intro hne
    by_cases hm' : n = m
    · rw [hupdates, if_pos hm'] at hne
      exact absurd rfl hne
    · rw [hupdates, if_neg hm'] at hne
      simp only [hstored hm, if_neg (Ne.symm hm')]
      exact h.present hself m hm hne

lemma Regulated.drop (hT : T.Base64) (hk : Addressed keys) (h : Regulated T hasher keys copies s) (hn : n ∈ keys)
    (hremovable : Removable keys s.store.fs n)
    (hclosed : ∀ c ∈ s.commands, c.isOpen = true → c.instructions.name ≠ n) :
    Regulated T hasher keys copies { s with store := (SkewCorrector.dropKey T s.store n).2 } := by
  rcases SkewCorrector.dropKey_cases (T := T) hk h.confined hn with hdrop | ⟨nm, k, hlookup, hdrop⟩
  · rw [hdrop]
    exact h
  · rw [hdrop, h.totalCopies hT hn hlookup]
    refine ⟨h.accounted.drop hT hk hn hremovable hclosed _, h.confined.removeAll _, ?_, h.writers⟩
    rw [digestDelFunct, toUnsigned_byte]
    exact Steady.concat (c := .remove n (copies n).toNat) h.steady hn (copies n).toNat_lt (h.mirrors hn)

lemma Regulated.packet (hT : T.Base64) (hk : Addressed keys) (h : Regulated T hasher keys copies s)
    {i : ℕ} {host : Host} {buff : Bytes} (hprepared : Prepared T (fun n k => k = (copies n).toNat) s i host) :
    Regulated T hasher keys copies (s.packet T hasher later i host buff) := by
  have haccounted : Accounted T hasher keys (fun n k => k = (copies n).toNat) (s.packet T hasher later i host buff) :=
    h.accounted.packet hT hk.keySpace hprepared buff
  cases hc : s.commands[i]? with
  | none =>
    simp only [Node.packet, hc]
    exact h
  | some c =>
    have hmem := List.mem_of_getElem? hc
    have hfits : Fits T keys c s.store.fs := ⟨h.writers c hmem, h.confined⟩
    have hopens : c.finished = false → c.started = false → c.instructions.name ∈ keys ∧
        (c.instructions.version = [] ∨ IsVersion T c.instructions.version) ∧
        (c.instructions.version = [] → NewVersion T host s.store.fs c.instructions.name) := by
      intro hfinished hstarted
      rcases h.accounted.commands i c hc with hdone | hwaiting | ⟨w, hw⟩
      · simp [hdone] at hfinished
      · exact ⟨hwaiting.name, hwaiting.version, hprepared.fresh c hc hstarted⟩
      · simp [hw.started] at hstarted
    have hrun := @Fits.run θ T hasher later keys c { s.store with host := host } hk hfits buff hopens
    obtain ⟨vs, hvs⟩ := (@continues_run θ T hasher later { s.store with host := host } c buff).calls
    simp only [Node.packet, hc] at haccounted ⊢
    refine ⟨haccounted, hrun.confined, ?_, fun d hd => ?_⟩
    · have hsteady (hn : c.instructions.name ∈ keys) : Steady keys (s.store.callbacks.calls ++ vs.map fun value =>
          .update c.instructions.name value (toUnsigned c.instructions.copies)) := by
        refine h.steady.of_mirrors (k := copies c.instructions.name) hn vs fun u hu => ?_
        obtain ⟨k, rfl, hk⟩ := (haccounted.indexed _ hn).mirrors u (hvs ▸ hu)
        exact hk.trans (toUnsigned_byte _)
      rw [hvs]
      rcases h.accounted.commands i c hc with hfinished | hwaiting | ⟨w, hw⟩
      · have hnone : vs = [] := by simpa [WriteCommand.run, hfinished] using hvs
        rw [hnone]
        simpa using h.steady
      · exact hsteady hwaiting.name
      · exact hsteady (hw.name ▸ (hw.mem_keys h.accounted hc).2)
    · rcases List.mem_or_eq_of_mem_set hd with hd | rfl
      · exact h.writers d hd
      · exact hrun.writer

end History

end Node

namespace KeyTabulator

variable (hasher : Bytes → Bytes)

def postStart (homedir : Bytes) (l : LocateKeys) (fs : FileSystem) : KeyTabulator :=
  (enumerate hasher homedir fs (2 ^ 64 - 1) []).foldl
    (fun tabulator entry => tabulator.update hasher l entry.1 entry.2.1.digest entry.2.1.totalCopies) {}

def SameTrees (k k' : KeyTabulator) : Prop := ∀ id m, (k.find id m).tree = (k'.find id m).tree ∧
  ((k.find id m).empty = false → (k.find id m).id = (k'.find id m).id)

variable {hasher} {keys : Set Bytes} {copies : Bytes → UInt8} {l : LocateKeys}

open Node (Steady updates)

def editsAt (b : UInt8) (calls : List IndexCall) : List KeyEdit :=
  (calls.filter fun c => UInt8.ofNat c.mirrors = b).map IndexCall.edit

lemma editsAt_concat (b : UInt8) (calls : List IndexCall) (c : IndexCall) :
    editsAt b (calls ++ [c]) = if UInt8.ofNat c.mirrors = b then editsAt b calls ++ [c.edit] else editsAt b calls := by
  rw [editsAt, List.filter_append, List.map_append]
  split_ifs with hb
  · simp [editsAt, hb]
  · simp [editsAt, hb]

lemma updates_other {n : Bytes} {c : IndexCall} (hname : c.name ≠ n) (calls : List IndexCall) :
    updates n (calls ++ [c]) = updates n calls := by
  cases c with
  | update name value mirrors =>
    have hne : name ≠ n := hname
    rw [Node.updates_update, if_neg hne, List.append_nil]
  | remove name mirrors =>
    have hne : name ≠ n := hname
    rw [Node.updates_remove, if_neg hne]

lemma pending_other {n : Bytes} {c : IndexCall} (hname : c.name ≠ n) (edits : List KeyEdit) :
    KeyEdit.pending n (edits ++ [c.edit]) = KeyEdit.pending n edits := by
  cases c with
  | update name value mirrors => exact (KeyEdit.pending_update _ _ _ _).trans (if_neg hname)
  | remove name mirrors => exact (KeyEdit.pending_remove _ _ _).trans (if_neg hname)

lemma filter_updates {us : List (UInt64 × ℕ)} {k : ℕ} (h : ∀ u ∈ us, u.2 = k) (b : UInt8) :
    (us.filter fun u => UInt8.ofNat u.2 = b) = if UInt8.ofNat k = b then us else [] := by
  split_ifs with hb
  · exact List.filter_eq_self.2 fun u hu => decide_eq_true (h u hu ▸ hb)
  · exact List.filter_eq_nil_iff.2 fun u hu => by simpa [h u hu] using hb

/-- A call on a key is on the tree that has what is pending of the key, and on no other. -/
lemma pending_editsAt {calls : List IndexCall} (h : Steady keys calls) (b : UInt8) (n : Bytes) :
    KeyEdit.pending n (editsAt b calls) =
      ((updates n calls).filter fun u => UInt8.ofNat u.2 = b).map Prod.fst := by
  induction calls using List.reverseRecOn with
  | nil => simp [editsAt, KeyEdit.pending, updates]
  | append_singleton calls c ih =>
    replace ih := ih ⟨fun d hd => h.names d (List.mem_append_left _ hd),
      fun d hd => h.bytes d (List.mem_append_left _ hd),
      fun before d hbefore => h.same before d (hbefore.trans (List.prefix_append _ _))⟩
    have hsame := h.same calls c (List.prefix_refl _)
    rw [editsAt_concat]
    by_cases hn : c.name = n
    · subst hn
      cases c with
      | update name value mirrors =>
        simp only [IndexCall.name, IndexCall.mirrors, IndexCall.edit] at ih ⊢
        rw [Node.updates_update, if_pos rfl, List.filter_append, List.map_append, ← ih]
        by_cases hb : UInt8.ofNat mirrors = b
        · simp only [hb, if_true, KeyEdit.pending_update]
          simp [hb]
        · simp [hb]
      | remove name mirrors =>
        simp only [IndexCall.name, IndexCall.mirrors, IndexCall.edit] at ih hsame ⊢
        rw [Node.updates_remove, if_pos rfl, List.filter_nil, List.map_nil]
        by_cases hb : UInt8.ofNat mirrors = b
        · simp only [hb, if_true, KeyEdit.pending_remove]
        · -- what is pending is on the tree that the key is removed from
          rw [filter_updates hsame, if_neg hb, List.map_nil] at ih
          simpa only [hb, if_false] using ih
    · rw [updates_other hn, ← ih]
      split_ifs
      · exact pending_other hn _
      · rfl

lemma slotted (l : LocateKeys) {calls : List IndexCall} (h : Steady keys calls) (b : UInt8) :
    Slotted hasher l b.toNat (editsAt b calls)
      ((KeyTabulator.calls hasher (calls.map fun c => (l, c))).forest.get b) := by
  rw [calls_get, List.filter_map, List.foldl_map]
  apply slotted_calls
  intro c hc
  obtain ⟨hmem, hb⟩ := List.mem_filter.1 hc
  have hbyte : UInt8.ofNat c.mirrors = b := of_decide_eq_true hb
  rw [← hbyte, UInt8.toNat_ofNat', Nat.mod_eq_of_lt (h.bytes c hmem)]

lemma mem_editsAt {b : UInt8} {calls : List IndexCall} {e : KeyEdit} (he : e ∈ editsAt b calls) :
    ∃ c ∈ calls, c.name = e.key := by
  obtain ⟨c, hc, rfl⟩ := List.mem_map.1 he
  refine ⟨c, List.mem_of_mem_filter hc, ?_⟩
  cases c <;> rfl

lemma sameTrees_of_updates (hinj : Set.InjOn (DigestTree.keyhash hasher) keys) (l : LocateKeys)
    {calls calls' : List IndexCall} (hcalls : Steady keys calls) (hcalls' : Steady keys calls')
    (hupdates : ∀ n, (updates n calls ≠ [] ↔ updates n calls' ≠ []) ∧
      xorAll ((updates n calls).map Prod.fst) = xorAll ((updates n calls').map Prod.fst) ∧
      ∃ k : UInt8, ∀ u ∈ updates n calls ++ updates n calls', u.2 = k.toNat) :
    SameTrees (KeyTabulator.calls hasher (calls.map fun c => (l, c)))
      (KeyTabulator.calls hasher (calls'.map fun c => (l, c))) := by
  have hsub {calls : List IndexCall} (hcalls : Steady keys calls) (b : UInt8) :
      Set.InjOn (DigestTree.keyhash hasher) {name | ∃ e ∈ editsAt b calls, e.key = name} := by
    apply hinj.mono
    rintro name ⟨e, he, rfl⟩
    obtain ⟨c, hc, hname⟩ := mem_editsAt he
    exact hname ▸ hcalls.names c hc
  intro id m
  apply (slotted l hcalls (UInt8.ofNat m)).congr (slotted l hcalls' (UInt8.ofNat m)) (hsub hcalls _) (hsub hcalls' _)
  intro n
  obtain ⟨hpresent, hxor, k, hsame⟩ := hupdates n
  rw [pending_editsAt hcalls, pending_editsAt hcalls', filter_updates fun u hu => hsame u (List.mem_append_left _ hu),
    filter_updates fun u hu => hsame u (List.mem_append_right _ hu)]
  split_ifs
  · exact ⟨by simpa using hpresent, hxor⟩
  · simp

end KeyTabulator

namespace Node

variable {θ : Type} {T : TurboLib} {hasher : Bytes → Bytes} {later : LaterCallbacks θ} {keys : Set Bytes}
  {copies : Bytes → UInt8} {homedir : Bytes}

open WriteCommand in
lemma owed_of_done {commands : List (WriteCommand Writestream)} (hdone : ∀ c ∈ commands, c.isOpen = false) (n : Bytes) :
    xorAll (commands.map (owed n)) = 0 :=
  owed_of_closed commands fun c hc hopen => by simp [hdone c hc] at hopen

lemma updates_of_forall_ne {n : Bytes} {calls : List IndexCall} (h : ∀ c ∈ calls, c.name ≠ n) :
    updates n calls = [] := by
  induction calls using List.reverseRecOn with
  | nil => rfl
  | append_singleton calls c ih =>
    rw [KeyTabulator.updates_other (h c (by simp)), ih fun d hd => h d (List.mem_append_left _ hd)]

def reported (entry : Bytes × KeyMetadata × List Bytes) : IndexCall :=
  .update entry.1 entry.2.1.digest entry.2.1.totalCopies

lemma postStart_eq (l : LocateKeys) (fs : FileSystem) : KeyTabulator.postStart hasher homedir l fs =
    KeyTabulator.calls hasher (((enumerate hasher homedir fs (2 ^ 64 - 1) []).map reported).map fun c => (l, c)) := by
  rw [KeyTabulator.calls, List.map_map, List.foldl_map]
  rfl

lemma updates_reported {entries : List (Bytes × KeyMetadata × List Bytes)} (hnodup : (entries.map Prod.fst).Nodup) :
    (∀ entry ∈ entries, updates entry.1 (entries.map reported) = [(entry.2.1.digest, entry.2.1.totalCopies)]) ∧
      ∀ n, (∀ entry ∈ entries, entry.1 ≠ n) → updates n (entries.map reported) = [] := by
  induction entries using List.reverseRecOn with
  | nil => exact ⟨by simp, fun _ _ => rfl⟩
  | append_singleton entries last ih =>
    rw [List.map_append, List.nodup_append] at hnodup
    obtain ⟨hentries, -, hlast⟩ := hnodup
    obtain ⟨hone, hother⟩ := ih hentries
    have hnew : ∀ entry ∈ entries, entry.1 ≠ last.1 := fun entry hentry =>
      hlast _ (List.mem_map_of_mem hentry) _ (by simp)
    constructor
    · intro entry hentry
      rw [List.map_append, List.map_singleton, reported, updates_update]
      rcases List.mem_append.1 hentry with hentry | hentry
      · rw [if_neg (hnew entry hentry).symm, List.append_nil, hone entry hentry]
      · obtain rfl := List.mem_singleton.1 hentry
        rw [hother _ hnew, if_pos rfl]
        rfl
    · intro n hn
      rw [List.map_append, List.map_singleton, reported, updates_update, if_neg (hn last (by simp)), List.append_nil,
        hother n fun entry hentry => hn entry (List.mem_append_left _ hentry)]

lemma steady_reported {entries : List (Bytes × KeyMetadata × List Bytes)} (hnodup : (entries.map Prod.fst).Nodup)
    (hentries : ∀ entry ∈ entries, entry.1 ∈ keys ∧ entry.2.1.totalCopies = (copies entry.1).toNat) :
    Steady keys (entries.map reported) := by
  induction entries using List.reverseRecOn with
  | nil => exact ⟨by simp, by simp, fun before c hprefix => by simp at hprefix⟩
  | append_singleton entries last ih =>
    obtain ⟨hn, hcopies⟩ := hentries last (by simp)
    rw [List.map_append, List.nodup_append] at hnodup
    obtain ⟨hfirst, -, hlast⟩ := hnodup
    rw [List.map_append, List.map_singleton]
    have hsteady := ih hfirst fun entry hentry => hentries entry (List.mem_append_left _ hentry)
    refine hsteady.concat hn (hcopies.trans_lt (copies last.1).toNat_lt) fun u hu => ?_
    have hnone : updates last.1 (entries.map reported) = [] :=
      (updates_reported hfirst).2 _ fun entry hentry => hlast _ (List.mem_map_of_mem hentry) _ (by simp)
    have hmem : u ∈ updates last.1 (entries.map reported) := hu
    rw [hnone] at hmem
    simp at hmem

/-- What the calls of an index say of the files of a store. -/
structure Indexes (hasher : Bytes → Bytes) (keys : Set Bytes) (fs : FileSystem) (calls : List IndexCall) : Prop where
  steady : Steady keys calls
  counted : ∀ n ∈ keys, updates n calls ≠ [] ↔ ∃ v file, stored fs n v = some file
  sum : ∀ n ∈ keys, xorAll ((updates n calls).map Prod.fst) = FileStore.indexed hasher fs n
  copies : ∀ n ∈ keys, ∃ k : UInt8, (∀ u ∈ updates n calls, u.2 = k.toNat) ∧
    ∀ v file, stored fs n v = some file → (mdFromString {} file.md).totalCopies = k.toNat

section Indexes

variable {fs fs' : FileSystem} {calls calls' : List IndexCall} {n : Bytes}

lemma Indexes.outside (h : Indexes hasher keys fs calls) (hn : n ∉ keys) : updates n calls = [] :=
  updates_of_forall_ne fun c hc heq => hn (heq ▸ h.steady.names c hc)

lemma Indexes.copies_eq (h : Indexes hasher keys fs calls) (h' : Indexes hasher keys fs' calls')
    (hsame : ∀ v, stored fs' n v = stored fs n v) (hn : n ∈ keys) :
    ∃ k : UInt8, ∀ u ∈ updates n calls ++ updates n calls', u.2 = k.toNat := by
  obtain ⟨k, hcalls, hfiles⟩ := h.copies n hn
  obtain ⟨k', hcalls', hfiles'⟩ := h'.copies n hn
  refine ⟨k, fun u hu => ?_⟩
  rcases List.mem_append.1 hu with hu | hu
  · exact hcalls u hu
  · obtain ⟨v, file, hfile⟩ := (h'.counted n hn).1 (List.ne_nil_of_mem hu)
    rw [hcalls' u hu, ← hfiles' v file hfile, hfiles v file (hsame v ▸ hfile)]

/-- Calls that say the same of the same files build the same trees. -/
theorem Indexes.sameTrees (h : Indexes hasher keys fs calls) (h' : Indexes hasher keys fs' calls')
    (hinj : Set.InjOn (DigestTree.keyhash hasher) keys) (hsame : ∀ n ∈ keys, ∀ v, stored fs' n v = stored fs n v)
    (hindexed : ∀ n ∈ keys, FileStore.indexed hasher fs' n = FileStore.indexed hasher fs n) (l : LocateKeys) :
    KeyTabulator.SameTrees (KeyTabulator.calls hasher (calls.map fun c => (l, c)))
      (KeyTabulator.calls hasher (calls'.map fun c => (l, c))) := by
  apply KeyTabulator.sameTrees_of_updates hinj l h.steady h'.steady
  intro n
  by_cases hn : n ∈ keys
  · refine ⟨?_, ?_, h.copies_eq h' (hsame n hn) hn⟩
    · rw [h.counted n hn, h'.counted n hn]
      simp only [hsame n hn]
    · rw [h.sum n hn, h'.sum n hn, hindexed n hn]
  · rw [h.outside hn, h'.outside hn]
    simp

end Indexes

section Idle

variable {s : Node θ} (h : Regulated T hasher keys copies s) (hdone : ∀ c ∈ s.commands, c.isOpen = false)

include h hdone

lemma Regulated.idle : Tidy T keys s.store.fs fun _ => none := by
  have hlive : live s.commands = fun _ => none := by
    funext i
    cases hc : s.commands[i]? with
    | none => simp [live, hc]
    | some c => simp [live, hc, hdone c (List.mem_of_getElem? hc)]
  exact hlive ▸ h.accounted.tidy

omit hdone in
lemma Regulated.copies_of_stored {n : Bytes} (hn : n ∈ keys) {v : Bytes} {file : File}
    (hfile : stored s.store.fs n v = some file) : (mdFromString {} file.md).totalCopies = (copies n).toNat := by
  obtain ⟨k, rfl, hmd⟩ := (h.accounted.indexed n hn).files v file hfile
  exact hmd ▸ totalCopies_of_written _

lemma Regulated.indexes (hself : ∀ v, T.compare v v = .equal) :
    Indexes hasher keys s.store.fs s.store.callbacks.calls where
  steady := h.steady
  counted n hn := by
    constructor
    · intro hne
      refine (h.accounted.present hself n hn hne).resolve_right ?_
      rintro ⟨i, c, hc, hopen, -⟩
      simp [hdone c (List.mem_of_getElem? hc)] at hopen
    · rintro ⟨v, file, hfile⟩
      exact (h.accounted.indexed n hn).counted v file hfile
  sum n hn := by rw [h.accounted.balance n hn, owed_of_done hdone, UInt64.xor_zero]
  copies n hn := ⟨copies n, h.mirrors hn, fun _ _ => h.copies_of_stored hn⟩

lemma Regulated.indexes_reported (hT : T.Base64) (hk : Addressed keys) (hhome : homedir.getLast? ≠ some 47)
    (hlimit : s.store.fs.dirs.keys.length ≤ 2 ^ 64 - 1) :
    Indexes hasher keys s.store.fs ((enumerate hasher homedir s.store.fs (2 ^ 64 - 1) []).map reported) := by
  have htidy := h.idle hdone
  obtain ⟨hreports, hfound, hnodup⟩ := @Confined.enumerated T hasher keys s.store.fs homedir (2 ^ 64 - 1) hT hk
    h.confined htidy hhome hlimit
  obtain ⟨hone, hother⟩ := updates_reported hnodup
  have hcopies : ∀ entry ∈ enumerate hasher homedir s.store.fs (2 ^ 64 - 1) [],
      entry.1 ∈ keys ∧ entry.2.1.totalCopies = (copies entry.1).toNat := by
    intro entry hentry
    obtain ⟨hn, -, v, file, hfile, hcopies⟩ := hreports entry hentry
    exact ⟨hn, hcopies.trans (h.copies_of_stored hn hfile)⟩
  set entries := enumerate hasher homedir s.store.fs (2 ^ 64 - 1) []
  have hupdates (n : Bytes) (hn : n ∈ keys) : updates n (entries.map reported) =
      if versions s.store.fs n false = [] then []
      else [(FileStore.indexed hasher s.store.fs n, (copies n).toNat)] := by
    split_ifs with hversions
    · apply hother n
      rintro entry hentry rfl
      exact (hreports entry hentry).2.1.finished hversions
    · obtain ⟨entry, hentry, rfl⟩ := hfound n hn hversions
      rw [hone entry hentry, (hreports entry hentry).2.1.digest, (hcopies entry hentry).2]
      rfl
  have hstored (n : Bytes) (hn : n ∈ keys) :
      versions s.store.fs n false ≠ [] ↔ ∃ v file, stored s.store.fs n v = some file := by
    rw [← List.length_pos_iff, List.length_pos_iff_exists_mem]
    exact exists_congr fun v => htidy.mem_versions_iff_stored hT hn
  refine ⟨steady_reported hnodup hcopies, fun n hn => ?_, fun n hn => ?_, fun n hn => ⟨copies n, ?_, fun _ _ =>
    h.copies_of_stored hn⟩⟩
  · rw [← hstored n hn, hupdates n hn]
    split_ifs with hversions <;> simp [hversions]
  · rw [hupdates n hn]
    split_ifs with hversions <;> simp [hversions, FileStore.indexed]
  · rw [hupdates n hn]
    split_ifs <;> simp

end Idle

lemma Regulated.start (hT : T.Base64) (host : Host) (others : θ) :
    Regulated T hasher keys copies ⟨⟨.empty, host, ⟨[], others⟩⟩, []⟩ where
  accounted := .start hT (.empty keys) host others
  confined := .empty keys
  steady := ⟨by simp, by simp, fun before c hprefix => by simp at hprefix⟩
  writers c hc := by simp at hc

lemma Regulated.request {s : Node θ} (h : Regulated T hasher keys copies s) {w : Write} (hname : w.name ∈ keys)
    (hversion : w.version = [] ∨ IsVersion T w.version) :
    Regulated T hasher keys copies ⟨s.store, s.commands ++ [.create w]⟩ := by
  refine ⟨h.accounted.request hname hversion, h.confined, h.steady, fun c hc => ?_⟩
  rcases List.mem_append.1 hc with hc | hc
  · exact h.writers c hc
  · obtain rfl := List.mem_singleton.1 hc
    rintro w ⟨⟩

end Node

end Turbopump
