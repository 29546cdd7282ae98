import Turbopump.Api.WriteHistory
import Turbopump.Storage.Opening

/-! What the write commands of a node report to the index adds up, key by key, to the digest of what the store
holds of the key. -/

namespace Turbopump

open FileStore
open VectorClock (IsVersion)

namespace Node

open WriteCommand

variable {θ : Type} {T : TurboLib} {hasher : Bytes → Bytes} {later : LaterCallbacks θ} {keys : Set Bytes}
  {allowed : Bytes → ℤ → Prop}

def live (commands : List (WriteCommand Writestream)) (i : ℕ) : Option Writestream :=
  commands[i]?.bind fun c => if c.isOpen then c.writer else none

structure Waiting (T : TurboLib) (keys : Set Bytes) (c : WriteCommand Writestream) : Prop where
  started : c.started = false
  finished : c.finished = false
  name : c.instructions.name ∈ keys
  version : c.instructions.version = [] ∨ IsVersion T c.instructions.version
  incomplete : c.instructions.isComplete = false
  digest : c.instructions.digest = 0

structure Writing (T : TurboLib) (allowed : Bytes → ℤ → Prop) (fs : FileSystem) (c : WriteCommand Writestream)
    (w : Writestream) : Prop where
  started : c.started = true
  finished : c.finished = false
  writer : c.writer = some w
  name : w.name = c.instructions.name
  incomplete : c.instructions.isComplete = false
  new : w.vstr T ∉ versions fs w.name false
  copies : allowed w.name c.instructions.copies
  md : mdToString w.md = mdToString { totalCopies := toUnsignedShort c.instructions.copies }

structure Indexed (T : TurboLib) (allowed : Bytes → ℤ → Prop) (store : StoreState (Callbacks θ)) (n : Bytes) :
    Prop where
  files : ∀ v file, stored store.fs n v = some file →
    ∃ k, allowed n k ∧ file.md = mdToString { totalCopies := toUnsignedShort k }
  mirrors : ∀ u ∈ updates n store.callbacks.calls, ∃ k, allowed n k ∧ u.2 = toUnsigned k
  counted : ∀ v file, stored store.fs n v = some file → updates n store.callbacks.calls ≠ []

def Present (store : StoreState (Callbacks θ)) (commands : List (WriteCommand Writestream)) (n : Bytes) : Prop :=
  updates n store.callbacks.calls ≠ [] → (∃ v file, stored store.fs n v = some file) ∨
    ∃ (i : ℕ) (c : _), commands[i]? = some c ∧ c.isOpen = true ∧ c.instructions.name = n

structure Accounted (T : TurboLib) (hasher : Bytes → Bytes) (keys : Set Bytes) (allowed : Bytes → ℤ → Prop)
    (s : Node θ) : Prop where
  tidy : Tidy T keys s.store.fs (live s.commands)
  commands : ∀ (i : ℕ) c, s.commands[i]? = some c →
    c.finished = true ∨ Waiting T keys c ∨ ∃ w, Writing T allowed s.store.fs c w
  balance : ∀ n ∈ keys, xorAll ((updates n s.store.callbacks.calls).map Prod.fst) =
    indexed hasher s.store.fs n ^^^ xorAll (s.commands.map (owed n))
  indexed : ∀ n ∈ keys, Indexed T allowed s.store n
  present : (∀ v, T.compare v v = .equal) → ∀ n ∈ keys, Present s.store s.commands n

structure Flushed (c c' : WriteCommand Writestream) (w : Writestream) (reader : Readstream) (fs : FileSystem)
    (store store' : StoreState (Callbacks θ)) : Prop where
  started : c'.started = c.started
  finished : c'.finished = c.finished
  writer : c'.writer = some w
  name : c'.instructions.name = c.instructions.name
  copies : c'.instructions.copies = c.instructions.copies
  isComplete : c'.instructions.isComplete = c.instructions.isComplete
  digest : c'.instructions.digest = reader.md.digest
  fs : store'.fs = fs
  calls : store'.callbacks.calls = store.callbacks.calls ++ [.update c.instructions.name
    (c.instructions.digest ^^^ reader.md.digest) (toUnsigned c.instructions.copies)]

variable (later) in
lemma flush_flushed {c : WriteCommand Writestream} {w w' : Writestream} {reader : Readstream} {fs : FileSystem}
    {store : StoreState (Callbacks θ)} (hw : c.writer = some w)
    (hcommit : w.commit T hasher store.fs c.instructions.isComplete = (some reader, w', fs)) :
    ∃ c' store', c.flush (env T hasher later) store = (true, c', store') ∧ Flushed c c' w' reader fs store store' := by
  refine ⟨_, _, by simp only [WriteCommand.flush, hw, FileStore.env, hcommit]; rfl, ?_⟩
  constructor <;> simp only [whenWriteFinishes, digestAddFunct] <;> split_ifs <;> rfl

lemma live_set {commands : List (WriteCommand Writestream)} {i : ℕ} (hi : i < commands.length)
    (c : WriteCommand Writestream) :
    live (commands.set i c) = Function.update (live commands) i (if c.isOpen then c.writer else none) := by
  funext j
  by_cases hj : j = i
  · subst hj
    simp [live, hi]
  · simp [live, hj, Ne.symm hj]

lemma updates_update (n name : Bytes) (value : UInt64) (mirrors : ℕ) (calls : List IndexCall) :
    updates n (calls ++ [.update name value mirrors]) =
      updates n calls ++ if name = n then [(value, mirrors)] else [] := by
  simp only [updates, List.foldl_append, List.foldl_cons, List.foldl_nil]
  split_ifs <;> simp

section Steps

variable {s : Node θ} {i : ℕ} {c : WriteCommand Writestream} {w : Writestream} {fs : FileSystem}

lemma Writing.isOpen (h : Writing T allowed fs c w) : c.isOpen = true := by
  simp [WriteCommand.isOpen, h.started, h.finished]

lemma Writing.owed (h : Writing T allowed fs c w) (n : Bytes) :
    WriteCommand.owed n c = if w.name = n then c.instructions.digest else 0 := by
  simp [WriteCommand.owed, h.isOpen, h.name]

lemma Writing.mem_keys (h : Accounted T hasher keys allowed s) (hc : s.commands[i]? = some c)
    (hw : Writing T allowed s.store.fs c w) : live s.commands i = some w ∧ w.name ∈ keys := by
  have hlive : live s.commands i = some w := by simp [live, hc, hw.isOpen, hw.writer]
  obtain ⟨k, ho⟩ := h.tidy.opened i w hlive
  exact ⟨hlive, ho.name⟩

lemma Present.set {commands : List (WriteCommand Writestream)} {store store' : StoreState (Callbacks θ)} {n : Bytes}
    (h : Present store commands n) (hc : commands[i]? = some c) (c' : WriteCommand Writestream)
    (hupdates : updates n store'.callbacks.calls ≠ [] → updates n store.callbacks.calls ≠ [])
    (hstored : ∀ v file, stored store.fs n v = some file → ∃ v file, stored store'.fs n v = some file)
    (hopen : c.isOpen = true → c.instructions.name = n → c'.isOpen = true ∧ c'.instructions.name = n) :
    Present store' (commands.set i c') n := by
  intro hne
  rcases h (hupdates hne) with ⟨v, file, hv⟩ | ⟨j, d, hd, hdopen, hdname⟩
  · exact Or.inl (hstored v file hv)
  · refine Or.inr ?_
    have hi : i < commands.length := (List.getElem?_eq_some_iff.1 hc).1
    by_cases hj : j = i
    · subst hj
      obtain rfl := Option.some.inj (hc.symm.trans hd)
      exact ⟨j, c', by simp [hi], hopen hdopen hdname⟩
    · exact ⟨j, d, by simpa [Ne.symm hj] using hd, hdopen, hdname⟩

lemma Accounted.replace (h : Accounted T hasher keys allowed s) (hc : s.commands[i]? = some c)
    (c' : WriteCommand Writestream) (store : StoreState (Callbacks θ))
    (htidy : Tidy T keys store.fs (Function.update (live s.commands) i (if c'.isOpen then c'.writer else none)))
    (hcommand : c'.finished = true ∨ Waiting T keys c' ∨ ∃ w, Writing T allowed store.fs c' w)
    (hnew : ∀ j d w, j ≠ i → s.commands[j]? = some d → Writing T allowed s.store.fs d w →
      w.vstr T ∉ versions store.fs w.name false)
    (hbalance : ∀ n ∈ keys, xorAll ((updates n store.callbacks.calls).map Prod.fst) =
      FileStore.indexed hasher store.fs n ^^^ (xorAll (s.commands.map (owed n)) ^^^ (owed n c ^^^ owed n c')))
    (hindexed : ∀ n ∈ keys, Indexed T allowed store n)
    (hpresent : (∀ v, T.compare v v = .equal) → ∀ n ∈ keys, Present store (s.commands.set i c') n) :
    Accounted T hasher keys allowed ⟨store, s.commands.set i c'⟩ := by
  have hi : i < s.commands.length := (List.getElem?_eq_some_iff.1 hc).1
  constructor
  case tidy => exact live_set hi c' ▸ htidy
  case commands =>
    intro j d hd
    by_cases hj : j = i
    · subst hj
      obtain rfl : c' = d := by simpa [hi] using hd
      exact hcommand
    · replace hd : s.commands[j]? = some d := by simpa [Ne.symm hj] using hd
      refine (h.commands j d hd).imp_right (Or.imp_right ?_)
      rintro ⟨w, hw⟩
      exact ⟨w, { hw with new := hnew j d w hj hd hw }⟩
  case balance =>
    intro n hn
    rw [hbalance n hn, xorAll_map_set _ hc]
  case indexed => exact hindexed
  case present => exact hpresent

lemma Accounted.unfinished (hT : T.Base64) (h : Accounted T hasher keys allowed s) (hc : s.commands[i]? = some c)
    (c' : WriteCommand Writestream) (store : StoreState (Callbacks θ))
    (htidy : Tidy T keys store.fs (Function.update (live s.commands) i (if c'.isOpen then c'.writer else none)))
    (hcommand : c'.finished = true ∨ Waiting T keys c' ∨ ∃ w, Writing T allowed store.fs c' w)
    (hstored : ∀ n ∈ keys, ∀ u, stored store.fs n u = stored s.store.fs n u)
    (hcalls : store.callbacks.calls = s.store.callbacks.calls) (howed : ∀ n, owed n c' = owed n c)
    (hopen : c.isOpen = true → c'.isOpen = true ∧ c'.instructions.name = c.instructions.name) :
    Accounted T hasher keys allowed ⟨store, s.commands.set i c'⟩ := by
  refine h.replace hc c' store htidy hcommand (fun j d w _ hd hw => ?_) (fun n hn => ?_) (fun n hn => ?_)
    fun hself n hn => ?_
  · have hname := (hw.mem_keys h hd).2
    rw [h.tidy.mem_versions_congr hT htidy hname (hstored _ hname _)]
    exact hw.new
  · rw [hcalls, h.balance n hn, indexed_congr hT h.tidy htidy hn (hstored n hn), howed, UInt64.xor_self,
      UInt64.xor_zero]
  · obtain ⟨hfiles, hmirrors, hcounted⟩ := h.indexed n hn
    constructor <;> simp only [hcalls, hstored n hn]
    · exact hfiles
    · exact hmirrors
    · exact hcounted
  · refine (h.present hself n hn).set hc c' (by rw [hcalls]; exact id) (fun v file hv => ⟨v, file, ?_⟩)
      fun ho hname => ?_
    · rw [hstored n hn, hv]
    · exact ⟨(hopen ho).1, (hopen ho).2.trans hname⟩

end Steps

structure Held (T : TurboLib) (hasher : Bytes → Bytes) (keys : Set Bytes) (allowed : Bytes → ℤ → Prop)
    (commands : List (WriteCommand Writestream)) (i : ℕ) (c : WriteCommand Writestream)
    (store : StoreState (Callbacks θ)) : Prop where
  bound : i < commands.length
  accounted : Accounted T hasher keys allowed ⟨store, commands.set i c⟩
  writing : ∃ w, Writing T allowed store.fs c w

section Run

variable {commands : List (WriteCommand Writestream)} {i : ℕ} {c : WriteCommand Writestream}
  {store : StoreState (Callbacks θ)}

lemma Held.getElem? (h : Held T hasher keys allowed commands i c store) : (commands.set i c)[i]? = some c := by
  simp [h.bound]

lemma Held.touch (hT : T.Base64) (h : Held T hasher keys allowed commands i c store) {c' : WriteCommand Writestream}
    (hstarted : c'.started = c.started) (hfinished : c'.finished = c.finished) (hwriter : c'.writer = c.writer)
    (hinstructions : c'.instructions = c.instructions) : Held T hasher keys allowed commands i c' store := by
  obtain ⟨w, hw⟩ := h.writing
  have hw' : Writing T allowed store.fs c' w :=
    ⟨hstarted.trans hw.started, hfinished.trans hw.finished, hwriter.trans hw.writer, hinstructions ▸ hw.name,
      hinstructions ▸ hw.incomplete, hw.new, hinstructions ▸ hw.copies, hinstructions ▸ hw.md⟩
  obtain ⟨hlive, -⟩ := hw.mem_keys h.accounted h.getElem?
  refine ⟨h.bound, ?_, w, hw'⟩
  have hsame := h.accounted.unfinished hT h.getElem? c' store ?_ (Or.inr (Or.inr ⟨w, hw'⟩)) (fun _ _ _ => rfl) rfl
    (fun n => by rw [hw.owed, hw'.owed, hinstructions]) fun _ => ⟨hw'.isOpen, by rw [hinstructions]⟩
  · simpa using hsame
  · rw [if_pos hw'.isOpen, hw'.writer, ← hlive, Function.update_eq_self]
    exact h.accounted.tidy

variable (later) in
lemma Held.append (hT : T.Base64) (hk : KeySpace keys) (h : Held T hasher keys allowed commands i c store)
    (buff : Bytes) : Held T hasher keys allowed commands i (c.append (env T hasher later) buff store).1
      (c.append (env T hasher later) buff store).2 := by
  obtain ⟨w, hw⟩ := h.writing
  obtain ⟨hlive, hname⟩ := hw.mem_keys h.accounted h.getElem?
  obtain ⟨w', fs', hwrite, hname', hmd, -, htidy, hstored, -⟩ := h.accounted.tidy.write hT hk hlive buff
  have happend : c.append (env T hasher later) buff store = ({ c with writer := some w' },
    { store with fs := fs' }) := by
    simp [WriteCommand.append, hw.writer, FileStore.env, hwrite]
  have hvstr : w'.vstr T = w.vstr T := by rw [Writestream.vstr, hmd, Writestream.vstr]
  have hnew : w'.vstr T ∉ versions fs' w'.name false := by
    rw [hvstr, hname', h.accounted.tidy.mem_versions_congr hT htidy hname (hstored _ hname _)]
    exact hw.new
  have hw' : Writing T allowed fs' { c with writer := some w' } w' :=
    ⟨hw.started, hw.finished, rfl, hname'.trans hw.name, hw.incomplete, hnew, hname' ▸ hw.copies, hmd ▸ hw.md⟩
  rw [happend]
  refine ⟨h.bound, ?_, w', hw'⟩
  have hdone := h.accounted.unfinished hT h.getElem? { c with writer := some w' } { store with fs := fs' } ?_
    (Or.inr (Or.inr ⟨w', hw'⟩)) hstored rfl (fun n => by rw [hw.owed, hw'.owed, hname']) fun _ => ⟨hw'.isOpen, rfl⟩
  · simpa using hdone
  · rw [if_pos hw'.isOpen]
    exact htidy

variable (later) in
lemma Held.flush (h : Held T hasher keys allowed commands i c store) :
    (c.flush (env T hasher later) store).1 = true ∧
    Held T hasher keys allowed commands i (c.flush (env T hasher later) store).2.1
      (c.flush (env T hasher later) store).2.2 := by
  obtain ⟨w, hw⟩ := h.writing
  obtain ⟨hlive, hname⟩ := hw.mem_keys h.accounted h.getElem?
  obtain ⟨reader, w', hcommit, hname', hvstr, hmd, -, -, -, -, htidy⟩ := h.accounted.tidy.flush hasher hlive
  obtain ⟨c', store', hflush, hf⟩ := flush_flushed later hw.writer (by rw [hw.incomplete]; exact hcommit)
  have hw' : Writing T allowed store'.fs c' w' := by
    constructor <;> simp only [hf.started, hf.finished, hf.writer, hf.name, hf.isComplete, hf.fs, hf.copies, hname',
      hvstr, hmd]
    exacts [hw.started, hw.finished, hw.name, hw.incomplete, hw.new, hw.copies, hw.md]
  rw [hflush]
  refine ⟨rfl, h.bound, ?_, w', hw'⟩
  have hdone := h.accounted.replace h.getElem? c' store' ?_ (Or.inr (Or.inr ⟨w', hw'⟩))
    (fun j d v _ hd hv => by rw [hf.fs]; exact hv.new) (fun n hn => ?_) (fun n hn => ?_) fun hself n hn => ?_
  · simpa using hdone
  · rw [if_pos hw'.isOpen, hw'.writer, hf.fs]
    exact htidy
  · rw [hf.calls, updates_update, hw.owed, hw'.owed, hname', hf.digest, ← hw.name, hf.fs, List.map_append,
      xorAll_append, h.accounted.balance n hn, UInt64.xor_assoc]
    split_ifs <;> simp
  · obtain ⟨hfiles, hmirrors, hcounted⟩ := h.accounted.indexed n hn
    refine ⟨by rw [hf.fs]; exact hfiles, fun u hu => ?_, fun v file hv => ?_⟩
    · rw [hf.calls, updates_update, List.mem_append] at hu
      rcases hu with hu | hu
      · exact hmirrors u hu
      · split_ifs at hu with hn'
        · obtain rfl := List.mem_singleton.1 hu
          exact ⟨c.instructions.copies, hn' ▸ hw.name ▸ hw.copies, rfl⟩
        · simp at hu
    · rw [hf.calls, updates_update]
      exact List.append_ne_nil_of_left_ne_nil (hcounted v file (by rwa [hf.fs] at hv)) _
  · by_cases hn' : c.instructions.name = n
    · exact fun _ => Or.inr ⟨i, c', by simp [h.bound], hw'.isOpen, by rw [hf.name, hn']⟩
    · refine (h.accounted.present hself n hn).set h.getElem? c' ?_ (fun v file hv => ⟨v, file, by rw [hf.fs, hv]⟩)
        fun _ hname => absurd hname hn'
      rw [hf.calls, updates_update, if_neg hn', List.append_nil]
      exact id

lemma closed_nonempty (hself : ∀ v, T.compare v v = .equal) {fs fs' : FileSystem} {w : Writestream} {digest : UInt64}
    {gone : List Bytes} (hclosed : Closed T hasher keys fs fs' w digest gone)
    (hversions : ∀ x ∈ versions fs w.name false, ∃ file, stored fs w.name x = some file) :
    ∃ v file, stored fs' w.name v = some file := by
  have hother : ∀ x, VectorClock.compareNames T x (w.vstr T) = .greaterThan → x ≠ w.vstr T := by
    rintro x hx rfl
    simp [VectorClock.compareNames, hself] at hx
  by_cases hgone : w.vstr T ∈ gone
  · rcases (hclosed.gone_iff _).1 hgone with ⟨-, hless⟩ | ⟨-, x, hx, hgreater⟩
    · simp [VectorClock.compareNames, hself] at hless
    · -- what is greater stays
      have hne := hother x hgreater
      obtain ⟨file, hfile⟩ := hversions x (hx.resolve_left hne)
      refine ⟨x, file, ?_⟩
      rw [hclosed.stored, if_neg, if_neg hne, hfile]
      rw [hclosed.gone_iff, not_or]
      exact ⟨fun hx' => by simp [hgreater] at hx', fun hx' => hne hx'.1⟩
  · exact ⟨w.vstr T, _, by rw [hclosed.stored, if_neg hgone, if_pos rfl]⟩

variable (later) in
lemma Held.commit (hT : T.Base64) (hk : KeySpace keys) (h : Held T hasher keys allowed commands i c store) :
    Accounted T hasher keys allowed ⟨(c.commit (env T hasher later) store).2.2,
      commands.set i (c.commit (env T hasher later) store).2.1⟩ := by
  obtain ⟨w, hw⟩ := h.writing
  obtain ⟨hlive, hname⟩ := hw.mem_keys h.accounted h.getElem?
  obtain ⟨reader, w', fs', gone, hcommit, -, -, -, htidy, hclosed⟩ := h.accounted.tidy.close hasher hT hk hlive
  set closing : WriteCommand Writestream :=
    { c with finished := true, instructions := { c.instructions with isComplete := true } }
  obtain ⟨c', store', hflush, hf⟩ := flush_flushed (c := closing) later hw.writer hcommit
  obtain ⟨c'', hcommand, hfinished⟩ : ∃ c'', c.commit (env T hasher later) store =
      ((.returned true, c'', store') : Outcome × _ × _) ∧ c''.finished = true :=
    ⟨{ c' with instructions := { c'.instructions with outstream := none }, status := 200 },
      by simp only [WriteCommand.commit, closing] at hflush ⊢; simp [hflush, WriteCommand.setStatus], hf.finished⟩
  rw [hcommand]
  have hclosed' : c''.isOpen = false := by simp [WriteCommand.isOpen, hfinished]
  have hcalls : ∀ n, updates n store'.callbacks.calls = updates n store.callbacks.calls ++
      if w.name = n then [(c.instructions.digest ^^^ reader.md.digest, toUnsigned c.instructions.copies)] else [] :=
    fun n => by rw [hf.calls, updates_update, hw.name]
  have hdone := h.accounted.replace h.getElem? c'' store' ?_ (Or.inl hfinished) ?_ (fun n hn => ?_) (fun n hn => ?_)
    fun hself n hn => ?_
  · simpa using hdone
  · rw [hclosed', hf.fs]
    exact htidy
  · intro j d v hj hd hv
    obtain ⟨hlive', hname'⟩ := hv.mem_keys h.accounted hd
    rw [hf.fs]
    by_cases hsame : v.name = w.name
    · have hne : v.vstr T ≠ w.vstr T := fun heq => hj (h.accounted.tidy.distinct j i v w hlive' hlive hsame heq)
      rw [hsame, hclosed.mem_versions hT h.accounted.tidy htidy hname]
      rintro ⟨-, heq | hmem⟩
      · exact hne heq
      · exact hv.new (hsame ▸ hmem)
    · rw [h.accounted.tidy.mem_versions_congr hT htidy hname' (hclosed.others _ hname' hsame _)]
      exact hv.new
  · have howed : owed n c'' = 0 := by simp [WriteCommand.owed, hclosed']
    rw [hcalls, hf.fs, howed, hw.owed, UInt64.xor_zero, List.map_append, xorAll_append, h.accounted.balance n hn]
    by_cases hn' : w.name = n
    · subst hn'
      rw [if_pos rfl, if_pos rfl, hclosed.digest hw.new]
      simp only [List.map_cons, List.map_nil, xorAll_cons, xorAll_nil, UInt64.xor_zero]
      ac_rfl
    · rw [if_neg hn', if_neg hn', indexed_congr hT h.accounted.tidy htidy hn (hclosed.others n hn (Ne.symm hn'))]
      simp
  · obtain ⟨hfiles, hmirrors, hcounted⟩ := h.accounted.indexed n hn
    by_cases hn' : w.name = n
    · subst hn'
      refine ⟨fun v file hv => ?_, fun u hu => ?_, fun v file hv => by simp [hcalls]⟩
      · rw [hf.fs, hclosed.stored] at hv
        split_ifs at hv with _ hvw
        · exact ⟨c.instructions.copies, hw.copies, by rw [← Option.some.inj hv, hw.md]⟩
        · exact hfiles v file hv
      · rw [hcalls, if_pos rfl, List.mem_append, List.mem_singleton] at hu
        rcases hu with hu | rfl
        · exact hmirrors u hu
        · exact ⟨c.instructions.copies, hw.copies, rfl⟩
    · constructor <;> simp only [hcalls, if_neg hn', List.append_nil, hf.fs, hclosed.others n hn (Ne.symm hn')]
      exacts [hfiles, hmirrors, hcounted]
  · by_cases hn' : w.name = n
    · subst hn'
      refine fun _ => Or.inl ?_
      rw [hf.fs]
      exact closed_nonempty hself hclosed fun x hx => (h.accounted.tidy.mem_versions_iff_stored hT hname).1 hx
    · refine (h.accounted.present hself n hn).set h.getElem? c'' ?_ (fun v file hv => ⟨v, file, ?_⟩) fun _ hcname => ?_
      · rw [hcalls, if_neg hn', List.append_nil]
        exact id
      · rw [hf.fs, hclosed.others n hn (Ne.symm hn'), hv]
      · exact absurd (hw.name.trans hcname) hn'

variable (later) in
lemma Held.overflow (hT : T.Base64) (hk : KeySpace keys) (h : Held T hasher keys allowed commands i c store)
    (buff : Bytes) (overfill topoff : ℕ) :
    Held T hasher keys allowed commands i (c.overflow (env T hasher later) buff overfill topoff store).2.1
      (c.overflow (env T hasher later) buff overfill topoff store).2.2 := by
  obtain ⟨c₁, store₁, htop, h₁⟩ : ∃ c₁ store₁, (if 0 < topoff then c.append (env T hasher later)
    (buff.take topoff) store
      else (c, store)) = (c₁, store₁) ∧ Held T hasher keys allowed commands i c₁ store₁ := by
    split_ifs
    · exact ⟨_, _, rfl, h.append later hT hk _⟩
    · exact ⟨_, _, rfl, h⟩
  obtain ⟨hgood, h₂⟩ := h₁.flush later
  simp only [WriteCommand.overflow, htop, hgood, if_true]
  exact (h₂.append later hT hk ((buff.drop topoff).take overfill)).touch hT rfl rfl rfl rfl

variable (later) in
lemma Held.consume (hT : T.Base64) (hk : KeySpace keys)
    (h : Held T hasher keys allowed commands i { c with started := true } store) (buff : Bytes) :
    Held T hasher keys allowed commands i (c.consume (env T hasher later) buff store).2.1
      (c.consume (env T hasher later) buff store).2.2 := by
  unfold WriteCommand.consume
  by_cases hsize : 0x10000 < uadd c.bytesSinceLastFlush buff.length
  · simp only [if_pos hsize]
    exact h.overflow later hT hk _ _ _
  · simp only [if_neg hsize]
    exact (h.append later hT hk buff).touch hT rfl rfl rfl rfl

variable (later) in
lemma Held.proceed (hT : T.Base64) (hk : KeySpace keys)
    (h : Held T hasher keys allowed commands i { c with started := true } store) (buff : Bytes) :
    Accounted T hasher keys allowed ⟨(c.proceed (env T hasher later) buff store).2.2,
      commands.set i (c.proceed (env T hasher later) buff store).2.1⟩ := by
  by_cases hbuff : buff = []
  · by_cases hstarted : c.started = true
    · have hc : { c with started := true } = c := by rw [← hstarted]
      rw [hc] at h
      simp only [WriteCommand.proceed, if_pos hbuff, if_pos hstarted]
      exact h.commit later hT hk
    · simp only [WriteCommand.proceed, if_pos hbuff, if_neg hstarted]
      exact h.accounted
  · simp only [WriteCommand.proceed, if_neg hbuff]
    exact (h.consume later hT hk buff).accounted

end Run

section Packet

variable {s : Node θ} {i : ℕ} {c : WriteCommand Writestream}

lemma Waiting.isOpen (h : Waiting T keys c) : c.isOpen = false := by
  simp [WriteCommand.isOpen, h.started]

lemma Waiting.live_eq (h : Waiting T keys c) (hc : s.commands[i]? = some c) : live s.commands i = none := by
  simp [live, hc, h.isOpen]

lemma owed_of_not_isOpen (n : Bytes) (h : c.isOpen = false) : owed n c = 0 := by
  simp [WriteCommand.owed, h]

lemma Accounted.closed (hT : T.Base64) (h : Accounted T hasher keys allowed s) (hc : s.commands[i]? = some c)
    (hw : Waiting T keys c) (c' : WriteCommand Writestream) (hc' : c'.finished = true ∨ Waiting T keys c') :
    Accounted T hasher keys allowed ⟨s.store, s.commands.set i c'⟩ := by
  have hopen : c'.isOpen = false := by
    rcases hc' with hc' | hc'
    · simp [WriteCommand.isOpen, hc']
    · exact hc'.isOpen
  refine h.unfinished hT hc c' s.store ?_ (hc'.imp_right Or.inl) (fun _ _ _ => rfl) rfl (fun n => ?_) fun ho => ?_
  · rw [hopen, ← hw.live_eq hc]
    simpa only [Bool.false_eq_true, if_false, ← hw.live_eq hc, Function.update_eq_self] using h.tidy
  · rw [owed_of_not_isOpen n hopen, owed_of_not_isOpen n hw.isOpen]
  · simp [hw.isOpen] at ho

lemma Accounted.taken (hT : T.Base64) (h : Accounted T hasher keys allowed s) (hc : s.commands[i]? = some c)
    (hw : Waiting T keys c) (hallowed : allowed c.instructions.name c.instructions.copies) {w : Writestream}
    {fs : FileSystem} (hname : w.name = c.instructions.name)
    (hmd : w.md = { version := w.md.version, totalCopies := toUnsignedShort c.instructions.copies })
    (hnew : w.vstr T ∉ versions s.store.fs w.name true)
    (htidy : Tidy T keys fs (Function.update (live s.commands) i (some w)))
    (hstored : ∀ n ∈ keys, ∀ u, stored fs n u = stored s.store.fs n u) :
    Held T hasher keys allowed s.commands i { c with writer := some w, started := true } { s.store with fs := fs } := by
  have hkey : w.name ∈ keys := hname ▸ hw.name
  have hfinished : w.vstr T ∉ versions fs w.name false := by
    rw [h.tidy.mem_versions_congr hT htidy hkey (hstored _ hkey _)]
    exact fun hmem => hnew ((h.tidy.mem_versions_inprogress hT hkey).2 (Or.inl hmem))
  have hwriting : Writing T allowed fs { c with writer := some w, started := true } w :=
    ⟨rfl, hw.finished, rfl, hname, hw.incomplete, hfinished, hname ▸ hallowed, by rw [hmd]; rfl⟩
  refine ⟨(List.getElem?_eq_some_iff.1 hc).1, ?_, w, hwriting⟩
  refine h.unfinished hT hc _ { s.store with fs := fs } ?_ (Or.inr (Or.inr ⟨w, hwriting⟩)) hstored rfl (fun n => ?_)
    fun ho => ?_
  · rw [if_pos hwriting.isOpen]
    exact htidy
  · rw [owed_of_not_isOpen n hw.isOpen, hwriting.owed, hw.digest, ite_self]
  · simp [hw.isOpen] at ho

structure Prepared (T : TurboLib) (allowed : Bytes → ℤ → Prop) (s : Node θ) (i : ℕ) (host : Host) : Prop where
  fresh : ∀ c, s.commands[i]? = some c → c.started = false → c.instructions.version = [] →
    NewVersion T host s.store.fs c.instructions.name
  copies : ∀ c w fs, s.commands[i]? = some c → c.started = false → c.finished = false →
    FileStore.write T host s.store.fs c.instructions.name c.instructions.version
      (toUnsignedShort c.instructions.copies) = (.accepted w, fs) → allowed c.instructions.name c.instructions.copies

theorem Accounted.packet (hT : T.Base64) (hk : KeySpace keys)
    (h : Accounted T hasher keys allowed s) {host : Host} (hp : Prepared T allowed s i host) (buff : Bytes) :
    Accounted T hasher keys allowed (s.packet T hasher later i host buff) := by
  have hs : Accounted T hasher keys allowed ⟨{ s.store with host := host }, s.commands⟩ :=
    ⟨h.tidy, h.commands, h.balance, fun n hn => ⟨(h.indexed n hn).files, (h.indexed n hn).mirrors,
      (h.indexed n hn).counted⟩, h.present⟩
  simp only [Node.packet]
  cases hc : s.commands[i]? with
  | none => exact h
  | some c =>
    have hset : s.commands.set i c = s.commands := by
      obtain ⟨hi, hget⟩ := List.getElem?_eq_some_iff.1 hc
      rw [← hget, List.set_getElem_self]
    rcases h.commands i c hc with hfinished | hw | ⟨w, hw⟩
    · simp only [WriteCommand.run, hfinished, if_true, hset]
      exact hs
    · by_cases hempty : c.instructions.name = []
      · simp only [WriteCommand.run, hw.finished, hw.started, hempty, if_true, Bool.false_eq_true, if_false,
          WriteCommand.setStatus]
        exact hs.closed hT hc hw _ (Or.inl rfl)
      · rcases h.tidy.take hT hk hw.name (hw.live_eq hc) hw.version (hp.fresh c hc hw.started)
          (toUnsignedShort c.instructions.copies) with hrefused | ⟨w, fs, haccepted, hname, -, hmd, hnew, -, htidy,
          hstored, -⟩
        · simp only [WriteCommand.run, hw.finished, hw.started, hempty, Bool.false_eq_true, if_false,
            WriteCommand.setStatus, FileStore.env, hrefused]
          exact hs.closed hT hc hw _ (Or.inr ⟨rfl, rfl, hw.name, hw.version, hw.incomplete, hw.digest⟩)
        · have hrun : c.run (env T hasher later) buff { s.store with host := host } =
            { c with writer := some w }.proceed
              (env T hasher later) buff { s.store with fs := fs, host := host } := by
            simp [WriteCommand.run, hw.finished, hw.started, hempty, FileStore.env, haccepted]
          simp only [hrun]
          have hcopies := hp.copies c w fs hc hw.started hw.finished haccepted
          exact (hs.taken hT hc hw hcopies hname hmd (hname.symm ▸ hnew) htidy hstored).proceed later hT hk buff
    · have hheld : Held T hasher keys allowed s.commands i { c with started := true }
        { s.store with host := host } := by
        have hsame : { c with started := true } = c := by rw [← hw.started]
        rw [hsame]
        exact ⟨(List.getElem?_eq_some_iff.1 hc).1, hset.symm ▸ hs, w, hw⟩
      simp only [WriteCommand.run, hw.finished, hw.started, Bool.false_eq_true, if_false, if_true]
      exact hheld.proceed later hT hk buff

theorem Accounted.request (h : Accounted T hasher keys allowed s) {w : Write} (hname : w.name ∈ keys)
    (hversion : w.version = [] ∨ IsVersion T w.version) :
    Accounted T hasher keys allowed ⟨s.store, s.commands ++ [.create w]⟩ := by
  have hwaiting : Waiting T keys (.create w) := ⟨rfl, rfl, hname, hversion, rfl, rfl⟩
  have hget : ∀ (i : ℕ) c, (s.commands ++ [.create w])[i]? = some c → s.commands[i]? = some c ∨ c = .create w := by
    intro i c hc
    rw [List.getElem?_append] at hc
    split_ifs at hc
    · exact Or.inl hc
    · exact Or.inr (List.mem_singleton.1 (List.mem_of_getElem? hc))
  have hlive : live (s.commands ++ [.create w]) = live s.commands := by
    funext i
    by_cases hi : i < s.commands.length
    · simp [live, List.getElem?_append_left hi]
    · have hnone : s.commands[i]? = none := List.getElem?_eq_none (by omega)
      cases hc : (s.commands ++ [.create w])[i]? with
      | none => simp [live, hc, hnone]
      | some c =>
        obtain rfl := (hget i c hc).resolve_left (by simp [hnone])
        simp [live, hc, hnone, hwaiting.isOpen]
  refine ⟨hlive ▸ h.tidy, fun i c hc => ?_, fun n hn => ?_, h.indexed, fun hself n hn hne => ?_⟩
  · rcases hget i c hc with hc | rfl
    · exact h.commands i c hc
    · exact Or.inr (Or.inl hwaiting)
  · rw [h.balance n hn, List.map_append, xorAll_append]
    simp [owed_of_not_isOpen n hwaiting.isOpen]
  · refine (h.present hself n hn hne).imp_right ?_
    rintro ⟨i, c, hc, ho, hcname⟩
    refine ⟨i, c, ?_, ho, hcname⟩
    rw [List.getElem?_append_left (List.getElem?_eq_some_iff.1 hc).1, hc]

lemma Accounted.start (hT : T.Base64) {fs : FileSystem} (hvacant : Vacant keys fs) (host : Host) (others : θ) :
    Accounted T hasher keys allowed ⟨⟨fs, host, ⟨[], others⟩⟩, []⟩ := by
  have htidy : Tidy T keys fs fun _ => none := hvacant.tidy
  have hlive : live ([] : List (WriteCommand Writestream)) = fun _ => none := rfl
  have hnone : ∀ n ∈ keys, ∀ v, stored fs n v = none := by
    intro n hn v
    by_cases hv : IsVersion T v
    · rw [htidy.stored_eq hT hn hv, hvacant.files n hn, Option.map_none]
    · exact htidy.stored_none hT hn hv
  have hversions : ∀ n ∈ keys, versions fs n false = [] := by
    intro n hn
    refine List.eq_nil_iff_forall_not_mem.2 fun v hv => ?_
    obtain ⟨file, hfile⟩ := (htidy.mem_versions_iff_stored hT hn).1 hv
    simp [hnone n hn] at hfile
  refine ⟨hlive ▸ htidy, by simp, fun n hn => by simp [updates, FileStore.indexed, hversions n hn], fun n hn => ?_,
    fun _ n _ hne => absurd rfl hne⟩
  constructor <;> simp [hnone n hn, updates]

end Packet

end Node

end Turbopump
