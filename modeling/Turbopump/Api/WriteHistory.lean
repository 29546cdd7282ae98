import Turbopump.Deskew.SkewCorrector

/-! Write commands and drops that run against one store, in any order. -/

namespace Turbopump

structure Node (θ : Type) where
  store : StoreState (Callbacks θ)
  commands : List (WriteCommand Writestream)

namespace Node

inductive Action where
  | request (w : Write)
  | packet (i : ℕ) (host : Host) (buff : Bytes)
  | drop (name : Bytes)

variable {θ : Type} (T : TurboLib) (hasher : Bytes → Bytes) (later : LaterCallbacks θ)

abbrev env : WriteEnv (StoreState (Callbacks θ)) Writestream Readstream :=
  FileStore.env T hasher (whenWriteFinishes later)

def packet (s : Node θ) (i : ℕ) (host : Host) (buff : Bytes) : Node θ := match s.commands[i]? with
  | none => s
  | some c =>
    let (_, c, store) := c.run (env T hasher later) buff { s.store with host := host }
    ⟨store, s.commands.set i c⟩

def step (s : Node θ) : Action → Node θ
  | .request w => { s with commands := s.commands ++ [.create w] }
  | .packet i host buff => s.packet T hasher later i host buff
  | .drop name => { s with store := (SkewCorrector.dropKey T s.store name).2 }

def run (s : Node θ) (actions : List Action) : Node θ := actions.foldl (step T hasher later) s

def Along (P : Node θ → Action → Prop) (s : Node θ) : List Action → Prop
  | [] => True
  | a :: actions => P s a ∧ Along P (s.step T hasher later a) actions

def values (n : Bytes) (calls : List IndexCall) : List UInt64 :=
  calls.filterMap fun call => match call with
    | .update name value _ => if name = n then some value else none
    | .remove _ _ => none

/-- The values that a key has been updated with since it was last removed, and the numbers of mirrors. -/
def updates (n : Bytes) (calls : List IndexCall) : List (UInt64 × ℕ) :=
  calls.foldl (fun us call => match call with
    | .update name value mirrors => if name = n then us ++ [(value, mirrors)] else us
    | .remove name _ => if name = n then [] else us) []

end Node

namespace WriteCommand

def isOpen {ω : Type} (c : WriteCommand ω) : Bool := c.started && ! c.finished

def owed {ω : Type} (n : Bytes) (c : WriteCommand ω) : UInt64 :=
  if c.isOpen ∧ c.instructions.name = n then c.instructions.digest else 0

end WriteCommand

namespace Node

open WriteCommand

variable {θ : Type} {T : TurboLib} {hasher : Bytes → Bytes} {later : LaterCallbacks θ}

/-- What a command does to itself and to the index: it keeps its key and copies, and only updates that key. -/
structure Continues (c : WriteCommand Writestream) (s : StoreState (Callbacks θ)) (c' : WriteCommand Writestream)
    (s' : StoreState (Callbacks θ)) : Prop where
  name : c'.instructions.name = c.instructions.name
  copies : c'.instructions.copies = c.instructions.copies
  calls : ∃ vs : List UInt64, s'.callbacks.calls = s.callbacks.calls ++
    vs.map fun value => .update c.instructions.name value (toUnsigned c.instructions.copies)

section Continues

variable {s s' : StoreState (Callbacks θ)} (c : WriteCommand Writestream) {c' : WriteCommand Writestream} (buff : Bytes)

variable {c} in
lemma Continues.touch (hname : c'.instructions.name = c.instructions.name)
    (hcopies : c'.instructions.copies = c.instructions.copies) (hcalls : s'.callbacks = s.callbacks) :
    Continues c s c' s' :=
  ⟨hname, hcopies, [], by rw [hcalls, List.map_nil, List.append_nil]⟩

variable {c} in
lemma Continues.trans {c'' : WriteCommand Writestream} {s'' : StoreState (Callbacks θ)} (h : Continues c s c' s')
    (h' : Continues c' s' c'' s'') : Continues c s c'' s'' := by
  obtain ⟨vs, hvs⟩ := h.calls
  obtain ⟨vs', hvs'⟩ := h'.calls
  refine ⟨h'.name.trans h.name, h'.copies.trans h.copies, vs ++ vs', ?_⟩
  rw [hvs', hvs, h.name, h.copies, List.map_append, List.append_assoc]

lemma continues_append : Continues c s (c.append (env T hasher later) buff s).1
    (c.append (env T hasher later) buff s).2 := by
  rcases hw : c.writer with _ | w
  · simp only [WriteCommand.append, hw]
    exact .touch rfl rfl rfl
  · simp only [WriteCommand.append, hw, FileStore.env]
    exact .touch rfl rfl rfl

lemma continues_flush : Continues c s (c.flush (env T hasher later) s).2.1 (c.flush (env T hasher later) s).2.2 := by
  rcases hw : c.writer with _ | w
  · simp only [WriteCommand.flush, hw]
    exact .touch rfl rfl rfl
  · rcases hc : w.commit T hasher s.fs c.instructions.isComplete with ⟨_ | reader, w', fs⟩
    · simp only [WriteCommand.flush, hw, FileStore.env, hc]
      exact .touch rfl rfl rfl
    · simp only [WriteCommand.flush, hw, FileStore.env, hc, whenWriteFinishes]
      refine ⟨?_, ?_, [c.instructions.digest ^^^ reader.md.digest], congrArg (s.callbacks.calls ++ [·]) ?_⟩
      · split_ifs <;> rfl
      · split_ifs <;> rfl
      · split_ifs <;> rfl

lemma continues_commit : Continues c s (c.commit (env T hasher later) s).2.1 (c.commit (env T hasher later) s).2.2 := by
  have hclosing : Continues c s { c with finished := true, instructions := { c.instructions with isComplete := true } }
      s := .touch rfl rfl rfl
  have hflush := hclosing.trans (@continues_flush θ T hasher later s _)
  simp only [WriteCommand.commit, setStatus]
  split_ifs
  · exact hflush.trans (.touch rfl rfl rfl)
  · exact hflush.trans (.touch rfl rfl rfl)

lemma continues_overflow (overfill topoff : ℕ) :
    Continues c s (c.overflow (env T hasher later) buff overfill topoff s).2.1
      (c.overflow (env T hasher later) buff overfill topoff s).2.2 := by
  have htop : Continues c s
      (if 0 < topoff then c.append (env T hasher later) (buff.take topoff) s else (c, s)).1
      (if 0 < topoff then c.append (env T hasher later) (buff.take topoff) s else (c, s)).2 := by
    split_ifs
    · exact continues_append c _
    · exact .touch rfl rfl rfl
  simp only [WriteCommand.overflow]
  generalize (if 0 < topoff then c.append (env T hasher later) (buff.take topoff) s else (c, s)) = top at htop ⊢
  have hflush := htop.trans (@continues_flush θ T hasher later top.2 top.1)
  split_ifs
  · exact (hflush.trans (continues_append _ _)).trans (.touch rfl rfl rfl)
  · exact hflush

lemma continues_proceed : Continues c s (c.proceed (env T hasher later) buff s).2.1
    (c.proceed (env T hasher later) buff s).2.2 := by
  have hstarted : Continues c s { c with started := true } s := .touch rfl rfl rfl
  simp only [WriteCommand.proceed, WriteCommand.consume]
  split_ifs
  · exact continues_commit c
  · exact hstarted
  · exact hstarted.trans (continues_overflow _ _ _ _)
  · exact (hstarted.trans (continues_append _ _)).trans (.touch rfl rfl rfl)

lemma continues_run : Continues c s (c.run (env T hasher later) buff s).2.1
    (c.run (env T hasher later) buff s).2.2 := by
  simp only [WriteCommand.run, setStatus]
  split_ifs
  · exact .touch rfl rfl rfl
  · exact continues_proceed c buff
  · exact .touch rfl rfl rfl
  · split
    case h_1 w s' hstore =>
      have hcalls : s'.callbacks = s.callbacks := (congrArg (fun answer => answer.2.callbacks) hstore).symm
      have hopened : Continues c s { c with writer := some w } s' := .touch rfl rfl hcalls
      exact hopened.trans (continues_proceed _ buff)
    case h_2 s' hstore =>
      exact .touch rfl rfl (congrArg (fun answer => answer.2.callbacks) hstore).symm
    case h_3 s' hstore =>
      exact .touch rfl rfl (congrArg (fun answer => answer.2.callbacks) hstore).symm

end Continues

end Node

end Turbopump
