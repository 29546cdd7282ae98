import Turbopump.Basic

/-! The write command: a request, then buffers that are appended to the store's writer, flushed every
64 KiB, and committed by an empty buffer. -/

namespace Turbopump

structure Write where
  -- The request; `mirror` and `copies` are C++ `short`s.
  name : Bytes
  version : Bytes := []
  mirror : ℤ := 0
  copies : ℤ := 3
  offset : ℕ := 0
  source : Bytes := []
  deriving DecidableEq

structure WriteInstructions extends Write where
  outstream : Option ℕ := none
  isComplete : Bool := false
  digest : UInt64 := 0
  deriving DecidableEq

inductive StoreAnswer (ω : Type) where
  | accepted (writer : ω)
  | refused
  | threw
  deriving DecidableEq

/-- What a write command runs against: the store, its writer, the reader that a commit returns, and
the callback. -/
structure WriteEnv (σ ω ρ : Type) where
  store : Write → σ → StoreAnswer ω × σ
  write : ω → Bytes → σ → ω × σ
  commit : ω → Bool → σ → Option ρ × ω × σ
  position : ω → Option ℕ
  version : ρ → Bytes
  digest : ρ → UInt64
  onCommit : WriteInstructions → ρ → σ → WriteInstructions × σ

structure WriteCommand (ω : Type) where
  started : Bool := false
  finished : Bool := false
  bytesSinceLastFlush : ℕ := 0
  instructions : WriteInstructions
  writer : Option ω := none
  status : ℕ := 0

inductive Outcome where
  | returned (result : Bool)
  | threw
  deriving DecidableEq

namespace WriteCommand

variable {σ ω ρ : Type} (E : WriteEnv σ ω ρ)

def create (request : Write) : WriteCommand ω := { instructions := { toWrite := request } }

def setStatus (c : WriteCommand ω) (code : ℕ) : Outcome × WriteCommand ω :=
  (.returned (code < 400), { c with status := code })

def append (c : WriteCommand ω) (buff : Bytes) (s : σ) : WriteCommand ω × σ :=
  -- Only called with a writer: `started` is set after the store accepted.
  match c.writer with
  | none => (c, s)
  | some w =>
    let (w, s) := E.write w buff s
    ({ c with writer := some w }, s)

def flush (c : WriteCommand ω) (s : σ) : Bool × WriteCommand ω × σ := match c.writer with
  | none => (false, c, s)
  | some w => match E.commit w c.instructions.isComplete s with
    | (none, w, s) => (false, { c with writer := some w }, s)
    | (some reader, w, s) =>
      let params := if c.instructions.version = [] then
        { c.instructions with version := E.version reader } else c.instructions
      let (params, s) := E.onCommit params reader s
      let params := { params with digest := E.digest reader, offset := (E.position w).getD params.offset }
      (true, { c with instructions := params, writer := some w, bytesSinceLastFlush := 0 }, s)

def commit (c : WriteCommand ω) (s : σ) : Outcome × WriteCommand ω × σ :=
  let c := { c with finished := true, instructions := { c.instructions with isComplete := true } }
  let (good, c, s) := c.flush E s
  if good then
    let (res, c) := { c with instructions := { c.instructions with outstream := none } }.setStatus 200
    (res, c, s)
  else
    let (res, c) := c.setStatus 500
    (res, c, s)

def overflow (c : WriteCommand ω) (buff : Bytes) (overfill topoff : ℕ) (s : σ) :
    Outcome × WriteCommand ω × σ :=
  let (c, s) := if 0 < topoff then c.append E (buff.take topoff) s else (c, s)
  let (good, c, s) := c.flush E s
  if good then
    let (c, s) := c.append E ((buff.drop topoff).take overfill) s
    (.returned true, { c with bytesSinceLastFlush := uadd c.bytesSinceLastFlush overfill }, s)
  else (.returned false, c, s)

def consume (c : WriteCommand ω) (buff : Bytes) (s : σ) : Outcome × WriteCommand ω × σ :=
  let c := { c with started := true }
  let nextSize := uadd c.bytesSinceLastFlush buff.length
  if 0x10000 < nextSize then
    let overfill := usub nextSize 0x10000
    c.overflow E buff overfill (usub buff.length overfill) s
  else
    let (c, s) := c.append E buff s
    (.returned true, { c with bytesSinceLastFlush := nextSize }, s)

def proceed (c : WriteCommand ω) (buff : Bytes) (s : σ) : Outcome × WriteCommand ω × σ :=
  if buff = [] then
    if c.started then c.commit E s else (.returned true, { c with started := true }, s)
  else c.consume E buff s

def run (c : WriteCommand ω) (buff : Bytes) (s : σ) : Outcome × WriteCommand ω × σ :=
  if c.finished then (.returned false, c, s)
  else if c.started then c.proceed E buff s
  else if c.instructions.name = [] then
    let (res, c) := { c with finished := true }.setStatus 400
    (res, c, s)
  else match E.store c.instructions.toWrite s with
    | (.accepted w, s) => { c with writer := some w }.proceed E buff s
    | (.refused, s) =>
      let (res, c) := { c with writer := none }.setStatus 500
      (res, c, s)
    | (.threw, s) => (.threw, c, s)

section Flags

variable {E} (c : WriteCommand ω) (buff : Bytes) (s : σ)

@[simp] lemma append_flags : (c.append E buff s).1.started = c.started ∧
    (c.append E buff s).1.finished = c.finished := by
  rcases hw : c.writer with _ | w <;> simp [append, hw]

@[simp] lemma flush_flags : (c.flush E s).2.1.started = c.started ∧
    (c.flush E s).2.1.finished = c.finished := by
  rcases hw : c.writer with _ | w
  · simp [flush, hw]
  · rcases hc : E.commit w c.instructions.isComplete s with ⟨_ | r, w', s'⟩ <;> simp [flush, hw, hc]

@[simp] lemma commit_finished : (c.commit E s).2.1.finished = true := by
  simp only [commit, setStatus]
  split_ifs <;> simp

lemma overflow_flags (overfill topoff : ℕ) :
    (c.overflow E buff overfill topoff s).2.1.started = c.started ∧
    (c.overflow E buff overfill topoff s).2.1.finished = c.finished := by
  simp only [overflow]
  split_ifs <;> simp

lemma consume_flags : (c.consume E buff s).2.1.started = true ∧
    (c.consume E buff s).2.1.finished = c.finished := by
  unfold consume
  by_cases h : 0x10000 < uadd c.bytesSinceLastFlush buff.length
  · simp only [if_pos h]
    exact overflow_flags _ _ _ _ _
  · simp only [if_neg h]
    exact append_flags _ _ _

lemma proceed_first (hf : c.finished = false) (hs : c.started = false) :
    (c.proceed E buff s).2.1.started = true ∧ (c.proceed E buff s).2.1.finished = false := by
  by_cases hb : buff = []
  · simp [proceed, hb, hs, hf]
  · have := consume_flags (E := E) c buff s
    simp [proceed, hb, this, hf]

lemma run_accepted {w : ω} {s' : σ} (hf : c.finished = false) (hs : c.started = false)
    (hn : c.instructions.name ≠ []) (hw : E.store c.instructions.toWrite s = (.accepted w, s')) :
    (c.run E buff s).2.1.started = true ∧ (c.run E buff s).2.1.finished = false := by
  have := proceed_first (E := E) { c with writer := some w } buff s' hf hs
  simpa [run, hf, hs, hn, hw] using this

lemma run_started_data (hf : c.finished = false) (hs : c.started = true) (hb : buff ≠ []) :
    (c.run E buff s).2.1.started = true ∧ (c.run E buff s).2.1.finished = false := by
  have := consume_flags (E := E) c buff s
  simp [run, hf, hs, proceed, hb, this]

lemma run_started_end (hf : c.finished = false) (hs : c.started = true) :
    (c.run E [] s).2.1.finished = true := by
  simp [run, hf, hs, proceed]

end Flags

end WriteCommand

end Turbopump
