import Turbopump.PeerServer.Packet

/-! The dispatcher of one peer's packets to the commands of its streams. -/

namespace Turbopump

/-- What the dispatcher did, in order: it parsed a packet as a command header, created a command, ran
a command on a payload. Commands are numbered as they are created. -/
inductive Event where
  | parsed (payload : Bytes)
  | created (command : ℕ)
  | ran (command : ℕ) (payload : Bytes)
  deriving DecidableEq

structure CommandCenter (χ γ : Type) where
  command : UInt8 → Bytes → χ → Option γ × χ
  finished : γ → Bool
  run : γ → Bytes → χ → γ × χ

/-- `commands` is `_commands`; a shared pointer to a command is its place in `heap`. -/
structure PeerCommandRunner (χ γ : Type) where
  commands : UInt8 → Option ℕ
  heap : List γ
  center : χ
  trace : List Event

namespace PeerCommandRunner

variable {χ γ : Type} (K : CommandCenter χ γ)

def create (center : χ) : PeerCommandRunner χ γ := ⟨fun _ => none, [], center, []⟩

def runCommand (r : PeerCommandRunner χ γ) (command : ℕ) (payload : Bytes) : PeerCommandRunner χ γ :=
  match r.heap[command]? with
  | none => r
  | some cmd =>
    let (cmd, center) := K.run cmd payload r.center
    { r with heap := r.heap.set command cmd, center := center, trace := r.trace ++ [Event.ran command payload] }

def unfinished (r : PeerCommandRunner χ γ) (virtid : UInt8) : Option ℕ :=
  -- The unfinished command registered for a stream.
  match r.commands virtid with
  | none => none
  | some command => match r.heap[command]? with
    | none => none
    | some cmd => if K.finished cmd then none else some command

/-- A packet that no unfinished command waits for: its payload is taken as a command header, and what
follows the header is the new command's first buffer. -/
def find (r : PeerCommandRunner χ γ) (p : Packet) : PeerCommandRunner χ γ :=
  let r := { r with trace := r.trace ++ [Event.parsed p.payload] }
  match getNext p.payload with
  | (none, _) => r
  | (some header, rest) => match K.command header.virtid header.payload r.center with
    | (none, center) => { r with center := center }
    | (some cmd, center) =>
      let command := r.heap.length
      let r := { r with
        heap := r.heap ++ [cmd]
        center := center
        trace := r.trace ++ [Event.created command]
        commands := if K.finished cmd then r.commands else Function.update r.commands p.virtid (some command) }
      r.runCommand K command rest

def handle (r : PeerCommandRunner χ γ) (p : Packet) : PeerCommandRunner χ γ :=
  match r.unfinished K p.virtid with
  | some command => r.runCommand K command p.payload
  | none => r.find K p

def parseAndRun (r : PeerCommandRunner χ γ) (buffer : Bytes) : PeerCommandRunner χ γ :=
  (parsePackets buffer).foldl (handle K) r

lemma foldl_parseAndRun (r : PeerCommandRunner χ γ) (buffers : List Bytes) :
    buffers.foldl (parseAndRun K) r = (buffers.flatMap parsePackets).foldl (handle K) r := by
  induction buffers generalizing r with
  | nil => rfl
  | cons b bs ih => rw [List.foldl_cons, ih, List.flatMap_cons, List.foldl_append, parseAndRun]

section Steps

variable {K} {r : PeerCommandRunner χ γ}

lemma runCommand_trace (command : ℕ) (payload : Bytes) :
    r.trace <+: (r.runCommand K command payload).trace := by
  simp only [runCommand]
  split
  · exact List.prefix_rfl
  · exact List.prefix_append _ _

lemma handle_trace (p : Packet) : r.trace <+: (r.handle K p).trace := by
  simp only [handle]
  split
  · exact runCommand_trace _ _
  · have hfirst : r.trace <+: r.trace ++ [Event.parsed p.payload] := List.prefix_append _ _
    simp only [find]
    split
    · exact hfirst
    · split
      · exact hfirst
      · refine List.IsPrefix.trans ?_ (runCommand_trace _ _)
        exact hfirst.trans (List.prefix_append _ _)

lemma foldl_handle_trace (ps : List Packet) : r.trace <+: (ps.foldl (handle K) r).trace := by
  induction ps generalizing r with
  | nil => exact List.prefix_rfl
  | cons p ps ih => exact (handle_trace p).trans ih

lemma handle_parsed (p : Packet) (h : r.unfinished K p.virtid = none) :
    r.trace ++ [Event.parsed p.payload] <+: (r.handle K p).trace := by
  simp only [handle, h, find]
  split
  · exact List.prefix_rfl
  · split
    · exact List.prefix_rfl
    · refine List.IsPrefix.trans ?_ (runCommand_trace _ _)
      exact List.prefix_append _ _

lemma handle_created {p header : Packet} {rest : Bytes} {cmd : γ} {center : χ}
    (h : r.unfinished K p.virtid = none) (hnext : getNext p.payload = (some header, rest))
    (hcommand : K.command header.virtid header.payload r.center = (some cmd, center))
    (hfinished : K.finished cmd = false) :
    r.handle K p = runCommand K {
      commands := Function.update r.commands p.virtid (some r.heap.length)
      heap := r.heap ++ [cmd]
      center := center
      trace := r.trace ++ [Event.parsed p.payload] ++ [Event.created r.heap.length] } r.heap.length rest := by
  simp [handle, h, find, hnext, hcommand, hfinished]

end Steps

end PeerCommandRunner

end Turbopump
