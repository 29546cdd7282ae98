import Turbopump.Api.WriteCommand
import Turbopump.Lib.Runs
import Turbopump.PeerServer.Packet

/-! Mirroring a write: the header, the file's data and the end go out as packets that the connection may
refuse, and the background goes on from where a refusal stopped the session. -/

namespace Turbopump

structure FileReader where
  contents : Bytes
  position : ℕ := 0

structure SocketWriter where
  offered : ℕ := 0
  taken : List Bytes := []

structure ConnectionWriteStream where
  writer : SocketWriter := {}
  blocking : Bool := false
  full : Bool := false
  background : Bool := false

section Streams

variable (takes : ℕ → Bool) (capacity : ℕ)

def SocketWriter.send (buff : Bytes) (w : SocketWriter) : ℕ × SocketWriter :=
  -- `send` and `try_send`: the packet is taken whole or refused, and what is reported as taken is sent.
  if takes w.offered then (buff.length, ⟨w.offered + 1, w.taken ++ [buff]⟩) else (0, ⟨w.offered + 1, w.taken⟩)

def ConnectionWriteStream.write (buff : Bytes) (conn : ConnectionWriteStream) : ℕ × ConnectionWriteStream :=
  let (sent, writer) := conn.writer.send takes buff
  if conn.blocking then (sent, { conn with writer := writer })
  else (sent, { conn with writer := writer, full := decide (sent ≠ buff.length) })

def FileReader.setPosition (pos : ℕ) (r : FileReader) : Option FileReader :=
  -- `lseek64` takes a signed offset.
  if pos < 2 ^ 63 then some { r with position := pos } else none

/-- The file position moves on even when the sink refuses. -/
def FileReader.stream (r : FileReader) (sink : ConnectionWriteStream) :
    ℕ × FileReader × ConnectionWriteStream :=
  let buff := (r.contents.drop r.position).take capacity
  if buff.length = 0 then (0, r, sink)
  else
    let (wrote, sink) := sink.write takes buff
    (wrote, { r with position := r.position + buff.length }, sink)

end Streams

namespace WriteSupervisor

structure Transfer where
  conn : ConnectionWriteStream
  transfers : List WriteInstructions := []

section Store

variable (takes : ℕ → Bool) (capacity : ℕ)

/-- The loop of `store`; the number is `bytesWrit` before it is cut to an `int`. -/
def streamLoop : ℕ → FileReader → ConnectionWriteStream → ℕ × ConnectionWriteStream
  | 0, _, conn => (0, conn)
  | fuel + 1, contents, conn =>
    let (wrote, contents, conn) := contents.stream takes capacity conn
    if 0 < wrote then
      let (bytesWrit, conn) := streamLoop fuel contents conn
      (wrote + bytesWrit, conn)
    else (0, conn)

def rewrite (write : WriteInstructions) (bytesWrit : ℕ) : WriteInstructions :=
  { write with isComplete := true, offset := ((write.offset + toInt bytesWrit) % 2 ^ 64).toNat }

def store (write : WriteInstructions) (contents : FileReader) (background : Bool) (s : Transfer) :
    Bool × Transfer :=
  if s.conn.background ∧ !background then (false, s)
  else match if 0 < write.offset then contents.setPosition write.offset else some contents with
    | none => (false, s)
    | some contents =>
      let (bytesWrit, conn) := streamLoop takes capacity (contents.contents.length + 1) contents s.conn
      if conn.full then
        (false, ⟨{ conn with background := true }, s.transfers ++ [rewrite write bytesWrit]⟩)
      -- the flush that follows the empty packet offers no packet of its own
      else if write.isComplete then (true, { s with conn := (conn.write takes []).2 })
      else (true, { s with conn := conn })

def resume (reader : Option FileReader) (s : Transfer) : Bool × Transfer :=
  match s.transfers with
  | [] => (true, s)
  | write :: transfers => match reader with
    | none => (true, { s with transfers := transfers })
    | some reader => store takes capacity write reader true { s with transfers := transfers }

def reqHeader (pack : Write → Bytes) (request : Write) : Bytes := package 100 (pack request)

def openStream (header : Bytes) (blocking : Bool) : ConnectionWriteStream :=
  (({ blocking := blocking } : ConnectionWriteStream).write takes header).2

end Store

end WriteSupervisor

end Turbopump
