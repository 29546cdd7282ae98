import Turbopump.PeerServer.Packet

/-! The writer that packs the streams of one connection into datagrams. -/

namespace Turbopump

structure Socket (σ : Type) where
  trySend : Bytes → σ → ℤ × σ
  send : Bytes → σ → Bool × σ

structure BufferedConnectionWriter where
  buffer : Bytes
  capacity : ℕ

namespace BufferedConnectionWriter

def create (packetsize : ℕ) : BufferedConnectionWriter := ⟨[], toUnsigned (packetsize - 3)⟩

lemma create_capacity {packetsize : ℕ} (hmin : 3 ≤ packetsize) (hmax : packetsize ≤ 65537) :
    (create packetsize).capacity = packetsize - 3 := by
  simp only [create, toUnsigned]
  omega

def pushBytes (w : BufferedConnectionWriter) (virtid : UInt8) (buff : Bytes) :
    BufferedConnectionWriter :=
  { w with buffer := w.buffer ++ htons (buff.length + 1) ++ [virtid] ++ buff }

/-- The loop of `findFirstTruncatedPacket`, which reads lengths past `size` when the header is cut. -/
def truncationFrom (buff : Bytes) (size : ℕ) : ℕ → ℕ → ℕ
  | 0, _ => size
  | fuel + 1, i =>
    if i < size then
      let packetLen := ntohs (buff.getD i 0) (buff.getD (i + 1) 0)
      if size < packetLen + i + 2 then i else truncationFrom buff size fuel (i + (2 + packetLen))
    else size

def findFirstTruncatedPacket (buff : Bytes) (size : ℕ) : ℕ := truncationFrom buff size size 0

variable {σ : Type} (S : Socket σ)

def flushInternal (w : BufferedConnectionWriter) (blocking : Bool) (s : σ) :
    Bool × BufferedConnectionWriter × σ :=
  if blocking then
    let (good, s') := S.send w.buffer s
    (good, { w with buffer := [] }, s')
  else
    let (res, s') := S.trySend w.buffer s
    if res = w.buffer.length then (true, { w with buffer := [] }, s')
    else if 0 < res then
      (false, { w with buffer := w.buffer.drop (findFirstTruncatedPacket w.buffer res.toNat) }, s')
    else (false, w, s')

/-- The body of the loop in `write` up to its flush: the buffer filled, how far the caller's data
advances, and whether the flush is due. -/
def fill (w : BufferedConnectionWriter) (virtid : UInt8) (rest : Bytes) :
    BufferedConnectionWriter × ℕ × Bool :=
  let packetSize := w.buffer.length + rest.length
  if w.capacity ≤ packetSize then
    if w.buffer.length < w.capacity then
      let packetSize := w.capacity - w.buffer.length
      (w.pushBytes virtid (rest.take packetSize), packetSize, true)
    else (w, packetSize, true)
  else (w.pushBytes virtid rest, rest.length, false)

def writeLoop (virtid : UInt8) (blocking : Bool) :
    ℕ → BufferedConnectionWriter → Bytes → σ → ℕ × BufferedConnectionWriter × σ
  -- The loop of `write`; the number is what remains of the caller's data.
  | 0, w, rest, s => (rest.length, w, s)
  | fuel + 1, w, rest, s =>
    let (w, packetSize, full) := w.fill virtid rest
    let (good, w, s) := if full then w.flushInternal S blocking s else (true, w, s)
    let rest := rest.drop packetSize
    if rest.length = 0 then (0, w, s)
    else if good then writeLoop virtid blocking fuel w rest s
    else (rest.length, w, s)

def makeRoom (w : BufferedConnectionWriter) (length : ℕ) (blocking : Bool) (s : σ) :
    Bool × BufferedConnectionWriter × σ :=
  -- The flush that `write` makes before its loop when the data does not fit behind the buffer.
  if 0 < w.buffer.length ∧ w.capacity < w.buffer.length + length then w.flushInternal S blocking s
  else (true, w, s)

def write (w : BufferedConnectionWriter) (virtid : UInt8) (buff : Bytes) (blocking : Bool) (s : σ) :
    ℤ × BufferedConnectionWriter × σ :=
  let (good, w, s) := w.makeRoom S buff.length blocking s
  if good then
    let (remaining, w, s) := writeLoop S virtid blocking (buff.length + 1) w buff s
    (toInt (buff.length - remaining : ℕ), w, s)
  else (0, w, s)

def flush (w : BufferedConnectionWriter) (blocking : Bool) (s : σ) :
    Bool × BufferedConnectionWriter × σ :=
  w.flushInternal S blocking s

end BufferedConnectionWriter

end Turbopump
