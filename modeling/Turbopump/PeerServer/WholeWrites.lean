import Turbopump.PeerServer.EndMarkers

/-! Buffers that fit a packet: the writer takes them whole, as one packet, or not at all. -/

namespace Turbopump

open BufferedConnectionWriter

namespace EndMarkers

variable {σ : Type} {S : Socket σ} {w : BufferedConnectionWriter} {s : σ × List Packet}

def Added (virtid : UInt8) (buff : Bytes) (before after : List Packet) : Prop :=
  ∃ p : Packet, p.virtid = virtid ∧ p.payload = buff ∧ after = before ++ [p]

def AllOrNothing (virtid : UInt8) (buff : Bytes) (before : List Packet) (written : ℤ) (after : List Packet) : Prop :=
  (written = buff.length ∧ Added virtid buff before after) ∨ (written = 0 ∧ after = before)

lemma fill_fit (virtid : UInt8) {buff : Bytes} (hbuff : buff ≠ [])
    (hfit : w.buffer.length + buff.length ≤ w.capacity) :
    w.fill virtid buff = (w.pushBytes virtid buff, buff.length,
      decide (w.capacity ≤ w.buffer.length + buff.length)) := by
  have hpos : 0 < buff.length := List.length_pos_of_ne_nil hbuff
  by_cases hfull : w.capacity ≤ w.buffer.length + buff.length
  · have hsize : w.capacity - w.buffer.length = buff.length := by omega
    have hspace : w.buffer.length < w.capacity := by omega
    simp only [BufferedConnectionWriter.fill, hfull, hspace, hsize, List.take_length, if_true, decide_true]
  · simp only [BufferedConnectionWriter.fill, hfull, if_false, decide_false]

lemma Whole.writeLoop_fit (hle : ∀ buff s, (S.trySend buff s).1 ≤ buff.length) (h : Whole w) (virtid : UInt8)
    (blocking : Bool) (fuel : ℕ) {buff : Bytes} (hbuff : buff ≠ []) (hfit : w.buffer.length + buff.length ≤ w.capacity)
    (s : σ × List Packet) : let r := BufferedConnectionWriter.writeLoop S.recording virtid blocking (fuel + 1) w buff s
    r.1 = 0 ∧ Added virtid buff (packets w s) (packets r.2.1 r.2.2) := by
  have hpos : 0 < buff.length := List.length_pos_of_ne_nil hbuff
  obtain ⟨hpushed, p, hvirtid, hpayload, hparse⟩ := h.pushBytes virtid (by omega : buff.length ≤ w.capacity) (by omega)
  have hadded : Added virtid buff (packets w s) (packets (w.pushBytes virtid buff) s) := by
    refine ⟨p, hvirtid, hpayload, ?_⟩
    rw [packets, packets, hparse, List.append_assoc]
  simp only [BufferedConnectionWriter.writeLoop, fill_fit virtid hbuff hfit, List.drop_length, List.length_nil]
  by_cases hfull : w.capacity ≤ w.buffer.length + buff.length
  · obtain ⟨-, -, hpackets, -⟩ := hpushed.flushInternal hle blocking s
    simp only [hfull, decide_true, if_true, hpackets]
    exact ⟨trivial, hadded⟩
  · simp only [hfull, decide_false, Bool.false_eq_true, if_false, if_true]
    exact ⟨trivial, hadded⟩

lemma Whole.toInt_length (h : Whole w) {buff : Bytes} (hfit : buff.length ≤ w.capacity) :
    toInt (buff.length - 0 : ℕ) = buff.length := toInt_of_lt (by have := h.room; omega)

lemma Whole.write_fit (hle : ∀ buff s, (S.trySend buff s).1 ≤ buff.length) (h : Whole w) (virtid : UInt8)
    (blocking : Bool) {buff : Bytes} (hbuff : buff ≠ [])
    (hfit : buff.length ≤ w.capacity) (s : σ × List Packet) :
    let r := w.write S.recording virtid buff blocking s
    AllOrNothing virtid buff (packets w s) r.1 (packets r.2.1 r.2.2) := by
  by_cases hover : 0 < w.buffer.length ∧ w.capacity < w.buffer.length + buff.length
  · have hroom : w.makeRoom S.recording buff.length blocking s = w.flushInternal S.recording blocking s := if_pos hover
    obtain ⟨hflush, hcapacity, hpackets, -, hempty⟩ := h.flushInternal hle blocking s
    cases hgood : (w.flushInternal S.recording blocking s).1 with
    | false =>
      simp only [BufferedConnectionWriter.write, hroom, hgood, Bool.false_eq_true, if_false]
      exact Or.inr ⟨rfl, hpackets⟩
    | true =>
      obtain ⟨hall, hadded⟩ := hflush.writeLoop_fit hle virtid blocking buff.length hbuff
        (by rw [hempty hgood, hcapacity]; simpa using hfit) (w.flushInternal S.recording blocking s).2.2
      simp only [BufferedConnectionWriter.write, hroom, hgood, if_true, hall]
      rw [hpackets] at hadded
      exact Or.inl ⟨h.toInt_length hfit, hadded⟩
  · have hroom : w.makeRoom S.recording buff.length blocking s = (true, w, s) := if_neg hover
    have hspace : w.buffer.length + buff.length ≤ w.capacity := by omega
    obtain ⟨hall, hadded⟩ := h.writeLoop_fit hle virtid blocking buff.length hbuff hspace s
    simp only [BufferedConnectionWriter.write, hroom, if_true, hall]
    exact Or.inl ⟨h.toInt_length hfit, hadded⟩

theorem write_all_or_nothing (hle : ∀ buff s, (S.trySend buff s).1 ≤ buff.length) {packetsize : ℕ}
    (hmin : 3 ≤ packetsize) (hmax : packetsize ≤ 65537) (s₀ : σ × List Packet) (calls : List Call) (virtid : UInt8)
    (blocking : Bool) {buff : Bytes} (hbuff : buff ≠ [])
    (hfit : buff.length ≤ (run S.recording packetsize s₀ calls).1.capacity) :
    let c := run S.recording packetsize s₀ calls
    let r := c.1.write S.recording virtid buff blocking c.2
    AllOrNothing virtid buff (packets c.1 c.2) r.1 (packets r.2.1 r.2.2) :=
  (Whole.run hle hmin hmax s₀ calls).write_fit hle virtid blocking hbuff hfit _

def slowSocket : Socket Unit := ⟨fun buff _ => (min 4 buff.length, ()), fun _ _ => (true, ())⟩

theorem write_all_or_nothing_example :
    let c := run slowSocket.recording 9 ((), []) [.write 33 [1, 2, 3] false]
    let r := c.1.write slowSocket.recording 34 [4, 5, 6, 7] false c.2
    AllOrNothing 34 [4, 5, 6, 7] (packets c.1 c.2) r.1 (packets r.2.1 r.2.2) :=
  write_all_or_nothing (fun _ _ => by simp [slowSocket]) (by decide) (by decide) _ _ 34 false (by decide) (by decide)

end EndMarkers

end Turbopump
