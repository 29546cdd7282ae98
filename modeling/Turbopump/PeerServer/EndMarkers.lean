import Turbopump.Lib.Runs
import Turbopump.PeerServer.Delivery

/-! The empty packet that ends a write: whether a writer that is asked for it puts it into its buffer. -/

namespace Turbopump

open BufferedConnectionWriter

variable {σ : Type}

def Socket.recording (S : Socket σ) : Socket (σ × List Packet) where
  trySend buff s :=
    let (res, s') := S.trySend buff s.1
    (res, s', s.2 ++ parsePackets (buff.take res.toNat))
  send buff s :=
    let (good, s') := S.send buff s.1
    (good, s', s.2 ++ parsePackets buff)

lemma Socket.recording_trySend (S : Socket σ) (buff : Bytes) (s : σ × List Packet) :
    S.recording.trySend buff s = ((S.trySend buff s.1).1, (S.trySend buff s.1).2,
      s.2 ++ parsePackets (buff.take (S.trySend buff s.1).1.toNat)) := rfl

lemma Socket.recording_send (S : Socket σ) (buff : Bytes) (s : σ × List Packet) :
    S.recording.send buff s = ((S.send buff s.1).1, (S.send buff s.1).2, s.2 ++ parsePackets buff) := rfl

namespace EndMarkers

inductive Call where
  | write (virtid : UInt8) (buff : Bytes) (blocking : Bool)
  | flush (blocking : Bool)
  deriving DecidableEq

def call (S : Socket σ) : BufferedConnectionWriter × σ → Call → BufferedConnectionWriter × σ
  | (w, s), .write virtid buff blocking => (w.write S virtid buff blocking s).2
  | (w, s), .flush blocking => (w.flush S blocking s).2

def run (S : Socket σ) (packetsize : ℕ) (s : σ) (calls : List Call) : BufferedConnectionWriter × σ :=
  calls.foldl (call S) (create packetsize, s)

def Takes (S : Socket σ) (w : BufferedConnectionWriter) (blocking : Bool) (s : σ) : Prop :=
  if blocking then (S.send w.buffer s).1 = true else (S.trySend w.buffer s).1 = w.buffer.length

def packets (w : BufferedConnectionWriter) (s : σ × List Packet) : List Packet := s.2 ++ parsePackets w.buffer

structure Whole (w : BufferedConnectionWriter) : Prop where
  room : w.capacity ≤ 65534
  none : w.capacity = 0 → w.buffer = []
  whole : ∃ ps, w.buffer = packetFraming.encodeAll ps ∧ ∀ p ∈ ps, p.payload.length ≤ 65534

variable {S : Socket σ} {w : BufferedConnectionWriter} {s : σ × List Packet}

lemma Whole.create {packetsize : ℕ} (hmin : 3 ≤ packetsize) (hmax : packetsize ≤ 65537) :
    Whole (create packetsize) where
  room := by
    rw [create_capacity hmin hmax]
    omega
  none _ := rfl
  whole := ⟨[], rfl, by simp⟩

lemma Whole.pushBytes (h : Whole w) (virtid : UInt8) {buff : Bytes} (hb : buff.length ≤ w.capacity)
    (hone : w.capacity ≠ 0) : Whole (w.pushBytes virtid buff) ∧
    ∃ p : Packet, p.virtid = virtid ∧ p.payload = buff ∧
      parsePackets (w.pushBytes virtid buff).buffer = parsePackets w.buffer ++ [p] := by
  obtain ⟨hroom, hnone, ps, hbuf, hsmall⟩ := h
  have hpush : (w.pushBytes virtid buff).buffer = packetFraming.encodeAll (ps ++ [⟨virtid, buff, by omega⟩]) := by
    simp [BufferedConnectionWriter.pushBytes, hbuf, Packet.encode, package]
  refine ⟨⟨hroom, fun hzero => absurd hzero hone, _, hpush, ?_⟩, ⟨virtid, buff, by omega⟩, rfl, rfl, ?_⟩
  · intro p hp
    rcases List.mem_append.1 hp with hp | hp
    · exact hsmall p hp
    · obtain rfl := List.mem_singleton.1 hp
      exact hb.trans hroom
  · rw [hpush, hbuf, parsePackets, parsePackets, Framing.decodeAll_encodeAll, Framing.decodeAll_encodeAll]

lemma Whole.flushInternal (hle : ∀ buff s, (S.trySend buff s).1 ≤ buff.length) (h : Whole w) (blocking : Bool)
    (s : σ × List Packet) : let r := w.flushInternal S.recording blocking s
    Whole r.2.1 ∧ r.2.1.capacity = w.capacity ∧ packets r.2.1 r.2.2 = packets w s ∧
    (r.1 = true ↔ Takes S w blocking s.1) ∧ (r.1 = true → r.2.1.buffer = []) := by
  obtain ⟨hroom, hnone, ps, hbuf, hsmall⟩ := h
  have hempty : ∀ c, c ≤ 65534 → Whole ⟨[], c⟩ := fun c hc => ⟨hc, fun _ => rfl, [], rfl, by simp⟩
  cases blocking with
  | true =>
    simp only [BufferedConnectionWriter.flushInternal, Socket.recording_send, if_true, Takes]
    refine ⟨hempty _ hroom, trivial, ?_, trivial, fun _ => trivial⟩
    simp [packets, parsePackets]
  | false =>
    have hres := hle w.buffer s.1
    cases hr : S.trySend w.buffer s.1 with
    | mk res s' =>
    rw [hr] at hres
    dsimp only at hres
    simp only [BufferedConnectionWriter.flushInternal, Socket.recording_trySend, hr, Bool.false_eq_true,
      if_false, Takes]
    by_cases hall : res = w.buffer.length
    · rw [if_pos hall]
      refine ⟨hempty _ hroom, rfl, ?_, iff_of_true rfl hall, fun _ => rfl⟩
      simp [packets, hall, parsePackets]
    · rw [if_neg hall]
      by_cases hpos : 0 < res
      · rw [if_pos hpos]
        have hk : res.toNat ≤ (packetFraming.encodeAll ps).length := by
          rw [← hbuf]
          omega
        have hdrop : w.buffer.drop (findFirstTruncatedPacket w.buffer res.toNat) =
            packetFraming.encodeAll (ps.drop (packetFraming.whole ps res.toNat)) := by
          rw [hbuf, findFirstTruncatedPacket_boundary ps res.toNat hsmall hk, Framing.drop_boundary]
        refine ⟨⟨hroom, ?_, _, hdrop, fun p hp => hsmall p (List.mem_of_mem_drop hp)⟩, rfl, ?_,
          iff_of_false (by simp) hall, by simp⟩
        · intro hzero
          simp [hnone hzero]
        · have hparse : parsePackets (w.buffer.take res.toNat) = ps.take (packetFraming.whole ps res.toNat) := by
            rw [hbuf]
            exact packetFraming.decodeAll_take ps res.toNat
          simp only [packets]
          rw [hparse, hdrop, hbuf, parsePackets, parsePackets, Framing.decodeAll_encodeAll,
            Framing.decodeAll_encodeAll, List.append_assoc, List.take_append_drop]
      · rw [if_neg hpos]
        have hz : res.toNat = 0 := by omega
        refine ⟨⟨hroom, hnone, ps, hbuf, hsmall⟩, rfl, ?_, iff_of_false (by simp) hall, by simp⟩
        simp [packets, hz, parsePackets]

lemma Whole.fill (h : Whole w) (virtid : UInt8) (rest : Bytes) :
    Whole (w.fill virtid rest).1 ∧ (w.fill virtid rest).1.capacity = w.capacity := by
  simp only [BufferedConnectionWriter.fill]
  split_ifs with hfull hspace
  · have htake : (rest.take (w.capacity - w.buffer.length)).length ≤ w.capacity := by
      rw [List.length_take]
      omega
    exact ⟨(h.pushBytes virtid htake (by omega)).1, rfl⟩
  · exact ⟨h, rfl⟩
  · exact ⟨(h.pushBytes virtid (by omega) (by omega)).1, rfl⟩

lemma Whole.writeLoop (hle : ∀ buff s, (S.trySend buff s).1 ≤ buff.length) (h : Whole w) (virtid : UInt8)
    (blocking : Bool) (fuel : ℕ) (rest : Bytes) (s : σ × List Packet) :
    Whole (writeLoop S.recording virtid blocking fuel w rest s).2.1 ∧
      (writeLoop S.recording virtid blocking fuel w rest s).2.1.capacity = w.capacity := by
  induction fuel generalizing w rest s with
  | zero => exact ⟨h, rfl⟩
  | succ fuel ih =>
    obtain ⟨hfill, hcapacity⟩ := h.fill virtid rest
    simp only [BufferedConnectionWriter.writeLoop]
    cases hfull : (w.fill virtid rest).2.2 with
    | true =>
      obtain ⟨hflush, hcapacity', -⟩ := hfill.flushInternal hle blocking s
      simp only [if_true]
      split_ifs
      · exact ⟨hflush, hcapacity'.trans hcapacity⟩
      · have hrest := ih hflush (rest.drop (w.fill virtid rest).2.1)
          ((w.fill virtid rest).1.flushInternal S.recording blocking s).2.2
        exact ⟨hrest.1, hrest.2.trans (hcapacity'.trans hcapacity)⟩
      · exact ⟨hflush, hcapacity'.trans hcapacity⟩
    | false =>
      simp only [Bool.false_eq_true, if_false, if_true]
      split_ifs
      · exact ⟨hfill, hcapacity⟩
      · have hrest := ih hfill (rest.drop (w.fill virtid rest).2.1) s
        exact ⟨hrest.1, hrest.2.trans hcapacity⟩

lemma Whole.call (hle : ∀ buff s, (S.trySend buff s).1 ≤ buff.length) {c : BufferedConnectionWriter × σ × List Packet}
    (h : Whole c.1) (op : Call) : Whole (call S.recording c op).1 := by
  obtain ⟨w, s⟩ := c
  cases op with
  | flush blocking => exact (h.flushInternal hle blocking s).1
  | write virtid buff blocking =>
    obtain ⟨hflush, -⟩ := h.flushInternal hle blocking s
    simp only [EndMarkers.call, BufferedConnectionWriter.write, makeRoom]
    split_ifs
    · exact (hflush.writeLoop hle virtid blocking _ buff _).1
    · exact hflush
    · exact (h.writeLoop hle virtid blocking _ buff s).1
    · exact h

lemma Whole.run (hle : ∀ buff s, (S.trySend buff s).1 ≤ buff.length) {packetsize : ℕ} (hmin : 3 ≤ packetsize)
    (hmax : packetsize ≤ 65537) (s : σ × List Packet) (calls : List Call) :
    Whole (run S.recording packetsize s calls).1 := by
  refine foldl_invariant (I := fun c : BufferedConnectionWriter × σ × List Packet => Whole c.1) ?_ ?_ calls
  · exact fun c op h => h.call hle op
  · exact Whole.create hmin hmax

def Marked (virtid : UInt8) (before after : List Packet) : Prop :=
  ∃ p : Packet, p.virtid = virtid ∧ p.payload = [] ∧ after = before ++ [p]

lemma not_marked (virtid : UInt8) (ps : List Packet) : ¬ Marked virtid ps ps := by
  rintro ⟨p, -, -, h⟩
  simp at h

lemma Whole.writeLoop_nil (hle : ∀ buff s, (S.trySend buff s).1 ≤ buff.length) (h : Whole w) (virtid : UInt8)
    (blocking : Bool) (s : σ × List Packet) :
    Marked virtid (packets w s) (packets (BufferedConnectionWriter.writeLoop S.recording virtid blocking 1 w [] s).2.1
      (BufferedConnectionWriter.writeLoop S.recording virtid blocking 1 w [] s).2.2) ↔
        w.buffer.length < w.capacity := by
  by_cases hspace : w.buffer.length < w.capacity
  · obtain ⟨-, p, hv, hp, hparse⟩ := @Whole.pushBytes w h virtid [] (Nat.zero_le _) (by omega)
    have hloop : BufferedConnectionWriter.writeLoop S.recording virtid blocking 1 w [] s =
        (0, w.pushBytes virtid [], s) := by
      have hfill : w.fill virtid [] = (w.pushBytes virtid [], 0, false) := by
        simp [BufferedConnectionWriter.fill, not_le.2 hspace]
      simp [BufferedConnectionWriter.writeLoop, hfill]
    rw [hloop]
    refine iff_of_true ⟨p, hv, hp, ?_⟩ hspace
    rw [packets, packets, hparse, List.append_assoc]
  · have hloop : BufferedConnectionWriter.writeLoop S.recording virtid blocking 1 w [] s =
        (0, (w.flushInternal S.recording blocking s).2) := by
      have hfill : w.fill virtid [] = (w, w.buffer.length, true) := by
        simp [BufferedConnectionWriter.fill, not_lt.1 hspace, hspace]
      simp [BufferedConnectionWriter.writeLoop, hfill]
    rw [hloop, (h.flushInternal hle blocking s).2.2.1]
    exact iff_of_false (not_marked _ _) hspace

lemma Whole.write_nil (hle : ∀ buff s, (S.trySend buff s).1 ≤ buff.length) (h : Whole w) (virtid : UInt8)
    (blocking : Bool) (s : σ × List Packet) : let r := w.write S.recording virtid [] blocking s
    Marked virtid (packets w s) (packets r.2.1 r.2.2) ↔
      w.buffer.length < w.capacity ∨ (w.capacity < w.buffer.length ∧ Takes S w blocking s.1) := by
  obtain ⟨hflush, hcapacity, hpackets, htakes, hempty⟩ := h.flushInternal hle blocking s
  by_cases hover : w.capacity < w.buffer.length
  · have hroom : w.makeRoom S.recording 0 blocking s = w.flushInternal S.recording blocking s :=
      if_pos ⟨by omega, hover⟩
    rw [or_iff_right (by omega), and_iff_right hover, ← htakes]
    cases hgood : (w.flushInternal S.recording blocking s).1 with
    | false =>
      simp only [BufferedConnectionWriter.write, List.length_nil, hroom, hgood, Bool.false_eq_true, if_false, hpackets]
      exact iff_of_false (not_marked _ _) not_false
    | true =>
      have hone : 0 < w.capacity := by
        refine Nat.pos_of_ne_zero fun hzero => ?_
        rw [h.none hzero] at hover
        simp at hover
      simp only [BufferedConnectionWriter.write, List.length_nil, hroom, hgood, if_true, Nat.zero_add]
      rw [← hpackets, hflush.writeLoop_nil hle, hempty hgood, hcapacity, List.length_nil]
      exact iff_of_true hone trivial
  · have hroom : w.makeRoom S.recording 0 blocking s = (true, w, s) := if_neg fun hand => hover hand.2
    rw [or_iff_left fun hand => hover hand.1]
    simp only [BufferedConnectionWriter.write, List.length_nil, hroom, if_true, Nat.zero_add]
    exact h.writeLoop_nil hle virtid blocking s

theorem marked_iff (hle : ∀ buff s, (S.trySend buff s).1 ≤ buff.length) {packetsize : ℕ}
    (hmin : 3 ≤ packetsize) (hmax : packetsize ≤ 65537) (s₀ : σ × List Packet) (calls : List Call) (virtid : UInt8)
    (blocking : Bool) :
    let c := run S.recording packetsize s₀ calls
    let r := c.1.write S.recording virtid [] blocking c.2
    Marked virtid (packets c.1 c.2) (packets r.2.1 r.2.2) ↔
      c.1.buffer.length < c.1.capacity ∨ (c.1.capacity < c.1.buffer.length ∧ Takes S c.1 blocking c.2.1) :=
  (Whole.run hle hmin hmax s₀ calls).write_nil hle virtid blocking _

section Example

def openSocket : Socket Unit := ⟨fun buff _ => (buff.length, ()), fun _ _ => (true, ())⟩

def afterPacket (buff : Bytes) : BufferedConnectionWriter × Unit × List Packet :=
  run openSocket.recording 9 ((), []) [.write 33 buff false]

def ended (buff : Bytes) : List Packet :=
  let r := (afterPacket buff).1.write openSocket.recording 33 [] false (afterPacket buff).2
  packets r.2.1 r.2.2

lemma marked_iff_example : Marked 33 (packets (afterPacket [1, 2]).1 (afterPacket [1, 2]).2) (ended [1, 2]) :=
  (marked_iff (fun _ _ => le_rfl) (by decide) (by decide) ((), []) [.write 33 [1, 2] false] 33 false).2
    (Or.inl (by decide))

theorem not_marked_when_full :
    ¬ Marked 33 (packets (afterPacket [1, 2, 3]).1 (afterPacket [1, 2, 3]).2) (ended [1, 2, 3]) := by
  have hsame : ended [1, 2, 3] = packets (afterPacket [1, 2, 3]).1 (afterPacket [1, 2, 3]).2 := by decide
  rw [hsame]
  exact not_marked _ _

end Example

end EndMarkers

end Turbopump
