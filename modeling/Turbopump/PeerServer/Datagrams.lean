import Turbopump.PeerServer.EndMarkers

/-! What one connection hands to its socket: whole packets, and never more of them than fit into a datagram. -/

namespace Turbopump

open BufferedConnectionWriter

variable {σ : Type}

def Socket.logging (S : Socket σ) : Socket (σ × List Bytes) where
  trySend buff s :=
    let (res, s') := S.trySend buff s.1
    (res, s', s.2 ++ [buff])
  send buff s :=
    let (good, s') := S.send buff s.1
    (good, s', s.2 ++ [buff])

lemma Socket.logging_trySend (S : Socket σ) (buff : Bytes) (s : σ × List Bytes) :
    S.logging.trySend buff s = ((S.trySend buff s.1).1, (S.trySend buff s.1).2, s.2 ++ [buff]) := rfl

lemma Socket.logging_send (S : Socket σ) (buff : Bytes) (s : σ × List Bytes) :
    S.logging.send buff s = ((S.send buff s.1).1, (S.send buff s.1).2, s.2 ++ [buff]) := rfl

namespace BufferedConnectionWriter

variable (S : Socket σ) (virtid : UInt8) (blocking : Bool)

/-- One pass of the loop of `write`, with its `unsigned` sum. -/
def iterate (w : BufferedConnectionWriter) (rest : Bytes) (s : σ) : Bool × BufferedConnectionWriter × Bytes × σ :=
  let packetSize := uadd w.buffer.length rest.length
  if w.capacity ≤ packetSize then
    let (w, packetSize) :=
      if w.buffer.length < w.capacity then
        let packetSize := w.capacity - w.buffer.length
        (w.pushBytes virtid (rest.take packetSize), packetSize)
      else (w, packetSize)
    let (good, w, s) := w.flushInternal S blocking s
    (good, w, rest.drop packetSize, s)
  else
    let packetSize := rest.length
    (true, w.pushBytes virtid rest, rest.drop packetSize, s)

inductive Loops : BufferedConnectionWriter → Bytes → σ → ℕ × BufferedConnectionWriter × σ → Prop where
  | consumed {w w' : BufferedConnectionWriter} {rest : Bytes} {s s' : σ} {good : Bool}
      (h : iterate S virtid blocking w rest s = (good, w', [], s')) : Loops w rest s (0, w', s')
  | failed {w w' : BufferedConnectionWriter} {rest rest' : Bytes} {s s' : σ}
      (h : iterate S virtid blocking w rest s = (false, w', rest', s')) (hrest : rest' ≠ []) :
      Loops w rest s (rest'.length, w', s')
  | again {w w' : BufferedConnectionWriter} {rest rest' : Bytes} {s s' : σ} {r : ℕ × BufferedConnectionWriter × σ}
      (h : iterate S virtid blocking w rest s = (true, w', rest', s')) (hrest : rest' ≠ [])
      (hloop : Loops w' rest' s' r) : Loops w rest s r

/-- Nothing is buffered unless what remains fits behind it, so that the sum of `iterate` is that of the sizes. -/
structure Unwrapped (w : BufferedConnectionWriter) (rest : Bytes) : Prop where
  capacity : w.capacity ≤ 65534
  length : rest.length < 4294967296
  fits : w.buffer = [] ∨ w.buffer.length + rest.length ≤ w.capacity

section Loop

variable {S virtid blocking} {w : BufferedConnectionWriter} {rest : Bytes} {s : σ}

lemma flushInternal_good : let r := w.flushInternal S blocking s
    r.2.1.capacity = w.capacity ∧ (r.1 = true → r.2.1.buffer = []) := by
  simp only [flushInternal]
  split_ifs <;> simp

lemma iterate_eq (h : Unwrapped w rest) : iterate S virtid blocking w rest s =
    let (w, packetSize, full) := w.fill virtid rest
    let (good, w, s) := if full then w.flushInternal S blocking s else (true, w, s)
    (good, w, rest.drop packetSize, s) := by
  have hsum : uadd w.buffer.length rest.length = w.buffer.length + rest.length := by
    refine Nat.mod_eq_of_lt ?_
    rcases h.fits with hnil | hle
    · simpa [hnil] using h.length
    · exact hle.trans_lt (h.capacity.trans_lt (show 65534 < 4294967296 by decide))
  by_cases hfull : w.capacity ≤ w.buffer.length + rest.length
  · by_cases hspace : w.buffer.length < w.capacity
    · simp only [iterate, hsum, fill, if_pos hfull, if_pos hspace, if_true]
    · simp only [iterate, hsum, fill, if_pos hfull, if_neg hspace, if_true]
  · simp only [iterate, hsum, fill, if_neg hfull, Bool.false_eq_true, if_false]

lemma writeLoop_succ (h : Unwrapped w rest) (fuel : ℕ) : writeLoop S virtid blocking (fuel + 1) w rest s =
    let (good, w, rest, s) := iterate S virtid blocking w rest s
    if rest.length = 0 then (0, w, s)
    else if good then writeLoop S virtid blocking fuel w rest s
    else (rest.length, w, s) := by
  rw [iterate_eq h]
  rfl

lemma iterate_again (h : Unwrapped w rest) {w' : BufferedConnectionWriter} {rest' : Bytes}
    {s' : σ} (hit : iterate S virtid blocking w rest s = (true, w', rest', s')) (hrest : rest' ≠ []) :
    Unwrapped w' rest' ∧ rest'.length < rest.length := by
  have hlength := h.length
  rw [iterate_eq h] at hit
  by_cases hfull : w.capacity ≤ w.buffer.length + rest.length
  · by_cases hspace : w.buffer.length < w.capacity
    · obtain ⟨hcapacity, hempty⟩ := @flushInternal_good σ S blocking
        (w.pushBytes virtid (rest.take (w.capacity - w.buffer.length))) s
      simp only [fill, if_pos hfull, if_pos hspace, if_true, Prod.mk.injEq] at hit
      obtain ⟨hgood, rfl, rfl, -⟩ := hit
      rw [List.ne_nil_iff_length_pos, List.length_drop] at hrest
      refine ⟨⟨hcapacity.trans_le h.capacity, ?_, .inl (hempty hgood)⟩, ?_⟩
      · rw [List.length_drop]
        omega
      · rw [List.length_drop]
        omega
    · simp only [fill, if_pos hfull, if_neg hspace, if_true, Prod.mk.injEq] at hit
      obtain ⟨-, -, rfl, -⟩ := hit
      exact absurd (List.drop_eq_nil_of_le (Nat.le_add_left _ _)) hrest
  · simp only [fill, if_neg hfull, Bool.false_eq_true, if_false, Prod.mk.injEq] at hit
    obtain ⟨-, -, rfl, -⟩ := hit
    exact absurd List.drop_length hrest

/-- A pass that does not end the loop takes at least one byte: one that finds no room in the buffer advances past all
that remains. -/
lemma loops_writeLoop (h : Unwrapped w rest) {fuel : ℕ} (hfuel : rest.length < fuel) :
    Loops S virtid blocking w rest s (writeLoop S virtid blocking fuel w rest s) := by
  induction fuel generalizing w rest s with
  | zero => omega
  | succ fuel ih =>
    rw [writeLoop_succ h]
    rcases hit : iterate S virtid blocking w rest s with ⟨good, w', rest', s'⟩
    by_cases hrest : rest' = []
    · subst hrest
      exact .consumed hit
    have hlength : rest'.length ≠ 0 := fun hzero => hrest (List.length_eq_zero_iff.1 hzero)
    cases good with
    | false =>
      simp only [if_neg hlength, Bool.false_eq_true, if_false]
      exact .failed hit hrest
    | true =>
      obtain ⟨h', hless⟩ := iterate_again h hit hrest
      simp only [if_neg hlength, if_true]
      exact .again hit hrest (ih h' (by omega))

lemma unwrapped_makeRoom (hcapacity : w.capacity ≤ 65534) {buff : Bytes} (hlength : buff.length < 4294967296) :
    let r := w.makeRoom S buff.length blocking s
    r.1 = true → Unwrapped r.2.1 buff := by
  simp only [makeRoom]
  split_ifs with hover
  · intro hgood
    obtain ⟨hsame, hempty⟩ := @flushInternal_good σ S blocking w s
    exact ⟨hsame.trans_le hcapacity, hlength, .inl (hempty hgood)⟩
  · intro _
    refine ⟨hcapacity, hlength, ?_⟩
    by_cases hnil : w.buffer = []
    · exact .inl hnil
    · exact .inr (not_lt.1 fun hlt => hover ⟨List.length_pos_iff.2 hnil, hlt⟩)

end Loop

end BufferedConnectionWriter

def Datagram (packetsize : ℕ) (buff : Bytes) : Prop :=
  buff.length ≤ packetsize ∧ ∃ ps, buff = packetFraming.encodeAll ps

def PacketBoundary (buff : Bytes) (n : ℕ) : Prop :=
  ∃ ps qs, buff = packetFraming.encodeAll ps ++ packetFraming.encodeAll qs ∧ n = (packetFraming.encodeAll ps).length

namespace Datagram

variable {packetsize : ℕ} {buff : Bytes}

lemma nil (packetsize : ℕ) : Datagram packetsize [] := ⟨Nat.zero_le _, [], rfl⟩

lemma small {ps : List Packet} (hmax : packetsize ≤ 65537)
    (h : (packetFraming.encodeAll ps).length ≤ packetsize) : ∀ p ∈ ps, p.payload.length ≤ 65534 := by
  intro p hp
  obtain ⟨before, after, rfl⟩ := List.append_of_mem hp
  simp only [Framing.encodeAll_append, Framing.encodeAll_cons, packetFraming_encode, List.length_append,
    Packet.encode_length] at h
  omega

lemma drop_boundary (h : Datagram packetsize buff) {n : ℕ} (hn : PacketBoundary buff n) :
    Datagram packetsize (buff.drop n) := by
  obtain ⟨ps, qs, rfl, rfl⟩ := hn
  obtain ⟨hlength, -⟩ := h
  rw [List.length_append] at hlength
  rw [List.drop_left]
  exact ⟨by omega, qs, rfl⟩

lemma findFirstTruncatedPacket (h : Datagram packetsize buff) (hmax : packetsize ≤ 65537) {size : ℕ}
    (hsize : size ≤ buff.length) : PacketBoundary buff (findFirstTruncatedPacket buff size) := by
  obtain ⟨hlength, ps, rfl⟩ := h
  refine ⟨ps.take (packetFraming.whole ps size), ps.drop (packetFraming.whole ps size), ?_, ?_⟩
  · rw [← Framing.encodeAll_append, List.take_append_drop]
  · exact findFirstTruncatedPacket_boundary ps size (small hmax hlength) hsize

end Datagram

structure Sends (packetsize : ℕ) (w : BufferedConnectionWriter) (log : List Bytes) : Prop where
  capacity : w.capacity = packetsize - 3
  buffer : Datagram packetsize w.buffer
  handed : ∀ buff ∈ log, Datagram packetsize buff

namespace Sends

variable {packetsize : ℕ} {w : BufferedConnectionWriter} {log : List Bytes}

lemma setBuffer (h : Sends packetsize w log) {buff : Bytes} (hbuff : Datagram packetsize buff) :
    Sends packetsize { w with buffer := buff } (log ++ [w.buffer]) := by
  refine ⟨h.capacity, hbuff, fun b hb => ?_⟩
  rcases List.mem_append.1 hb with hb | hb
  · exact h.handed b hb
  · exact List.mem_singleton.1 hb ▸ h.buffer

lemma pushBytes (h : Sends packetsize w log) (hmax : packetsize ≤ 65537) (virtid : UInt8) {buff : Bytes}
    (hroom : w.buffer.length + buff.length + 3 ≤ packetsize) : Sends packetsize (w.pushBytes virtid buff) log := by
  obtain ⟨hcapacity, ⟨-, ps, hbuffer⟩, hhanded⟩ := h
  refine ⟨hcapacity, ⟨?_, ps ++ [⟨virtid, buff, by omega⟩], ?_⟩, hhanded⟩
  · simp only [BufferedConnectionWriter.pushBytes, List.length_append, htons_length, List.length_singleton]
    omega
  · simp [BufferedConnectionWriter.pushBytes, hbuffer, Packet.encode, package]

lemma fill (h : Sends packetsize w log) (hmin : 4 ≤ packetsize) (hmax : packetsize ≤ 65537) (virtid : UInt8)
    (rest : Bytes) : Sends packetsize (w.fill virtid rest).1 log := by
  have hcapacity := h.capacity
  simp only [BufferedConnectionWriter.fill]
  split_ifs with hfull hspace
  · refine h.pushBytes hmax virtid ?_
    rw [List.length_take]
    omega
  · exact h
  · exact h.pushBytes hmax virtid (by omega)

variable {S : Socket σ}

lemma flushInternal (hle : ∀ buff s, (S.trySend buff s).1 ≤ buff.length) (hmax : packetsize ≤ 65537)
    {s : σ × List Bytes} (h : Sends packetsize w s.2) (blocking : Bool) :
    let r := w.flushInternal S.logging blocking s
    Sends packetsize r.2.1 r.2.2.2 := by
  cases blocking with
  | true =>
    simp only [BufferedConnectionWriter.flushInternal, Socket.logging_send, if_true]
    exact h.setBuffer (.nil _)
  | false =>
    have hres := hle w.buffer s.1
    cases hr : S.trySend w.buffer s.1 with
    | mk res s' =>
    rw [hr] at hres
    dsimp only at hres
    simp only [BufferedConnectionWriter.flushInternal, Socket.logging_trySend, hr, Bool.false_eq_true, if_false]
    by_cases hall : res = w.buffer.length
    · rw [if_pos hall]
      exact h.setBuffer (.nil _)
    rw [if_neg hall]
    by_cases hsome : 0 < res
    · rw [if_pos hsome]
      have hcut := h.buffer.findFirstTruncatedPacket hmax (show res.toNat ≤ w.buffer.length by omega)
      exact h.setBuffer (h.buffer.drop_boundary hcut)
    · rw [if_neg hsome]
      exact h.setBuffer h.buffer

lemma writeLoop (hle : ∀ buff s, (S.trySend buff s).1 ≤ buff.length) (hmin : 4 ≤ packetsize)
    (hmax : packetsize ≤ 65537) (virtid : UInt8) (blocking : Bool) (fuel : ℕ) (rest : Bytes) {s : σ × List Bytes}
    (h : Sends packetsize w s.2) : let r := writeLoop S.logging virtid blocking fuel w rest s
    Sends packetsize r.2.1 r.2.2.2 := by
  induction fuel generalizing w rest s with
  | zero => exact h
  | succ fuel ih =>
    have hfill := h.fill hmin hmax virtid rest
    simp only [BufferedConnectionWriter.writeLoop]
    cases hfull : (w.fill virtid rest).2.2 with
    | true =>
      have hflush := hfill.flushInternal hle hmax blocking
      simp only [if_true]
      split_ifs
      · exact hflush
      · exact ih _ hflush
      · exact hflush
    | false =>
      simp only [Bool.false_eq_true, if_false, if_true]
      split_ifs
      · exact hfill
      · exact ih _ hfill

lemma call (hle : ∀ buff s, (S.trySend buff s).1 ≤ buff.length) (hmin : 4 ≤ packetsize) (hmax : packetsize ≤ 65537)
    {c : BufferedConnectionWriter × σ × List Bytes} (h : Sends packetsize c.1 c.2.2) (op : EndMarkers.Call) :
    Sends packetsize (EndMarkers.call S.logging c op).1 (EndMarkers.call S.logging c op).2.2 := by
  obtain ⟨w, s⟩ := c
  cases op with
  | flush blocking => exact flushInternal hle hmax h blocking
  | write virtid buff blocking =>
    have hflush := flushInternal hle hmax h blocking
    simp only [EndMarkers.call, BufferedConnectionWriter.write, makeRoom]
    split_ifs
    · exact writeLoop hle hmin hmax virtid blocking _ buff hflush
    · exact hflush
    · exact writeLoop hle hmin hmax virtid blocking _ buff h
    · exact h

lemma run (hle : ∀ buff s, (S.trySend buff s).1 ≤ buff.length) (hmin : 4 ≤ packetsize) (hmax : packetsize ≤ 65537)
    (s : σ) (calls : List EndMarkers.Call) : let c := EndMarkers.run S.logging packetsize (s, []) calls
    Sends packetsize c.1 c.2.2 := by
  have hcreate : Sends packetsize (create packetsize) [] :=
    ⟨create_capacity (by omega) hmax, .nil _, by simp⟩
  exact foldl_invariant (I := fun c : BufferedConnectionWriter × σ × List Bytes => Sends packetsize c.1 c.2.2)
    (fun c op h => call hle hmin hmax h op) hcreate calls

end Sends

structure HandsDatagrams (S : Socket σ) (packetsize : ℕ) (w : BufferedConnectionWriter) (s : σ × List Bytes) :
    Prop where
  buffer : Datagram packetsize w.buffer
  handed : ∀ buff ∈ s.2, Datagram packetsize buff
  boundary : ∀ buff, buff = w.buffer ∨ buff ∈ s.2 →
    ∀ size ≤ buff.length, PacketBoundary buff (findFirstTruncatedPacket buff size)
  loops : ∀ virtid (buff : Bytes) blocking, buff.length < 4294967296 →
    let r := w.makeRoom S.logging buff.length blocking s
    r.1 = true → Loops S.logging virtid blocking r.2.1 buff r.2.2
      (writeLoop S.logging virtid blocking (buff.length + 1) r.2.1 buff r.2.2)

theorem hands_datagrams {S : Socket σ} (hle : ∀ buff s, (S.trySend buff s).1 ≤ buff.length) {packetsize : ℕ}
    (hmin : 4 ≤ packetsize) (hmax : packetsize ≤ 65537) (s : σ) (calls : List EndMarkers.Call) :
    let c := EndMarkers.run S.logging packetsize (s, []) calls
    HandsDatagrams S packetsize c.1 c.2 := by
  have hsends := Sends.run hle hmin hmax s calls
  have hcapacity := hsends.capacity
  constructor
  case buffer => exact hsends.buffer
  case handed => exact hsends.handed
  case boundary =>
    rintro buff (rfl | hbuff) size hsize
    · exact hsends.buffer.findFirstTruncatedPacket hmax hsize
    · exact (hsends.handed buff hbuff).findFirstTruncatedPacket hmax hsize
  case loops =>
    intro virtid buff blocking hlength r hgood
    exact loops_writeLoop (unwrapped_makeRoom (by omega) hlength hgood) (Nat.lt_succ_self _)

theorem hands_datagrams_nine :
    let c := EndMarkers.run EndMarkers.openSocket.logging 9 ((), []) [.write 33 [1, 2, 3, 4, 5, 6, 7] false]
    HandsDatagrams EndMarkers.openSocket 9 c.1 c.2 :=
  hands_datagrams (fun _ _ => le_rfl) (by decide) (by decide) () _

end Turbopump
