import Turbopump.PeerServer.BufferedConnectionWriter

/-! One caller at a time on a non-blocking connection: what the peer has parsed, followed by what is
still buffered, is what the caller was told was written. -/

namespace Turbopump

open BufferedConnectionWriter

variable {σ : Type}

/-- A socket whose accepted prefixes reach the peer as one buffer each; `received` is what the peer has
parsed from them. -/
structure Delivers (S : Socket σ) (received : σ → List Packet) : Prop where
  trySend_le : ∀ buff s, (S.trySend buff s).1 ≤ buff.length
  received_trySend : ∀ buff s, received (S.trySend buff s).2 =
    received s ++ parsePackets (buff.take (S.trySend buff s).1.toNat)

structure Tracks (received : σ → List Packet) (w : BufferedConnectionWriter) (s : σ)
    (sent : List Packet) : Prop where
  room : 1 ≤ w.capacity ∧ w.capacity ≤ 65534
  buffered : ∃ ps, w.buffer = packetFraming.encodeAll ps ∧ (∀ p ∈ ps, p.payload.length ≤ w.capacity) ∧
    received s ++ ps = sent

lemma truncationFrom_boundary (pre ps : List Packet) (size fuel : ℕ)
    (hsmall : ∀ p ∈ ps, p.payload.length ≤ 65534) (hpre : (packetFraming.encodeAll pre).length ≤ size)
    (hsize : size ≤ (packetFraming.encodeAll (pre ++ ps)).length)
    (hfuel : size - (packetFraming.encodeAll pre).length ≤ fuel) :
    truncationFrom (packetFraming.encodeAll (pre ++ ps)) size fuel (packetFraming.encodeAll pre).length =
      (packetFraming.encodeAll pre).length +
        packetFraming.boundary ps (size - (packetFraming.encodeAll pre).length) := by
  induction ps generalizing pre fuel with
  | nil =>
    have he : size = (packetFraming.encodeAll pre).length := by
      simp only [List.append_nil] at hsize
      omega
    cases fuel <;> simp [truncationFrom, he, Framing.boundary]
  | cons p ps ih =>
    have hp := hsmall p (by simp)
    have happ : pre ++ p :: ps = pre ++ [p] ++ ps := by simp
    have hlen : (packetFraming.encodeAll (pre ++ [p])).length =
        (packetFraming.encodeAll pre).length + (p.payload.length + 3) := by simp
    cases fuel with
    | zero =>
      have he : size = (packetFraming.encodeAll pre).length := by omega
      simp [truncationFrom, he, Framing.boundary, Framing.whole]
    | succ fuel =>
      simp only [truncationFrom]
      split
      case isTrue hlt =>
        have hread : ntohs ((packetFraming.encodeAll (pre ++ p :: ps)).getD (packetFraming.encodeAll pre).length 0)
            ((packetFraming.encodeAll (pre ++ p :: ps)).getD ((packetFraming.encodeAll pre).length + 1) 0) =
              p.payload.length + 1 := by
          simp only [Framing.encodeAll_append, Framing.encodeAll_cons, packetFraming_encode, Packet.encode,
            package, htons, List.getD_eq_getElem?_getD, List.cons_append, List.nil_append]
          rw [List.getElem?_append_right le_rfl, List.getElem?_append_right (by omega)]
          simp only [Nat.sub_self, Nat.add_sub_cancel_left, List.getElem?_cons_zero,
            List.getElem?_cons_succ, Option.getD_some, ntohs_htons]
          omega
        rw [hread]
        split
        case isTrue hcut =>
          have hw : ¬ p.payload.length + 3 ≤ size - (packetFraming.encodeAll pre).length := by omega
          simp [Framing.boundary, Framing.whole, hw]
        case isFalse hfit =>
          have hstep : (packetFraming.encodeAll pre).length + (2 + (p.payload.length + 1)) =
              (packetFraming.encodeAll (pre ++ [p])).length := by omega
          rw [hstep, happ, ih (pre ++ [p]) fuel (fun q hq => hsmall q (by simp [hq])) (by omega)
            (by rw [← happ]; exact hsize) (by omega)]
          have hw : packetFraming.whole (p :: ps) (size - (packetFraming.encodeAll pre).length) =
              packetFraming.whole ps (size - (packetFraming.encodeAll (pre ++ [p])).length) + 1 := by
            simp only [Framing.whole, packetFraming_encode, Packet.encode_length]
            rw [if_pos (by omega), hlen]
            congr 2
            omega
          simp only [Framing.boundary, hw, List.take_succ_cons, Framing.encodeAll_cons, List.length_append,
            packetFraming_encode, Packet.encode_length, hlen]
          omega
      case isFalse hge =>
        have he : size = (packetFraming.encodeAll pre).length := by omega
        simp [he, Framing.boundary, Framing.whole]

theorem findFirstTruncatedPacket_boundary (ps : List Packet) (size : ℕ)
    (hsmall : ∀ p ∈ ps, p.payload.length ≤ 65534) (hsize : size ≤ (packetFraming.encodeAll ps).length) :
    findFirstTruncatedPacket (packetFraming.encodeAll ps) size = packetFraming.boundary ps size := by
  simpa [findFirstTruncatedPacket] using
    truncationFrom_boundary [] ps size size hsmall (by simp) (by simpa using hsize) (by simp)

namespace Tracks

variable {S : Socket σ} {received : σ → List Packet} {w : BufferedConnectionWriter} {s : σ}
  {sent : List Packet}

lemma flushInternal (hS : Delivers S received) (h : Tracks received w s sent) :
    let r := w.flushInternal S false s
    Tracks received r.2.1 r.2.2 sent ∧ r.2.1.capacity = w.capacity ∧ (r.1 = true → r.2.1.buffer = []) := by
  obtain ⟨hroom, ps, hbuf, hsmall, hsent⟩ := h
  have hle := hS.trySend_le w.buffer s
  have hrec := hS.received_trySend w.buffer s
  rcases hr : S.trySend w.buffer s with ⟨res, s'⟩
  simp only [hr] at hle hrec
  have hparse : parsePackets (w.buffer.take res.toNat) = ps.take (packetFraming.whole ps res.toNat) := by
    rw [hbuf]
    exact packetFraming.decodeAll_take ps res.toNat
  simp only [BufferedConnectionWriter.flushInternal, Bool.false_eq_true, if_false, hr]
  by_cases hall : res = w.buffer.length
  · rw [if_pos hall]
    refine ⟨⟨hroom, [], rfl, by simp, ?_⟩, rfl, fun _ => rfl⟩
    rw [List.append_nil, hrec, ← hsent, hall, Int.toNat_natCast, List.take_length, hbuf, parsePackets,
      Framing.decodeAll_encodeAll]
  · rw [if_neg hall]
    by_cases hpos : 0 < res
    · rw [if_pos hpos]
      refine ⟨⟨hroom, ps.drop (packetFraming.whole ps res.toNat), ?_, ?_, ?_⟩, rfl, by simp⟩
      · have hk : res.toNat ≤ w.buffer.length := by omega
        rw [hbuf] at hk ⊢
        rw [findFirstTruncatedPacket_boundary ps res.toNat
          (fun p hp => (hsmall p hp).trans hroom.2) hk, Framing.drop_boundary]
      · exact fun p hp => hsmall p (List.mem_of_mem_drop hp)
      · rw [hrec, hparse, List.append_assoc, List.take_append_drop, hsent]
    · rw [if_neg hpos]
      have hz : res.toNat = 0 := by omega
      refine ⟨⟨hroom, ps, hbuf, hsmall, ?_⟩, rfl, by simp⟩
      rw [hrec, hz, List.take_zero, ← hsent]
      simp [parsePackets]

lemma pushBytes (h : Tracks received w s sent) (virtid : UInt8) (buff : Bytes) (hb : buff.length ≤ w.capacity) :
    ∃ p, p.virtid = virtid ∧ p.payload = buff ∧
      Tracks received (w.pushBytes virtid buff) s (sent ++ [p]) := by
  obtain ⟨⟨hone, hcap⟩, ps, hbuf, hsmall, hsent⟩ := h
  refine ⟨⟨virtid, buff, by omega⟩, rfl, rfl, ⟨hone, hcap⟩, ps ++ [⟨virtid, buff, by omega⟩], ?_, ?_, ?_⟩
  · simp [BufferedConnectionWriter.pushBytes, hbuf, Packet.encode, package]
  · intro p hp
    rcases List.mem_append.mp hp with hp | hp
    · exact hsmall p hp
    · obtain rfl := List.mem_singleton.mp hp
      exact hb
  · rw [← List.append_assoc, hsent]

lemma received_flushInternal (hS : Delivers S received) (w : BufferedConnectionWriter) (s : σ) :
    received s <+: received (w.flushInternal S false s).2.2 := by
  have hrec := hS.received_trySend w.buffer s
  simp only [BufferedConnectionWriter.flushInternal, Bool.false_eq_true, if_false]
  split_ifs <;> exact ⟨_, hrec.symm⟩

lemma received_writeLoop (hS : Delivers S received) (virtid : UInt8) (fuel : ℕ)
    (w : BufferedConnectionWriter) (rest : Bytes) (s : σ) :
    received s <+: received (BufferedConnectionWriter.writeLoop S virtid false fuel w rest s).2.2 := by
  induction fuel generalizing w rest s with
  | zero => exact List.prefix_rfl
  | succ fuel ih =>
    simp only [BufferedConnectionWriter.writeLoop]
    split_ifs
    · exact received_flushInternal hS _ _
    · exact List.prefix_rfl
    · exact (received_flushInternal hS _ _).trans (ih _ _ _)
    · exact received_flushInternal hS _ _
    · exact ih _ _ _
    · exact List.prefix_rfl

lemma received_write (hS : Delivers S received) (w : BufferedConnectionWriter) (virtid : UInt8)
    (buff : Bytes) (s : σ) : received s <+: received (w.write S virtid buff false s).2.2 := by
  simp only [BufferedConnectionWriter.write, makeRoom]
  split_ifs
  · exact (received_flushInternal hS _ _).trans (received_writeLoop hS _ _ _ _ _)
  · exact received_flushInternal hS _ _
  · exact received_writeLoop hS _ _ _ _ _
  · exact List.prefix_rfl

lemma payload (h : Tracks received w s sent) (v : UInt8) :
    payloadOf v (received s) ++ payloadOf v (parsePackets w.buffer) = payloadOf v sent := by
  obtain ⟨-, ps, hbuf, -, hsent⟩ := h
  rw [← hsent, payloadOf_append, hbuf, parsePackets, Framing.decodeAll_encodeAll]

def Adds (virtid : UInt8) (bytes : Bytes) (added : List Packet) : Prop :=
  (∀ p ∈ added, p.virtid = virtid) ∧ added.flatMap Packet.payload = bytes

lemma Adds.append {virtid : UInt8} {xs ys : Bytes} {ps qs : List Packet} (hp : Adds virtid xs ps)
    (hq : Adds virtid ys qs) : Adds virtid (xs ++ ys) (ps ++ qs) := by
  refine ⟨fun p h => ?_, by simp [hp.2, hq.2]⟩
  rcases List.mem_append.mp h with h | h
  · exact hp.1 p h
  · exact hq.1 p h

lemma fill (h : Tracks received w s sent) (virtid : UInt8) (rest : Bytes) :
    let r := w.fill virtid rest
    r.1.capacity = w.capacity ∧ (rest ≠ [] → 0 < r.2.1) ∧ (r.2.2 = false → rest.length ≤ r.2.1) ∧
    ∃ added, (∀ p ∈ added, p.virtid = virtid) ∧ Tracks received r.1 s (sent ++ added) ∧
      (w.buffer.length < w.capacity ∨ rest = [] → Adds virtid (rest.take r.2.1) added) := by
  obtain ⟨hone, hcap⟩ := h.room
  by_cases hfull : w.capacity ≤ w.buffer.length + rest.length
  · by_cases hspace : w.buffer.length < w.capacity
    · have htake : (rest.take (w.capacity - w.buffer.length)).length ≤ w.capacity := by
        rw [List.length_take]
        omega
      obtain ⟨p, hv, hp, hpush⟩ := h.pushBytes virtid _ htake
      simp only [BufferedConnectionWriter.fill, hfull, hspace, if_true]
      refine ⟨rfl, fun _ => by omega, by simp, [p], by simpa using hv, hpush, fun _ => ⟨by simpa using hv, ?_⟩⟩
      simp [hp]
    · simp only [BufferedConnectionWriter.fill, hfull, hspace, if_true, if_false]
      refine ⟨trivial, fun _ => by omega, by simp, [], by simp, by simpa using h, ?_⟩
      rintro (hlt | rfl)
      · exact hlt.elim
      · exact ⟨by simp, by simp⟩
  · obtain ⟨p, hv, hp, hpush⟩ := h.pushBytes virtid rest (by omega)
    simp only [BufferedConnectionWriter.fill, hfull, if_false]
    refine ⟨rfl, List.length_pos_iff.mpr, fun _ => le_rfl, [p], by simpa using hv, hpush,
      fun _ => ⟨by simpa using hv, ?_⟩⟩
    simp [hp]

lemma writeLoop (hS : Delivers S received) (fuel : ℕ) (virtid : UInt8) (rest : Bytes)
    (h : Tracks received w s sent)
    (hroom : w.buffer.length = 0 ∨ w.buffer.length + rest.length ≤ w.capacity)
    (hfuel : rest.length < fuel) :
    let r := BufferedConnectionWriter.writeLoop S virtid false fuel w rest s
    r.1 ≤ rest.length ∧ ∃ added, Adds virtid (rest.take (rest.length - r.1)) added ∧
      Tracks received r.2.1 r.2.2 (sent ++ added) := by
  induction fuel generalizing w s sent rest with
  | zero => omega
  | succ fuel ih =>
    have hone := h.room.1
    have hstart : w.buffer.length < w.capacity ∨ rest = [] := by
      rw [← List.length_eq_zero_iff]
      omega
    have hfill := h.fill virtid rest
    rcases hf : w.fill virtid rest with ⟨w₁, n, full⟩
    simp only [hf] at hfill
    obtain ⟨-, hpos, hlast, added, -, htr₁, hadd⟩ := hfill
    have hadd := hadd hstart
    -- after the flush, if it is due, the buffer is empty or the call is over
    obtain ⟨good, w₂, s₂, hgo, htr₂, hempty⟩ : ∃ good w₂ s₂,
        (if full then w₁.flushInternal S false s else (true, w₁, s)) = (good, w₂, s₂) ∧
        Tracks received w₂ s₂ (sent ++ added) ∧
        (good = true → w₂.buffer = [] ∨ rest.length ≤ n) := by
      cases full with
      | true =>
        have hflush := htr₁.flushInternal hS
        rcases hr : w₁.flushInternal S false s with ⟨good, w₂, s₂⟩
        rw [hr] at hflush
        exact ⟨good, w₂, s₂, by simp, hflush.1, fun hg => Or.inl (hflush.2.2 hg)⟩
      | false => exact ⟨true, w₁, s, rfl, htr₁, fun _ => Or.inr (hlast rfl)⟩
    simp only [BufferedConnectionWriter.writeLoop, hf, hgo, List.length_drop]
    by_cases hdone : rest.length - n = 0
    · rw [if_pos hdone]
      refine ⟨Nat.zero_le _, added, ?_, htr₂⟩
      rw [List.take_of_length_le (by omega)] at hadd
      simpa using hadd
    · rw [if_neg hdone]
      have hn : 0 < n := hpos (by rintro rfl; simp at hdone)
      cases good with
      | true =>
        obtain ⟨hle, more, hmore, htr⟩ := ih (rest.drop n) htr₂
          (Or.inl (by rcases hempty rfl with he | he; rw [he]; rfl; omega)) (by rw [List.length_drop]; omega)
        rw [List.length_drop] at hle hmore
        refine ⟨hle.trans (Nat.sub_le _ _), added ++ more, ?_, by simpa using htr⟩
        have happ := hadd.append hmore
        rw [← List.take_add] at happ
        simp only [if_true]
        convert happ using 2
        omega
      | false =>
        refine ⟨by simp, added, ?_, htr₂⟩
        convert hadd using 2
        simp only [Bool.false_eq_true, if_false]
        omega

lemma write (hS : Delivers S received) (h : Tracks received w s sent) (virtid : UInt8) (buff : Bytes) :
    let r := w.write S virtid buff false s
    ∃ (added : List Packet) (taken : ℕ), r.1 = toInt taken ∧ taken ≤ buff.length ∧ Adds virtid (buff.take taken) added ∧
      Tracks received r.2.1 r.2.2 (sent ++ added) := by
  by_cases hflush : 0 < w.buffer.length ∧ w.capacity < w.buffer.length + buff.length
  · obtain ⟨htr, hcap, hgood⟩ := h.flushInternal hS
    simp only [BufferedConnectionWriter.write, makeRoom, hflush, and_self, if_true]
    split
    case isTrue hg =>
      obtain ⟨-, added, hadd, htr'⟩ := htr.writeLoop hS (buff.length + 1) virtid buff
        (Or.inl (by rw [hgood hg]; rfl)) (Nat.lt_succ_self _)
      exact ⟨added, _, rfl, Nat.sub_le _ _, hadd, htr'⟩
    case isFalse hbad => exact ⟨[], 0, rfl, Nat.zero_le _, ⟨by simp, by simp⟩, by simpa using htr⟩
  · simp only [BufferedConnectionWriter.write, makeRoom, hflush, if_false, if_true]
    obtain ⟨-, added, hadd, htr⟩ := h.writeLoop hS (buff.length + 1) virtid buff (by omega) (Nat.lt_succ_self _)
    exact ⟨added, _, rfl, Nat.sub_le _ _, hadd, htr⟩

lemma write_taken (hS : Delivers S received) (h : Tracks received w s sent) (virtid : UInt8) {buff : Bytes}
    (hbuff : buff.length < 2147483648) :
    let r := w.write S virtid buff false s
    ∃ added, Adds virtid (buff.take r.1.toNat) added ∧ Tracks received r.2.1 r.2.2 (sent ++ added) := by
  obtain ⟨added, taken, hres, htaken, hadd, htr⟩ := h.write hS virtid buff
  rw [toInt_of_lt (by omega)] at hres
  refine ⟨added, ?_, htr⟩
  rwa [hres, Int.toNat_natCast]

end Tracks

/-- A socket that answers its `n`-th `try_send` with `answers n`: `none` is a failure, `some k` takes
the first `k` bytes, or all of them when there are fewer. -/
structure Wire where
  answers : ℕ → Option ℕ
  calls : ℕ
  delivered : List Bytes

namespace Wire

def socket : Socket Wire where
  trySend buff s := match s.answers s.calls with
    | none => (-1, { s with calls := s.calls + 1 })
    | some k => ((min k buff.length : ℕ),
        { s with calls := s.calls + 1, delivered := s.delivered ++ [buff.take k] })
  send buff s := (true, { s with delivered := s.delivered ++ [buff] })

def received (s : Wire) : List Packet := s.delivered.flatMap parsePackets

lemma delivers : Delivers socket received where
  trySend_le buff s := by
    cases ha : s.answers s.calls <;> simp [socket, ha]
  received_trySend buff s := by
    cases ha : s.answers s.calls with
    | none => simp [socket, ha, received, parsePackets]
    | some k =>
      simp only [socket, ha, received, List.flatMap_append, List.flatMap_cons, List.flatMap_nil,
        List.append_nil, Int.toNat_natCast]
      congr 2
      rcases le_total k buff.length with hk | hk
      · rw [min_eq_left hk]
      · rw [min_eq_right hk, List.take_of_length_le hk, List.take_length]

end Wire

inductive ConnectionCall where
  | write (virtid : UInt8) (buff : Bytes)
  | flush

def ConnectionCall.Fits : ConnectionCall → Prop
  | .write _ buff => buff.length < 2147483648
  | .flush => True

instance : DecidablePred ConnectionCall.Fits := fun op => match op with
  | .write _ buff => inferInstanceAs (Decidable (buff.length < 2147483648))
  | .flush => inferInstanceAs (Decidable True)

structure Connection where
  writer : BufferedConnectionWriter
  wire : Wire
  reported : UInt8 → Bytes

namespace Connection

def start (packetsize : ℕ) (answers : ℕ → Option ℕ) : Connection :=
  ⟨create packetsize, ⟨answers, 0, []⟩, fun _ => []⟩

def call (c : Connection) : ConnectionCall → Connection
  | .write virtid buff =>
    let (written, writer, wire) := c.writer.write Wire.socket virtid buff false c.wire
    ⟨writer, wire, Function.update c.reported virtid (c.reported virtid ++ buff.take written.toNat)⟩
  | .flush =>
    let (_, writer, wire) := c.writer.flush Wire.socket false c.wire
    { c with writer := writer, wire := wire }

def run (c : Connection) (calls : List ConnectionCall) : Connection := calls.foldl call c

def Accounted (c : Connection) : Prop :=
  ∃ sent, Tracks Wire.received c.writer c.wire sent ∧ ∀ v, payloadOf v sent = c.reported v

lemma payloadOf_adds {virtid : UInt8} {bytes : Bytes} {added : List Packet}
    (h : Tracks.Adds virtid bytes added) (v : UInt8) :
    payloadOf v added = if v = virtid then bytes else [] := by
  obtain ⟨hv, rfl⟩ := h
  by_cases hvv : v = virtid
  · subst hvv
    rw [if_pos rfl, payloadOf, List.filter_eq_self.mpr (by simpa using hv)]
  · rw [if_neg hvv, payloadOf, List.filter_eq_nil_iff.mpr, List.flatMap_nil]
    intro p hp
    simpa [hv p hp] using Ne.symm hvv

lemma Accounted.call {c : Connection} (h : c.Accounted) {op : ConnectionCall} (hop : op.Fits) :
    (c.call op).Accounted := by
  obtain ⟨sent, htr, hrep⟩ := h
  cases op with
  | write virtid buff =>
    obtain ⟨added, hadd, htr'⟩ := htr.write_taken Wire.delivers virtid hop
    refine ⟨sent ++ added, htr', fun v => ?_⟩
    rw [payloadOf_append, hrep, payloadOf_adds hadd]
    by_cases hv : v = virtid
    · subst hv
      simp [Connection.call]
    · simp [Connection.call, hv]
  | flush => exact ⟨sent, (htr.flushInternal Wire.delivers).1, hrep⟩

lemma Accounted.run {c : Connection} (h : c.Accounted) {calls : List ConnectionCall}
    (hcalls : ∀ op ∈ calls, op.Fits) : (c.run calls).Accounted := by
  induction calls generalizing c with
  | nil => exact h
  | cons op calls ih =>
    rw [List.forall_mem_cons] at hcalls
    exact ih (h.call hcalls.1) hcalls.2

lemma start_tracks {packetsize : ℕ} (hmin : 4 ≤ packetsize) (hmax : packetsize ≤ 65537) (answers : ℕ → Option ℕ) :
    Tracks Wire.received (start packetsize answers).writer (start packetsize answers).wire [] := by
  have hroom := create_capacity (by omega : 3 ≤ packetsize) hmax
  exact ⟨by simp only [start]; omega, [], rfl, by simp, rfl⟩

lemma start_accounted {packetsize : ℕ} (hmin : 4 ≤ packetsize) (hmax : packetsize ≤ 65537)
    (answers : ℕ → Option ℕ) : (start packetsize answers).Accounted :=
  ⟨[], start_tracks hmin hmax answers, fun _ => rfl⟩

theorem parsed_append_buffered (packetsize : ℕ) (hmin : 4 ≤ packetsize) (hmax : packetsize ≤ 65537)
    (answers : ℕ → Option ℕ) {calls : List ConnectionCall} (hcalls : ∀ op ∈ calls, op.Fits) (virtid : UInt8) :
    let c := (start packetsize answers).run calls
    payloadOf virtid (c.wire.delivered.flatMap parsePackets) ++ payloadOf virtid (parsePackets c.writer.buffer) =
      c.reported virtid := by
  obtain ⟨sent, htr, hrep⟩ := (start_accounted hmin hmax answers).run hcalls
  exact (htr.payload virtid).trans (hrep virtid)

section Overflow

variable {virtid : UInt8} {rest : Bytes} {w : BufferedConnectionWriter} {s : Wire} {size : ℕ}

lemma flushInternal_all (hanswers : ∀ n, s.answers n = some size) (hsize : w.buffer.length ≤ size) :
    let r := w.flushInternal Wire.socket false s
    r.1 = true ∧ r.2.1 = { w with buffer := [] } ∧ r.2.2.answers = s.answers := by
  simp [flushInternal, Wire.socket, hanswers, hsize]

lemma writeLoop_all (hanswers : ∀ n, s.answers n = some size) (hempty : w.buffer = []) (hroom : 1 ≤ w.capacity)
    (hsize : w.capacity + 3 ≤ size) (fuel : ℕ) (hfuel : rest.length < fuel) :
    (writeLoop Wire.socket virtid false fuel w rest s).1 = 0 := by
  induction fuel generalizing w s rest with
  | zero => omega
  | succ fuel ih =>
    by_cases hfull : w.capacity ≤ rest.length
    · have hfill : w.fill virtid rest = (w.pushBytes virtid (rest.take w.capacity), w.capacity, true) := by
        simp only [fill, hempty, List.length_nil, Nat.zero_add, Nat.sub_zero]
        rw [if_pos hfull, if_pos (by omega)]
      have hpushed : (w.pushBytes virtid (rest.take w.capacity)).buffer.length ≤ size := by
        simp only [pushBytes, hempty, List.length_append, htons_length, List.length_nil, List.length_singleton,
          List.length_take]
        omega
      obtain ⟨hgood, hw, hsame⟩ := flushInternal_all hanswers hpushed
      simp only [writeLoop, hfill, if_true, hgood, hw]
      split_ifs with hdone
      · rfl
      · refine ih (fun n => ?_) rfl hroom hsize ?_
        · rw [hsame]
          exact hanswers n
        · rw [List.length_drop]
          omega
    · have hfill : w.fill virtid rest = (w.pushBytes virtid rest, rest.length, false) := by
        simp only [fill, hempty, List.length_nil, Nat.zero_add, if_neg hfull]
      simp [writeLoop, hfill]

lemma write_all {packetsize : ℕ} (hmin : 4 ≤ packetsize) (hmax : packetsize ≤ 65537) (virtid : UInt8) (buff : Bytes) :
    ((create packetsize).write Wire.socket virtid buff false ⟨fun _ => some packetsize, 0, []⟩).1 =
      toInt buff.length := by
  have hcapacity := create_capacity (by omega : 3 ≤ packetsize) hmax
  have hloop := @writeLoop_all virtid buff (create packetsize) ⟨fun _ => some packetsize, 0, []⟩ packetsize
    (fun _ => rfl) rfl (by omega) (by omega) _ (Nat.lt_succ_self _)
  have hroom : (create packetsize).makeRoom Wire.socket buff.length false ⟨fun _ => some packetsize, 0, []⟩ =
      (true, create packetsize, ⟨fun _ => some packetsize, 0, []⟩) := if_neg fun h => absurd h.1 (lt_irrefl 0)
  simp only [write, hroom, if_true, hloop, Nat.sub_zero]

end Overflow

theorem not_reported_from_half :
    ¬ ∀ (packetsize : ℕ), 4 ≤ packetsize → packetsize ≤ 65537 →
      ∀ (answers : ℕ → Option ℕ) (calls : List ConnectionCall) (virtid : UInt8),
        let c := (start packetsize answers).run calls
        payloadOf virtid (c.wire.delivered.flatMap parsePackets) ++ payloadOf virtid (parsePackets c.writer.buffer) =
          c.reported virtid := by
  intro h
  obtain ⟨buff, hbuff⟩ : ∃ buff : Bytes, buff.length = 2147483648 := ⟨List.replicate _ 0, List.length_replicate⟩
  have hstart := start_tracks (by decide : 4 ≤ 1472) (by decide) fun _ => some 1472
  obtain ⟨added, taken, hres, htaken, hadd, htr⟩ := hstart.write Wire.delivers 33 buff
  have hnegative : toInt buff.length = -2147483648 := by
    rw [hbuff]
    rfl
  have hwritten := write_all (by decide : 4 ≤ 1472) (by decide) 33 buff
  rw [hnegative] at hwritten
  have htaken : taken = buff.length := by
    have := hres.symm.trans hwritten
    simp only [toInt] at this
    omega
  have hpayload : payloadOf 33 ([] ++ added) = buff := by
    rw [List.nil_append, payloadOf_adds hadd, if_pos rfl, htaken, List.take_length]
  have hreported : ((start 1472 fun _ => some 1472).call (.write 33 buff)).reported 33 = [] := by
    have : ((start 1472 fun _ => some 1472).call (.write 33 buff)).reported 33 =
        [] ++ buff.take ((create 1472).write Wire.socket 33 buff false ⟨fun _ => some 1472, 0, []⟩).1.toNat := rfl
    rw [this, hwritten]
    rfl
  have heq := (htr.payload 33).symm.trans (h 1472 (by decide) (by decide) (fun _ => some 1472) [.write 33 buff] 33)
  have hnil : buff = [] := hpayload.symm.trans (heq.trans hreported)
  rw [hnil] at hbuff
  simp at hbuff

theorem parsed_append_buffered_example :
    let c := (start 8 (fun n => if n = 0 then some 3 else none)).run
      [.write 33 (ascii "0123456789abc"), .flush, .write 35 (ascii "xy")]
    payloadOf 33 (c.wire.delivered.flatMap parsePackets) ++ payloadOf 33 (parsePackets c.writer.buffer) =
      c.reported 33 :=
  parsed_append_buffered 8 (by decide) (by decide) _ (by decide) 33

end Connection

end Turbopump
