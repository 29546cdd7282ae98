import Turbopump.PeerServer.Delivery

/-! Blocking and non-blocking callers on one writer, over a socket that accepts everything. A call is one
step under `_buffMutex`, except that a blocking flush gives the mutex up while its send is in flight. -/

namespace Turbopump

namespace ConcurrentWriters

open BufferedConnectionWriter

def openSocket : Socket (List Bytes) where
  trySend buff s := (buff.length, s ++ [buff])
  send buff s := (true, s ++ [buff])

inductive Pending where
  | leave
  | written (virtid : UInt8) (done : Bytes)
  | loop (virtid : UInt8) (done rest : Bytes)
  deriving DecidableEq

def Pending.Fits : Pending → Prop
  | .leave => True
  | .written _ done => done.length < 2147483648
  | .loop _ done rest => done.length + rest.length < 2147483648

/-- The blocking call that holds `_syncFlushMutex`: the bytes it copied out of the buffer, and whether
they have reached the socket. -/
structure Flight where
  copied : Bytes
  arrived : Bool
  pending : Pending

structure State where
  writer : BufferedConnectionWriter
  socket : List Bytes
  sync : Option Flight
  reported : UInt8 → Bytes

inductive Action where
  | write (virtid : UInt8) (buff : Bytes)
  | flush
  | blockingWrite (virtid : UInt8) (buff : Bytes)
  | blockingFlush
  | arrive
  | resume

/-- The number of bytes that a write returns fits an `int`. -/
def Action.Fits : Action → Prop
  | .write _ buff => buff.length < 2147483648
  | .blockingWrite _ buff => buff.length < 2147483648
  | _ => True

instance : DecidablePred Action.Fits := fun a => match a with
  | .write _ buff => inferInstanceAs (Decidable (buff.length < 2147483648))
  | .blockingWrite _ buff => inferInstanceAs (Decidable (buff.length < 2147483648))
  | .flush | .blockingFlush | .arrive | .resume => inferInstanceAs (Decidable True)

namespace State

def start (packetsize : ℕ) : State := ⟨create packetsize, [], none, fun _ => []⟩

def report (s : State) (virtid : UInt8) (done : Bytes) : State :=
  let written := toInt done.length
  { s with
    sync := none
    reported := Function.update s.reported virtid (s.reported virtid ++ done.take written.toNat) }

def takeOff (s : State) (w : BufferedConnectionWriter) (pending : Pending) : State :=
  -- The blocking branch of `flush_internal` up to the unlock.
  { s with writer := { w with buffer := [] }, sync := some ⟨w.buffer, false, pending⟩ }

def loopBody (s : State) (virtid : UInt8) (done rest : Bytes) : State :=
  -- One round of the loop of a blocking `write`, up to its flush or its return.
  let (w, packetSize, full) := s.writer.fill virtid rest
  let done := done ++ rest.take packetSize
  let rest := rest.drop packetSize
  if full then s.takeOff w (if rest.length = 0 then .written virtid done else .loop virtid done rest)
  else { s with writer := w }.report virtid done

def step (s : State) : Action → Option State
  | .write virtid buff =>
    let (written, w, socket) := s.writer.write openSocket virtid buff false s.socket
    some { s with
      writer := w
      socket := socket
      reported := Function.update s.reported virtid (s.reported virtid ++ buff.take written.toNat) }
  | .flush =>
    let (_, w, socket) := s.writer.flush openSocket false s.socket
    some { s with writer := w, socket := socket }
  | .blockingWrite virtid buff =>
    if s.sync.isSome then none
    else if 0 < s.writer.buffer.length ∧ s.writer.capacity < s.writer.buffer.length + buff.length then
      some (s.takeOff s.writer (.loop virtid [] buff))
    else some (s.loopBody virtid [] buff)
  | .blockingFlush => if s.sync.isSome then none else some (s.takeOff s.writer .leave)
  | .arrive => match s.sync with
    | some ⟨copied, false, pending⟩ =>
      some { s with socket := s.socket ++ [copied], sync := some ⟨copied, true, pending⟩ }
    | _ => none
  | .resume => match s.sync with
    | some ⟨_, true, .leave⟩ => some { s with sync := none }
    | some ⟨_, true, .written virtid done⟩ => some (s.report virtid done)
    | some ⟨_, true, .loop virtid done rest⟩ => some (s.loopBody virtid done rest)
    | _ => none

def writingOn (s : State) : Option UInt8 := match s.sync with
  | some ⟨_, _, .written virtid _⟩ => some virtid
  | some ⟨_, _, .loop virtid _ _⟩ => some virtid
  | _ => none

def underway (s : State) (v : UInt8) : Bytes := match s.sync with
  | some ⟨_, _, .written virtid done⟩ => if virtid = v then done else []
  | some ⟨_, _, .loop virtid done _⟩ => if virtid = v then done else []
  | _ => []

def inFlight (s : State) : Bytes := match s.sync with
  | some ⟨copied, false, _⟩ => copied
  | _ => []

def OneWriter (s : State) (v : UInt8) : Action → Prop
  | .write virtid _ => virtid = v → s.writingOn ≠ some v
  | _ => True

/-- The stream's bytes that reached the socket, are in flight or are in the buffer are those its
writes reported, or will report when the call in progress returns. -/
def Exact (s : State) (v : UInt8) : Prop :=
  payloadOf v (s.socket.flatMap parsePackets) ++ payloadOf v (parsePackets s.inFlight) ++
    payloadOf v (parsePackets s.writer.buffer) = s.reported v ++ s.underway v

instance (s : State) (v : UInt8) : Decidable (s.Exact v) := inferInstanceAs (Decidable (_ = _))

def Hands (s : State) (v : UInt8) : Action → Prop
  | .write virtid buff =>
    (payloadOf v (parsePackets s.writer.buffer) ≠ [] ∧
      s.writer.capacity ≤ s.writer.buffer.length + buff.length) ∨
    (virtid = v ∧ buff ≠ [] ∧ (s.writer.buffer.length + buff.length = s.writer.capacity ∨
      s.writer.capacity ≤ buff.length))
  | .flush => payloadOf v (parsePackets s.writer.buffer) ≠ []
  | _ => False

/-- A blocking writer finds room in the buffer when it takes the mutex again, and no non-blocking call
overtakes bytes of the stream that are in flight. -/
def Orderly (s : State) (v : UInt8) (a : Action) : Prop :=
  (∀ copied done rest, a = .resume → s.sync = some ⟨copied, true, .loop v done rest⟩ → rest ≠ [] →
    s.writer.buffer.length < s.writer.capacity) ∧
  (payloadOf v (parsePackets s.inFlight) ≠ [] → ¬ s.Hands v a)

end State

inductive Reaches (packetsize : ℕ) (P : State → Action → Prop) : State → Prop
  | start : Reaches packetsize P (State.start packetsize)
  | step {s s' : State} (a : Action) : Reaches packetsize P s → P s a → s.step a = some s' →
      Reaches packetsize P s'

def onSocket (socket : List Bytes) : List Packet := socket.flatMap parsePackets

lemma openSocket_delivers : Delivers openSocket onSocket where
  trySend_le _ _ := le_rfl
  received_trySend buff s := by simp [openSocket, onSocket]

lemma flushInternal_open (w : BufferedConnectionWriter) (socket : List Bytes) :
    w.flushInternal openSocket false socket = (true, { w with buffer := [] }, socket ++ [w.buffer]) := by
  simp [flushInternal, openSocket]

lemma writeLoop_below (w : BufferedConnectionWriter) (virtid : UInt8) (buff : Bytes) (fuel : ℕ)
    (socket : List Bytes) (h : w.buffer.length + buff.length < w.capacity) :
    (writeLoop openSocket virtid false (fuel + 1) w buff socket).2.2 = socket := by
  simp [writeLoop, fill, not_le.mpr h]

namespace State

variable {s : State} {v : UInt8}

lemma write_keeps {sent : List Packet} (h : Tracks onSocket s.writer s.socket sent) {virtid : UInt8}
    {buff : Bytes} (hands : ¬ s.Hands v (.write virtid buff)) :
    payloadOf v (onSocket (s.writer.write openSocket virtid buff false s.socket).2.2) =
      payloadOf v (onSocket s.socket) := by
  obtain ⟨added, taken, -, -, hadd, htr⟩ := h.write openSocket_delivers virtid buff
  obtain ⟨⟨hone, -⟩, ps, hbuf, -, hsent⟩ := h
  have hparse : parsePackets s.writer.buffer = ps := by
    rw [hbuf, parsePackets, Framing.decodeAll_encodeAll]
  simp only [Hands, hparse, not_or, not_and_or, not_not, not_le] at hands
  obtain ⟨hbuffered, hown⟩ := hands
  by_cases hbelow : s.writer.buffer.length + buff.length < s.writer.capacity
  · have hroom : ¬ (0 < s.writer.buffer.length ∧
        s.writer.capacity < s.writer.buffer.length + buff.length) := by omega
    simp only [write, makeRoom, hroom, if_false, if_true]
    rw [writeLoop_below _ _ _ _ _ hbelow]
  · have hps : payloadOf v ps = [] := by tauto
    by_cases hv : virtid = v ∧ buff ≠ []
    · obtain ⟨rfl, hne⟩ := hv
      have hcap : s.writer.buffer.length + buff.length ≠ s.writer.capacity ∧
          buff.length < s.writer.capacity := by
        rcases hown with h | h | h
        · exact (h rfl).elim
        · exact (hne h).elim
        · exact h
      have hroom : 0 < s.writer.buffer.length ∧
          s.writer.capacity < s.writer.buffer.length + buff.length := by omega
      simp only [write, makeRoom, hroom, and_self, if_true, flushInternal_open]
      rw [writeLoop_below _ _ _ _ _ (by simpa using hcap.2)]
      simp [onSocket, hparse, hps]
    · -- neither what was buffered nor what is added carries bytes of the stream
      have hnone : payloadOf v added = [] := by
        rw [Connection.payloadOf_adds hadd]
        split_ifs with hvv
        · have : buff = [] := by tauto
          simp [this]
        · rfl
      obtain ⟨new, hnew⟩ := Tracks.received_write openSocket_delivers s.writer virtid buff s.socket
      obtain ⟨-, ps', -, -, hsent'⟩ := htr
      have htotal := congrArg (payloadOf v) hsent'
      rw [← hsent, ← hnew] at htotal
      simp only [payloadOf_append, hps, hnone, List.append_nil, List.append_assoc,
        List.append_right_eq_self, List.append_eq_nil_iff] at htotal
      rw [← hnew, payloadOf_append, htotal.1, List.append_nil]

lemma fits_of_free {s : State} (h : s.sync = none) : ∀ flight, s.sync = some flight → flight.pending.Fits := by
  intro flight hflight
  rw [h] at hflight
  cases hflight

lemma report_eq (s : State) (virtid : UInt8) {done : Bytes} (h : done.length < 2147483648) :
    s.report virtid done =
      { s with sync := none, reported := Function.update s.reported virtid (s.reported virtid ++ done) } := by
  simp only [report, toInt_of_lt h, Int.toNat_natCast, List.take_length]

structure Sound (s : State) (v : UInt8) : Prop where
  tracks : ∃ sent, Tracks onSocket s.writer s.socket sent
  fits : ∀ flight, s.sync = some flight → flight.pending.Fits
  exact : s.Exact v

lemma tracks_landed {w w' : BufferedConnectionWriter} {socket socket' : List Bytes} {sent : List Packet}
    (h : Tracks onSocket w socket sent) (hcap : w'.capacity = w.capacity)
    (hbuf : w'.buffer = w.buffer ∨ w'.buffer = []) : ∃ sent', Tracks onSocket w' socket' sent' := by
  obtain ⟨hroom, ps, hps, hsmall, -⟩ := h
  rcases hbuf with hb | hb
  · exact ⟨_, hcap ▸ hroom, ps, hb.trans hps, hcap ▸ hsmall, rfl⟩
  · exact ⟨_, hcap ▸ hroom, [], hb, by simp, rfl⟩

lemma underway_eq_nil (h : s.writingOn ≠ some v) : s.underway v = [] := by
  rcases hs : s.sync with _ | ⟨copied, arrived, _ | ⟨virtid, done⟩ | ⟨virtid, done, rest⟩⟩ <;>
    simp_all [writingOn, underway]

lemma exact_of_sent {P P' B B' F A R : Bytes} (h : P' ++ B' = P ++ B ++ A) (hk : F ≠ [] → P' = P)
    (hr : P ++ F ++ B = R) : P' ++ F ++ B' = R ++ A := by
  by_cases hF : F = []
  · subst hF hr
    simpa using h
  · obtain rfl := hk hF
    rw [← hr]
    simp only [List.append_assoc, List.append_cancel_left_eq] at h ⊢
    rw [h]

lemma Sound.write (h : s.Sound v) {virtid : UInt8} {buff : Bytes}
    (hbuff : buff.length < 2147483648) (hone : s.OneWriter v (.write virtid buff))
    (hord : s.Orderly v (.write virtid buff)) {s' : State} (hs : s.step (.write virtid buff) = some s') :
    s'.Sound v := by
  obtain ⟨⟨sent, htr⟩, hfits, hex⟩ := h
  have hwrite := htr.write_taken openSocket_delivers virtid hbuff
  have hkeep := fun hF => write_keeps htr (hord.2 hF)
  rcases hw : s.writer.write openSocket virtid buff false s.socket with ⟨written, w, socket⟩
  simp only [hw] at hwrite hkeep
  obtain ⟨added, hadd, htr'⟩ := hwrite
  simp only [State.step, hw, Option.some.injEq] at hs
  subst hs
  refine ⟨⟨_, htr'⟩, hfits, ?_⟩
  have hsent := htr'.payload v
  rw [payloadOf_append, ← htr.payload v] at hsent
  have hmain := exact_of_sent hsent hkeep hex
  simp only [Exact, inFlight, underway, onSocket] at hmain ⊢
  rw [hmain, Connection.payloadOf_adds hadd]
  by_cases hv : virtid = v
  · subst hv
    have hnone := underway_eq_nil (hone rfl)
    simp only [underway] at hnone
    simp [hnone]
  · simp [Ne.symm hv]

lemma Sound.flush (h : s.Sound v) (hord : s.Orderly v .flush) {s' : State}
    (hs : s.step .flush = some s') : s'.Sound v := by
  obtain ⟨⟨sent, htr⟩, hfits, hex⟩ := h
  simp only [State.step, BufferedConnectionWriter.flush, flushInternal_open] at hs
  obtain rfl := Option.some.inj hs
  refine ⟨tracks_landed htr rfl (Or.inr rfl), hfits, ?_⟩
  have hkeep : payloadOf v (parsePackets s.inFlight) ≠ [] →
      payloadOf v (onSocket (s.socket ++ [s.writer.buffer])) = payloadOf v (onSocket s.socket) := by
    intro hF
    have hnone : payloadOf v (parsePackets s.writer.buffer) = [] := by
      simpa [Hands] using hord.2 hF
    simp [onSocket, hnone]
  have hsent : payloadOf v (onSocket (s.socket ++ [s.writer.buffer])) ++ [] =
      payloadOf v (onSocket s.socket) ++ payloadOf v (parsePackets s.writer.buffer) ++ [] := by
    simp [onSocket]
  have hmain := exact_of_sent hsent hkeep hex
  simp only [Exact, inFlight, underway, onSocket, List.append_nil] at hmain ⊢
  simpa [parsePackets] using hmain

lemma Sound.takeOff {w : BufferedConnectionWriter} {pending : Pending} {sent : List Packet}
    (htr : Tracks onSocket w s.socket sent) (hfits : pending.Fits)
    (hex : payloadOf v sent = s.reported v ++ (s.takeOff w pending).underway v) : (s.takeOff w pending).Sound v := by
  refine ⟨tracks_landed htr rfl (Or.inr rfl), fun flight hflight => Option.some.inj hflight ▸ hfits, ?_⟩
  rw [Exact, ← show s.reported v = (s.takeOff w pending).reported v from rfl, ← hex, ← htr.payload v]
  simp [State.takeOff, inFlight, parsePackets, onSocket]

lemma Sound.loopBody {virtid : UInt8} {done rest : Bytes} {sent : List Packet}
    (htr : Tracks onSocket s.writer s.socket sent) (hfits : done.length + rest.length < 2147483648)
    (hex : payloadOf v sent = s.reported v ++ if virtid = v then done else [])
    (hroom : virtid = v → rest ≠ [] → s.writer.buffer.length < s.writer.capacity) :
    (s.loopBody virtid done rest).Sound v := by
  have hfill := htr.fill virtid rest
  rcases hf : s.writer.fill virtid rest with ⟨w, n, full⟩
  simp only [hf] at hfill
  obtain ⟨-, -, -, added, hid, htr', hadd⟩ := hfill
  have hgain : payloadOf v (sent ++ added) =
      s.reported v ++ if virtid = v then done ++ rest.take n else [] := by
    rw [payloadOf_append, hex]
    by_cases hv : virtid = v
    · subst hv
      have hstart : s.writer.buffer.length < s.writer.capacity ∨ rest = [] := by
        by_cases hr : rest = []
        · exact Or.inr hr
        · exact Or.inl (hroom rfl hr)
      rw [Connection.payloadOf_adds (hadd hstart)]
      simp
    · have hnone : payloadOf v added = [] :=
        (Connection.payloadOf_adds (show Tracks.Adds virtid (added.flatMap Packet.payload) added from
          ⟨hid, rfl⟩) v).trans
          (if_neg (Ne.symm hv))
      simp [hv, hnone]
  have hdone : (done ++ rest.take n).length < 2147483648 := by
    rw [List.length_append, List.length_take]
    omega
  simp only [State.loopBody, hf]
  cases full with
  | true =>
    refine Sound.takeOff htr' ?_ ?_
    · split_ifs
      · exact hdone
      · simp only [Pending.Fits, List.length_append, List.length_take, List.length_drop]
        omega
    · rw [hgain]
      by_cases hr : (rest.drop n).length = 0 <;> simp only [hr, if_true, if_false, State.takeOff, underway]
  | false =>
    simp only [Bool.false_eq_true, if_false, report_eq _ virtid hdone]
    refine ⟨⟨_, htr'⟩, fits_of_free rfl, ?_⟩
    have hnow := htr'.payload v
    rw [hgain] at hnow
    simp only [Exact, inFlight, underway, onSocket] at hnow ⊢
    rw [show payloadOf v (parsePackets []) = [] by rfl, List.append_nil, hnow]
    by_cases hv : virtid = v
    · subst hv
      simp
    · simp [hv, Ne.symm hv]

lemma Sound.step (h : s.Sound v) {a : Action} (hfit : a.Fits) (hone : s.OneWriter v a) (hord : s.Orderly v a)
    {s' : State} (hs : s.step a = some s') : s'.Sound v := by
  cases a with
  | write virtid buff => exact h.write hfit hone hord hs
  | flush => exact h.flush hord hs
  | blockingWrite virtid buff =>
    obtain ⟨⟨sent, htr⟩, -, hex⟩ := h
    have hbuff : ([] : Bytes).length + buff.length < 2147483648 := (Nat.zero_add _).trans_lt hfit
    simp only [State.step] at hs
    split_ifs at hs with hbusy hfull
    all_goals
      have hfree : s.sync = none := by simpa using hbusy
      have hnow : payloadOf v sent = s.reported v := by
        rw [← htr.payload v]
        simpa [Exact, inFlight, underway, hfree, parsePackets, onSocket] using hex
      obtain rfl := Option.some.inj hs
    · exact Sound.takeOff htr hbuff (by simp [hnow, State.takeOff, underway])
    · refine Sound.loopBody htr hbuff (by simp [hnow]) ?_
      intro _ hne
      have := List.length_pos_iff.mpr hne
      have := htr.room.1
      omega
  | blockingFlush =>
    obtain ⟨⟨sent, htr⟩, -, hex⟩ := h
    simp only [State.step] at hs
    split_ifs at hs with hbusy
    have hfree : s.sync = none := by simpa using hbusy
    obtain rfl := Option.some.inj hs
    refine Sound.takeOff htr trivial ?_
    rw [← htr.payload v]
    simpa [Exact, inFlight, underway, hfree, parsePackets, onSocket, State.takeOff] using hex
  | arrive =>
    obtain ⟨⟨sent, htr⟩, hfits, hex⟩ := h
    simp only [State.step] at hs
    split at hs
    case h_2 => simp at hs
    case h_1 copied pending hsync =>
      obtain rfl := Option.some.inj hs
      refine ⟨tracks_landed htr rfl (Or.inl rfl), fun flight hflight => ?_, ?_⟩
      · obtain rfl := Option.some.inj hflight
        exact hfits ⟨copied, false, pending⟩ hsync
      cases pending <;> simpa [Exact, inFlight, underway, hsync, parsePackets] using hex
  | resume =>
    obtain ⟨⟨sent, htr⟩, hfits, hex⟩ := h
    have hnow := htr.payload v
    simp only [State.step] at hs
    split at hs
    case h_1 copied hsync =>
      obtain rfl := Option.some.inj hs
      refine ⟨⟨sent, htr⟩, fits_of_free rfl, ?_⟩
      simpa [Exact, inFlight, underway, hsync] using hex
    case h_2 copied virtid done hsync =>
      obtain rfl := Option.some.inj hs
      rw [report_eq _ virtid (hfits _ hsync)]
      refine ⟨⟨sent, htr⟩, fits_of_free rfl, ?_⟩
      simp only [Exact, inFlight, underway, hsync] at hex ⊢
      rw [hex]
      by_cases hv : virtid = v
      · subst hv
        simp
      · simp [hv, Ne.symm hv]
    case h_3 copied virtid done rest hsync =>
      obtain rfl := Option.some.inj hs
      refine Sound.loopBody htr (hfits _ hsync) ?_ ?_
      · rw [← hnow]
        simpa [Exact, inFlight, underway, hsync, parsePackets, onSocket] using hex
      · rintro rfl hne
        exact hord.1 copied done rest rfl hsync hne
    case h_4 => simp at hs

end State

lemma Reaches.sound {packetsize : ℕ} (hmin : 4 ≤ packetsize) (hmax : packetsize ≤ 65537) {v : UInt8}
    {s : State} (h : Reaches packetsize (fun s a => a.Fits ∧ s.OneWriter v a ∧ s.Orderly v a) s) : s.Sound v := by
  induction h with
  | start =>
    have hroom := create_capacity (by omega : 3 ≤ packetsize) hmax
    exact ⟨⟨[], by simp only [State.start]; omega, [], rfl, by simp, rfl⟩, State.fits_of_free rfl, rfl⟩
  | step a _ hp hs ih => exact ih.step hp.1 hp.2.1 hp.2.2 hs

theorem exact_of_orderly {packetsize : ℕ} (hmin : 4 ≤ packetsize) (hmax : packetsize ≤ 65537) {v : UInt8}
    {s : State} (h : Reaches packetsize (fun s a => a.Fits ∧ s.OneWriter v a ∧ s.Orderly v a) s) : s.Exact v :=
  (h.sound hmin hmax).exact

theorem exact_of_orderly_example :
    ∃ s, [Action.blockingWrite 1 (ascii "abcdef"), .arrive, .resume].foldlM State.step (State.start 8) = some s ∧
      s.Exact 1 := by
  have h₀ : Reaches 8 (fun s a => a.Fits ∧ s.OneWriter 1 a ∧ s.Orderly 1 a) (State.start 8) := .start
  have h₁ := h₀.step (.blockingWrite 1 (ascii "abcdef")) ⟨by decide, trivial, nofun, fun _ h => h⟩ rfl
  have h₂ := h₁.step .arrive ⟨trivial, trivial, nofun, fun _ h => h⟩ rfl
  have h₃ := h₂.step .resume ⟨trivial, trivial, fun _ _ _ _ _ _ => by decide, fun _ h => h⟩ rfl
  exact ⟨_, rfl, exact_of_orderly (by decide) (by decide) h₃⟩

theorem not_exact_when_buffer_refilled :
    ¬ ∀ s, Reaches 8 (fun s a => a.Fits ∧ s.OneWriter 1 a) s → s.sync = none → s.Exact 1 := by
  intro h
  have h₀ : Reaches 8 (fun s a => a.Fits ∧ s.OneWriter 1 a) (State.start 8) := .start
  have h₁ := h₀.step (.write 2 [97]) ⟨by decide, fun h => absurd h (by decide)⟩ rfl
  have h₂ := h₁.step (.blockingWrite 1 [120, 121]) ⟨by decide, trivial⟩ rfl
  have h₃ := h₂.step (.write 2 [98, 99]) ⟨by decide, fun h => absurd h (by decide)⟩ rfl
  have h₄ := h₃.step .arrive ⟨trivial, trivial⟩ rfl
  have h₅ := h₄.step .resume ⟨trivial, trivial⟩ rfl
  have h₆ := h₅.step .arrive ⟨trivial, trivial⟩ rfl
  have h₇ := h₆.step .resume ⟨trivial, trivial⟩ rfl
  exact absurd (h _ h₇ rfl) (by decide)

end ConcurrentWriters

end Turbopump
