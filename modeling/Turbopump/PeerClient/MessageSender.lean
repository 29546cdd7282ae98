import Turbopump.PeerServer.Delivery
import Turbopump.PeerServer.PeerCommandRunner

/-! Messages on the connection's own stream, from the sender that packs them to the commands that the peer makes of
their packets. -/

namespace Turbopump

/-- The ids that `Api::command_impl` knows: `Write` and its internal id, `Read`, `ListKeys`, `Drop`, `Delete`,
`AddPeer`, `RemovePeer`, `Wait`, `Copy`, `AckWrite`, `Sync`, `KeyRequest`, `OfferWrite`, `DemandWrite` and the three
ids of `Status`. -/
def commandIds : List UInt8 := [0, 100, 2, 3, 4, 5, 6, 7, 8, 10, 101, 102, 103, 105, 106, 107, 108, 109]

structure Api (χ γ : Type) where
  unpacks : UInt8 → Bytes → Bool
  make : UInt8 → Bytes → χ → γ × χ
  finished : γ → Bool
  run : γ → Bytes → χ → γ × χ

namespace Api

variable {χ γ : Type} (A : Api χ γ)

def center : CommandCenter χ γ where
  command id buff c :=
    if id ∈ commandIds ∧ A.unpacks id buff then
      let (cmd, c) := A.make id buff c
      (some cmd, c)
    else (none, c)
  finished := A.finished
  run := A.run

def Commands (payload : Bytes) : Prop := match getNext payload with
  | (none, _) => False
  | (some header, _) => header.virtid ∈ commandIds ∧ A.unpacks header.virtid header.payload

end Api

namespace MessageSender

open BufferedConnectionWriter PeerCommandRunner

variable {σ χ γ : Type}

def sized (buff : Bytes) : Bytes := buff.take (buff.length % 2 ^ 32)

def reqHeader (id : UInt8) (request : Bytes) : Bytes := package id (sized request)

def sendMessage (S : Socket σ) (w : BufferedConnectionWriter) (message : Bytes) (blocking : Bool) (s : σ) :
    BufferedConnectionWriter × σ :=
  let (_, w, s) := w.write S 0 (sized message) blocking s
  let (_, w, s) := w.flush S blocking s
  (w, s)

structure Accepts (S : Socket σ) (received : σ → List Packet) : Prop extends Delivers S received where
  received_send : ∀ buff s, ∃ k, received (S.send buff s).2 = received s ++ parsePackets (buff.take k)

structure Follows (received : σ → List Packet) (base : List Packet) (w : BufferedConnectionWriter) (s : σ)
    (sent : List Packet) : Prop where
  room : 1 ≤ w.capacity ∧ w.capacity ≤ 65534
  buffered : ∃ arrived ps, received s = base ++ arrived ∧ w.buffer = packetFraming.encodeAll ps ∧
    (∀ p ∈ ps, p.payload.length ≤ w.capacity) ∧ (arrived ++ ps).Sublist sent

def piecesFrom (capacity : ℕ) : ℕ → Bytes → List Bytes
  | 0, _ => []
  | fuel + 1, rest =>
    if rest.length ≤ capacity then [rest] else rest.take capacity :: piecesFrom capacity fuel (rest.drop capacity)

def pieces (capacity : ℕ) (message : Bytes) : List Bytes := piecesFrom capacity (message.length + 1) message

section Writer

variable {S : Socket σ} {received : σ → List Packet} {base : List Packet} {w : BufferedConnectionWriter} {s : σ}
  {sent : List Packet} (blocking : Bool)

lemma Follows.flushInternal (hS : Accepts S received) (h : Follows received base w s sent) :
    let r := w.flushInternal S blocking s
    Follows received base r.2.1 r.2.2 sent ∧ r.2.1.capacity = w.capacity ∧ (r.1 = true → r.2.1.buffer = []) := by
  obtain ⟨hroom, arrived, ps, hbase, hbuf, hsmall, hsub⟩ := h
  cases blocking with
  | true =>
    obtain ⟨k, hk⟩ := hS.received_send w.buffer s
    simp only [BufferedConnectionWriter.flushInternal, if_true]
    refine ⟨⟨hroom, arrived ++ ps.take (packetFraming.whole ps k), [], ?_, rfl, by simp, ?_⟩, trivial, fun _ => trivial⟩
    · rw [hk, hbase, hbuf, parsePackets, Framing.decodeAll_take, List.append_assoc]
    · rw [List.append_nil]
      exact ((List.take_sublist _ _).append_left arrived).trans hsub
  | false =>
    have htracks : Tracks received w s (received s ++ ps) := ⟨hroom, ps, hbuf, hsmall, rfl⟩
    obtain ⟨⟨hroom', ps', hbuf', hsmall', hsent⟩, hcapacity, hempty⟩ := htracks.flushInternal hS.toDelivers
    obtain ⟨more, hmore⟩ := Tracks.received_flushInternal hS.toDelivers w s
    refine ⟨⟨hroom', arrived ++ more, ps', ?_, hbuf', hsmall', ?_⟩, hcapacity, hempty⟩
    · rw [← hmore, hbase, List.append_assoc]
    · rw [← hmore, List.append_assoc, List.append_cancel_left_eq] at hsent
      rwa [List.append_assoc, hsent]

lemma Follows.pushBytes (h : Follows received base w s sent) (virtid : UInt8) (buff : Bytes)
    (hb : buff.length ≤ w.capacity) :
    ∃ p, p.virtid = virtid ∧ p.payload = buff ∧ Follows received base (w.pushBytes virtid buff) s (sent ++ [p]) := by
  obtain ⟨⟨hone, hcap⟩, arrived, ps, hbase, hbuf, hsmall, hsub⟩ := h
  refine ⟨⟨virtid, buff, by omega⟩, rfl, rfl, ⟨hone, hcap⟩, arrived, ps ++ [⟨virtid, buff, by omega⟩],
    hbase, ?_, ?_, ?_⟩
  · simp [BufferedConnectionWriter.pushBytes, hbuf, Packet.encode, package]
  · intro p hp
    rcases List.mem_append.1 hp with hp | hp
    · exact hsmall p hp
    · obtain rfl := List.mem_singleton.1 hp
      exact hb
  · rw [← List.append_assoc]
    exact hsub.append_right _

lemma Follows.flushIf (hS : Accepts S received) (h : Follows received base w s sent) (full : Bool) :
    ∃ good w' s', (if full then w.flushInternal S blocking s else (true, w, s)) = (good, w', s') ∧
      Follows received base w' s' sent ∧ w'.capacity = w.capacity ∧
      (good = true → full = true → w'.buffer = []) := by
  cases full with
  | true =>
    obtain ⟨hfollows, hcapacity, hempty⟩ := h.flushInternal blocking hS
    exact ⟨_, _, _, rfl, hfollows, hcapacity, fun hgood _ => hempty hgood⟩
  | false => exact ⟨true, w, s, rfl, h, rfl, by simp⟩

def Pushed (virtid : UInt8) (cut : List Bytes) (added : List Packet) : Prop :=
  (∀ p ∈ added, p.virtid = virtid) ∧ added.map Packet.payload <+: cut

lemma Follows.fill_last (h : Follows received base w s sent) (virtid : UInt8) {rest : Bytes}
    (hroom : w.buffer.length = 0 ∨ w.buffer.length + rest.length ≤ w.capacity) (hlast : rest.length ≤ w.capacity) :
    let r := w.fill virtid rest
    rest.length ≤ r.2.1 ∧ r.1.capacity = w.capacity ∧
      ∃ added, Pushed virtid [rest] added ∧ Follows received base r.1 s (sent ++ added) := by
  have hone := h.room.1
  simp only [BufferedConnectionWriter.fill]
  by_cases hfull : w.capacity ≤ w.buffer.length + rest.length
  · by_cases hspace : w.buffer.length < w.capacity
    · have htake : rest.take (w.capacity - w.buffer.length) = rest := List.take_of_length_le (by omega)
      obtain ⟨p, hv, hp, hpush⟩ := h.pushBytes virtid rest hlast
      simp only [hfull, hspace, if_true, htake]
      exact ⟨by omega, rfl, [p], ⟨by simpa using hv, by simp [hp]⟩, hpush⟩
    · simp only [hfull, hspace, if_true, if_false]
      exact ⟨by omega, trivial, [], ⟨by simp, List.nil_prefix⟩, by simpa using h⟩
  · obtain ⟨p, hv, hp, hpush⟩ := h.pushBytes virtid rest hlast
    simp only [hfull, if_false]
    exact ⟨le_rfl, rfl, [p], ⟨by simpa using hv, by simp [hp]⟩, hpush⟩

lemma Follows.writeLoop (hS : Accepts S received) (virtid : UInt8) (fuel : ℕ) (rest : Bytes)
    (h : Follows received base w s sent)
    (hroom : w.buffer.length = 0 ∨ w.buffer.length + rest.length ≤ w.capacity) (hfuel : rest.length < fuel) :
    let r := BufferedConnectionWriter.writeLoop S virtid blocking fuel w rest s
    ∃ added, Pushed virtid (piecesFrom w.capacity fuel rest) added ∧
      Follows received base r.2.1 r.2.2 (sent ++ added) ∧ r.2.1.capacity = w.capacity := by
  induction fuel generalizing w s sent rest with
  | zero => omega
  | succ fuel ih =>
    have hone := h.room.1
    by_cases hlast : rest.length ≤ w.capacity
    · obtain ⟨htaken, hcapacity, added, hpushed, hfollows⟩ := h.fill_last virtid hroom hlast
      rcases hf : w.fill virtid rest with ⟨w₁, n, full⟩
      simp only [hf] at htaken hcapacity hfollows
      obtain ⟨good, w₂, s₂, hgo, hfollows, hcapacity₂, -⟩ := hfollows.flushIf blocking hS full
      have hdone : (rest.drop n).length = 0 := by
        rw [List.length_drop]
        omega
      simp only [BufferedConnectionWriter.writeLoop, hf, hgo, hdone, if_true, piecesFrom, hlast]
      exact ⟨added, hpushed, hfollows, hcapacity₂.trans hcapacity⟩
    · have hempty : w.buffer.length = 0 := by omega
      have hlen : (rest.take w.capacity).length ≤ w.capacity := by
        rw [List.length_take]
        omega
      obtain ⟨p, hv, hp, hpush⟩ := h.pushBytes virtid _ hlen
      have hf : w.fill virtid rest = (w.pushBytes virtid (rest.take w.capacity), w.capacity, true) := by
        simp only [BufferedConnectionWriter.fill, hempty, Nat.zero_add, Nat.sub_zero]
        rw [if_pos (by omega), if_pos (by omega)]
      obtain ⟨good, w₂, s₂, hgo, hfollows, hcapacity, hflushed⟩ := hpush.flushIf blocking hS true
      have hrest : (rest.drop w.capacity).length ≠ 0 := by
        rw [List.length_drop]
        omega
      rw [if_pos rfl] at hgo
      simp only [BufferedConnectionWriter.writeLoop, hf, if_true, hgo, hrest, if_false, piecesFrom, hlast]
      cases good with
      | true =>
        have hnil : w₂.buffer.length = 0 := by rw [hflushed rfl rfl, List.length_nil]
        obtain ⟨added, ⟨hvirtid, hcut⟩, hfollows', hcapacity'⟩ := ih (rest.drop w.capacity) hfollows (Or.inl hnil) (by
          rw [List.length_drop]
          omega)
        have hsame : w₂.capacity = w.capacity := hcapacity
        rw [hsame] at hcut hcapacity'
        refine ⟨p :: added, ⟨?_, ?_⟩, ?_, hcapacity'⟩
        · simpa [hv] using hvirtid
        · simpa [hp] using hcut
        · simpa using hfollows'
      | false => exact ⟨[p], ⟨by simpa using hv, by simp [hp]⟩, hfollows, hcapacity⟩

lemma Follows.write (hS : Accepts S received) (h : Follows received base w s sent) (virtid : UInt8) (buff : Bytes) :
    let r := w.write S virtid buff blocking s
    ∃ added, Pushed virtid (pieces w.capacity buff) added ∧
      Follows received base r.2.1 r.2.2 (sent ++ added) ∧ r.2.1.capacity = w.capacity := by
  by_cases hflush : 0 < w.buffer.length ∧ w.capacity < w.buffer.length + buff.length
  · obtain ⟨hfollows, hcapacity, hempty⟩ := h.flushInternal blocking hS
    simp only [BufferedConnectionWriter.write, makeRoom, hflush, and_self, if_true]
    split
    case isTrue hgood =>
      have hloop := hfollows.writeLoop blocking hS virtid (buff.length + 1) buff
        (Or.inl (by rw [hempty hgood]; rfl)) (Nat.lt_succ_self _)
      rwa [hcapacity] at hloop
    case isFalse => exact ⟨[], ⟨by simp, List.nil_prefix⟩, by simpa using hfollows, hcapacity⟩
  · simp only [BufferedConnectionWriter.write, makeRoom, hflush, if_false, if_true]
    exact h.writeLoop blocking hS virtid (buff.length + 1) buff (by omega) (Nat.lt_succ_self _)

lemma Follows.sendMessage (hS : Accepts S received) (h : Follows received base w s sent) (message : Bytes) :
    let r := sendMessage S w message blocking s
    ∃ added, Pushed 0 (pieces w.capacity (sized message)) added ∧
      Follows received base r.1 r.2 (sent ++ added) := by
  obtain ⟨added, hpushed, hfollows, -⟩ := h.write blocking hS 0 (sized message)
  exact ⟨added, hpushed, (hfollows.flushInternal blocking hS).1⟩

end Writer

def Quiet (news : List Event) : Prop := ∀ command, Event.created command ∉ news

def Once (id : UInt8) (request body : Bytes) (n : ℕ) (news : List Event) : Prop :=
  ∃ before payload after header, news = before ++ [.parsed payload, .created n, .ran n body] ++ after ∧
    (∀ e ∈ before ++ after, ∃ other, e = Event.parsed other) ∧
    getNext payload = (some header, body) ∧ header.virtid = id ∧ header.payload = request

def Intact (A : Api χ γ) (id : UInt8) (request body : Bytes) (r : PeerCommandRunner χ γ) (arrived : List Packet) :
    Prop :=
  ∃ news, (arrived.foldl (handle A.center) r).trace = r.trace ++ news ∧
    (Quiet news ∨ Once id request body r.heap.length news)

/-- Whatever is buffered before the message and whatever the socket takes: what has arrived or is buffered after it
is some of what was buffered, then some packets of the message; and whichever of these arrive, the peer's runner, that
has handled anything else before, handles them as the message or as no command. -/
def HandledWhole (A : Api χ γ) (center : χ) (packetsize : ℕ) (id : UInt8) (request body : Bytes) : Prop :=
  ∀ (σ : Type) (S : Socket σ) (received : σ → List Packet), Accepts S received →
    ∀ (blocking : Bool) (s : σ) (buffered : List Packet),
    (∀ p ∈ buffered, p.payload.length ≤ (BufferedConnectionWriter.create packetsize).capacity) →
    ∃ before sent,
      (let r := sendMessage S { BufferedConnectionWriter.create packetsize with
        buffer := packetFraming.encodeAll buffered }
        (reqHeader id request ++ body) blocking s
      received r.2 ++ parsePackets r.1.buffer = received s ++ before ++ sent) ∧
      before.Sublist buffered ∧
      ∀ past arrived : List Packet, arrived.Sublist sent →
        Intact A id request body (past.foldl (handle A.center) (PeerCommandRunner.create center)) arrived

section Runner

variable {A : Api χ γ} {r : PeerCommandRunner χ γ} {p : Packet}

lemma handle_of_unfinished {command : ℕ} (h : r.unfinished A.center p.virtid = some command) :
    ∃ news, (r.handle A.center p).trace = r.trace ++ news ∧ Quiet news := by
  simp only [handle, h, runCommand]
  cases r.heap[command]? with
  | none => exact ⟨[], by simp, by simp [Quiet]⟩
  | some cmd => exact ⟨[.ran command p.payload], rfl, by simp [Quiet]⟩

lemma handle_quiet_of_idle (hidle : r.unfinished A.center p.virtid = none) (h : ¬ A.Commands p.payload) :
    (r.handle A.center p).trace = r.trace ++ [.parsed p.payload] ∧ (r.handle A.center p).commands = r.commands := by
  simp only [Api.Commands] at h
  simp only [handle, hidle, find]
  cases hnext : getNext p.payload with
  | mk header rest =>
    cases header with
    | none => exact ⟨rfl, rfl⟩
    | some header =>
      rw [hnext] at h
      simp only [Api.center, if_neg h]
      exact ⟨trivial, trivial⟩

lemma handle_quiet (h : ¬ A.Commands p.payload) :
    ∃ news, (r.handle A.center p).trace = r.trace ++ news ∧ Quiet news := by
  cases hidle : r.unfinished A.center p.virtid with
  | none => exact ⟨_, (handle_quiet_of_idle hidle h).1, by simp [Quiet]⟩
  | some command => exact handle_of_unfinished hidle

lemma foldl_handle_quiet (ps : List Packet) (h : ∀ p ∈ ps, ¬ A.Commands p.payload) :
    ∃ news, (ps.foldl (handle A.center) r).trace = r.trace ++ news ∧ Quiet news := by
  induction ps generalizing r with
  | nil => exact ⟨[], by simp, by simp [Quiet]⟩
  | cons p ps ih =>
    obtain ⟨first, hfirst, hquiet⟩ := handle_quiet (r := r) (h p List.mem_cons_self)
    obtain ⟨news, hnews, hquiet'⟩ := ih (r := r.handle A.center p) fun q hq => h q (List.mem_cons_of_mem _ hq)
    refine ⟨first ++ news, by rw [List.foldl_cons, hnews, hfirst, List.append_assoc], fun command hmem => ?_⟩
    rcases List.mem_append.1 hmem with hmem | hmem
    · exact hquiet command hmem
    · exact hquiet' command hmem

lemma handle_commands {header : Packet} {rest : Bytes} (hidle : r.unfinished A.center p.virtid = none)
    (hnext : getNext p.payload = (some header, rest)) (h : A.Commands p.payload) :
    (r.handle A.center p).trace =
      r.trace ++ [.parsed p.payload, .created r.heap.length, .ran r.heap.length rest] := by
  simp only [Api.Commands, hnext] at h
  have hget : ∀ cmd : γ, (r.heap ++ [cmd])[r.heap.length]? = some cmd := by simp
  have hcommand : A.center.command header.virtid header.payload r.center =
      (some (A.make header.virtid header.payload r.center).1, (A.make header.virtid header.payload r.center).2) := by
    simp only [Api.center, if_pos h]
  simp only [handle, hidle, find, hnext, hcommand, runCommand, hget]
  rw [List.append_assoc, List.append_assoc]
  rfl

lemma handle_message {id : UInt8} {request body : Bytes} (h : p.payload = package id request ++ body) :
    Intact A id request body r [p] := by
  have hlen : request.length ≤ 65535 := by
    have hfits := p.fits
    rw [h, List.length_append, package_length] at hfits
    omega
  have hnext : getNext p.payload = (some ⟨id, request, hlen⟩, body) := by
    rw [h]
    exact getNext_encode ⟨id, request, hlen⟩ body
  by_cases hcommands : A.Commands p.payload
  · cases hidle : r.unfinished A.center p.virtid with
    | some command =>
      obtain ⟨news, hnews, hquiet⟩ := handle_of_unfinished hidle
      exact ⟨news, hnews, Or.inl hquiet⟩
    | none =>
      refine ⟨_, handle_commands hidle hnext hcommands, Or.inr ?_⟩
      exact ⟨[], p.payload, [], _, rfl, by simp, hnext, rfl, rfl⟩
  · obtain ⟨news, hnews, hquiet⟩ := handle_quiet hcommands
    exact ⟨news, hnews, Or.inl hquiet⟩

lemma handle_parsed_mem {payload : Bytes} (h : Event.parsed payload ∈ (r.handle A.center p).trace) :
    Event.parsed payload ∈ r.trace ∨ p.payload = payload := by
  simp only [handle] at h
  cases hidle : r.unfinished A.center p.virtid with
  | some command =>
    rw [hidle] at h
    simp only [runCommand] at h
    cases hget : r.heap[command]? with
    | none => exact Or.inl (by simpa [hget] using h)
    | some cmd => exact Or.inl (by simpa [hget] using h)
  | none =>
    simp only [hidle, find] at h
    have hfirst : Event.parsed payload ∈ r.trace ++ [Event.parsed p.payload] →
        Event.parsed payload ∈ r.trace ∨ p.payload = payload := by
      intro h
      rcases List.mem_append.1 h with h | h
      · exact Or.inl h
      · exact Or.inr (Event.parsed.inj (List.mem_singleton.1 h)).symm
    cases hnext : getNext p.payload with
    | mk header rest =>
      cases header with
      | none =>
        simp only [hnext] at h
        exact hfirst h
      | some header =>
        cases hcommand : A.center.command header.virtid header.payload r.center with
        | mk cmd center =>
          cases cmd with
          | none =>
            simp only [hnext, hcommand] at h
            exact hfirst h
          | some cmd =>
            have hget : (r.heap ++ [cmd])[r.heap.length]? = some cmd := by simp
            simp only [hnext, hcommand, runCommand, hget] at h
            apply hfirst
            simpa only [List.mem_append, List.mem_singleton, reduceCtorEq, or_false] using h

lemma foldl_handle_parsed {payload : Bytes} (ps : List Packet)
    (h : Event.parsed payload ∈ (ps.foldl (handle A.center) r).trace) :
    Event.parsed payload ∈ r.trace ∨ ∃ p ∈ ps, p.payload = payload := by
  induction ps generalizing r with
  | nil => exact Or.inl h
  | cons p ps ih =>
    rcases ih h with h | ⟨q, hq, hpayload⟩
    · rcases handle_parsed_mem h with h | hpayload
      · exact Or.inl h
      · exact Or.inr ⟨p, List.mem_cons_self, hpayload⟩
    · exact Or.inr ⟨q, List.mem_cons_of_mem _ hq, hpayload⟩

lemma foldl_handle_commands (ps : List Packet) (hidle : r.commands = fun _ => none)
    (h : ∃ p ∈ ps, A.Commands p.payload) : ∃ command, Event.created command ∈ (ps.foldl (handle A.center) r).trace := by
  induction ps generalizing r with
  | nil => simp at h
  | cons p ps ih =>
    have hunfinished : r.unfinished A.center p.virtid = none := by simp [unfinished, hidle]
    by_cases hp : A.Commands p.payload
    · cases hnext : getNext p.payload with
      | mk header rest =>
        cases header with
        | none => simp [Api.Commands, hnext] at hp
        | some header =>
          refine ⟨r.heap.length, (foldl_handle_trace ps).subset ?_⟩
          rw [handle_commands hunfinished hnext hp]
          simp
    · obtain ⟨-, hcommands⟩ := handle_quiet_of_idle hunfinished hp
      apply ih (hcommands.trans hidle)
      obtain ⟨q, hq, hcommand⟩ := h
      rcases List.mem_cons.1 hq with rfl | hq
      · exact absurd hcommand hp
      · exact ⟨q, hq, hcommand⟩

end Runner

section Pieces

variable {capacity : ℕ}

lemma length_of_mem_piecesFrom {fuel : ℕ} {rest piece : Bytes} (h : piece ∈ piecesFrom capacity fuel rest) :
    piece.length ≤ capacity := by
  induction fuel generalizing rest with
  | zero => simp [piecesFrom] at h
  | succ fuel ih =>
    simp only [piecesFrom] at h
    split_ifs at h with hlast
    · rwa [List.mem_singleton.1 h]
    · rcases List.mem_cons.1 h with rfl | h
      · rw [List.length_take]
        omega
      · exact ih h

lemma pieces_of_le {message : Bytes} (h : message.length ≤ capacity) : pieces capacity message = [message] := by
  simp only [pieces, piecesFrom, if_pos h]

lemma sized_of_lt {buff : Bytes} (h : buff.length < 2 ^ 32) : sized buff = buff := by
  rw [sized, Nat.mod_eq_of_lt h, List.take_length]

lemma getNext_total {buff rest : Bytes} {header : Packet} (h : getNext buff = (some header, rest)) :
    buff.length = header.payload.length + rest.length + 3 := by
  rcases buff with _ | ⟨hi, _ | ⟨lo, _ | ⟨virtid, tail⟩⟩⟩
  case cons.cons.cons =>
    simp only [getNext] at h
    split at h
    · simp at h
    · obtain ⟨hheader, rfl⟩ := Prod.mk.inj h
      obtain rfl := Option.some.inj hheader
      simp only [List.length_cons, List.length_take, List.length_drop]
      omega
  all_goals simp [getNext] at h

end Pieces

section Wire

variable {w : BufferedConnectionWriter} {s : Wire} {sent : List Packet}

lemma wire_accepts : Accepts Wire.socket Wire.received where
  toDelivers := Wire.delivers
  received_send buff s := ⟨buff.length, by simp [Wire.socket, Wire.received]⟩

lemma flush_wire (h : Tracks Wire.received w s sent) :
    let r := w.flushInternal Wire.socket true s
    r.1 = true ∧ r.2.1.buffer = [] ∧ r.2.1.capacity = w.capacity ∧ Tracks Wire.received r.2.1 r.2.2 sent := by
  obtain ⟨hroom, ps, hbuf, hsmall, hsent⟩ := h
  refine ⟨rfl, rfl, rfl, hroom, [], rfl, by simp, ?_⟩
  rw [List.append_nil, ← hsent]
  simp [flushInternal, Wire.socket, Wire.received, hbuf, parsePackets]

lemma writeLoop_wire (fuel : ℕ) (rest : Bytes) (h : Tracks Wire.received w s sent) (hempty : w.buffer = [])
    (hfuel : rest.length < fuel) :
    let r := writeLoop Wire.socket 0 true fuel w rest s
    ∃ added, added.map Packet.payload = piecesFrom w.capacity fuel rest ∧
      Tracks Wire.received r.2.1 r.2.2 (sent ++ added) := by
  induction fuel generalizing w s sent rest with
  | zero => omega
  | succ fuel ih =>
    have hone := h.room.1
    by_cases hfull : w.capacity ≤ rest.length
    · have hlen : (rest.take w.capacity).length ≤ w.capacity := by
        rw [List.length_take]
        omega
      obtain ⟨p, -, hp, hpush⟩ := h.pushBytes 0 _ hlen
      have hf : w.fill 0 rest = (w.pushBytes 0 (rest.take w.capacity), w.capacity, true) := by
        simp only [fill, hempty, List.length_nil, Nat.zero_add, Nat.sub_zero]
        rw [if_pos hfull, if_pos (by omega)]
      obtain ⟨hgood, hnil, hcap, htracks⟩ := flush_wire hpush
      have hcapacity : (flushInternal Wire.socket (w.pushBytes 0 (rest.take w.capacity)) true s).2.1.capacity =
        w.capacity := hcap
      simp only [writeLoop, hf, if_true, hgood, List.length_drop, piecesFrom]
      by_cases hlast : rest.length ≤ w.capacity
      · rw [if_pos hlast, if_pos (by omega : rest.length - w.capacity = 0)]
        have htake : rest.take w.capacity = rest := List.take_of_length_le hlast
        exact ⟨[p], by simp [hp, htake], htracks⟩
      · rw [if_neg hlast, if_neg (by omega : ¬ rest.length - w.capacity = 0)]
        obtain ⟨added, hcut, htracks'⟩ := ih (rest.drop w.capacity) htracks hnil (by
          rw [List.length_drop]
          omega)
        rw [hcapacity] at hcut
        exact ⟨p :: added, by simpa [hp] using hcut, by simpa using htracks'⟩
    · obtain ⟨p, -, hp, hpush⟩ := h.pushBytes 0 rest (by omega)
      have hf : w.fill 0 rest = (w.pushBytes 0 rest, rest.length, false) := by
        simp only [fill, hempty, List.length_nil, Nat.zero_add]
        rw [if_neg hfull]
      simp only [writeLoop, hf, Bool.false_eq_true, if_false, List.drop_length, List.length_nil, if_true, piecesFrom]
      rw [if_pos (by omega)]
      exact ⟨[p], by simp [hp], hpush⟩

lemma sendMessage_wire (h : Tracks Wire.received w s sent) (hempty : w.buffer = []) (message : Bytes) :
    let r := sendMessage Wire.socket w message true s
    ∃ added, added.map Packet.payload = pieces w.capacity (sized message) ∧
      Wire.received r.2 ++ parsePackets r.1.buffer = sent ++ added := by
  obtain ⟨added, hcut, htracks⟩ := writeLoop_wire ((sized message).length + 1) (sized message) h hempty (by omega)
  obtain ⟨-, hnil, -, -, ps, hbuf, -, hsent⟩ := flush_wire htracks
  have hwrite : w.write Wire.socket 0 (sized message) true s =
      let r := writeLoop Wire.socket 0 true ((sized message).length + 1) w (sized message) s
      (toInt ((sized message).length - r.1 : ℕ), r.2.1, r.2.2) := by
    simp [write, makeRoom, hempty]
  refine ⟨added, hcut, ?_⟩
  simp only [sendMessage, hwrite, flush]
  rw [← hsent, hbuf, parsePackets, Framing.decodeAll_encodeAll]

end Wire

section Main

variable {A : Api χ γ} {center : χ} {packetsize : ℕ} {id : UInt8} {request body : Bytes}

lemma not_handledWhole (hmin : 4 ≤ packetsize) (hmax : packetsize ≤ 65537)
    (hlong : packetsize - 3 < (package id request ++ body).length)
    (hpiece : ∃ piece ∈ pieces (packetsize - 3) (sized (reqHeader id request ++ body)), A.Commands piece) :
    ¬ HandledWhole A center packetsize id request body := by
  intro h
  have hcapacity := create_capacity (by omega : 3 ≤ packetsize) hmax
  have hstart : Tracks Wire.received (BufferedConnectionWriter.create packetsize) ⟨fun _ => none, 0, []⟩ [] :=
    Connection.start_tracks hmin hmax fun _ => none
  obtain ⟨before, sent, hsent, hbefore, hintact⟩ := h Wire Wire.socket Wire.received wire_accepts true
    ⟨fun _ => none, 0, []⟩ [] (by simp)
  obtain ⟨added, hcut, hadded⟩ := sendMessage_wire hstart rfl (reqHeader id request ++ body)
  obtain rfl : before = [] := List.sublist_nil.1 hbefore
  obtain rfl : added = sent := hadded.symm.trans hsent
  obtain ⟨news, hnews, hcase⟩ := hintact [] added (List.Sublist.refl _)
  simp only [List.foldl_nil, PeerCommandRunner.create, List.nil_append] at hnews
  obtain ⟨piece, hmem, hcommands⟩ := hpiece
  rw [← hcapacity, ← hcut] at hmem
  obtain ⟨p, hp, rfl⟩ := List.mem_map.1 hmem
  obtain ⟨command, hcreated⟩ := foldl_handle_commands (r := ⟨fun _ => none, [], center, []⟩) added rfl
    ⟨p, hp, hcommands⟩
  rw [hnews] at hcreated
  rcases hcase with hquiet | ⟨pre, payload, post, header, rfl, -, hnext, -, rfl⟩
  · exact hquiet command hcreated
  · have hparsed : Event.parsed payload ∈ (added.foldl (handle A.center) ⟨fun _ => none, [], center, []⟩).trace := by
      rw [hnews]
      simp
    rcases foldl_handle_parsed added hparsed with hnone | ⟨q, hq, rfl⟩
    · simp at hnone
    · have hlen : q.payload.length ≤ (BufferedConnectionWriter.create packetsize).capacity :=
        length_of_mem_piecesFrom (hcut ▸ List.mem_map_of_mem hq : q.payload ∈ piecesFrom _ _ _)
      have htotal := getNext_total hnext
      rw [List.length_append, package_length] at hlong
      omega

lemma handledWhole_of_fits (hmin : 4 ≤ packetsize) (hmax : packetsize ≤ 65537)
    (h : (package id request ++ body).length ≤ packetsize - 3 ∨
      ∀ piece ∈ pieces (packetsize - 3) (sized (reqHeader id request ++ body)), ¬ A.Commands piece) :
    HandledWhole A center packetsize id request body := by
  intro σ S received hS blocking s buffered hsmall
  have hcapacity := create_capacity (by omega : 3 ≤ packetsize) hmax
  have hstart : Follows received (received s)
      { BufferedConnectionWriter.create packetsize with buffer := packetFraming.encodeAll buffered } s buffered :=
    ⟨by simp only; omega, [], buffered, by simp, rfl, hsmall, by simp⟩
  obtain ⟨added, ⟨-, hcut⟩, -, arrived, ps, hreceived, hbuf, -, hsub⟩ :=
    hstart.sendMessage blocking hS (reqHeader id request ++ body)
  obtain ⟨before, sent, hsplit, hbefore, hsent⟩ := List.sublist_append_iff.1 hsub
  refine ⟨before, sent, ?_, hbefore, fun past some hsome => ?_⟩
  · simp only [hreceived, hbuf, parsePackets, Framing.decodeAll_encodeAll]
    rw [List.append_assoc, hsplit, List.append_assoc]
  · have hpayloads : (some.map Packet.payload).Sublist
        (pieces (packetsize - 3) (sized (reqHeader id request ++ body))) :=
      ((hsome.trans hsent).map _).trans (hcapacity ▸ hcut.sublist)
    rcases h with hfits | hquiet
    · have hrequest : request.length < 2 ^ 32 := by
        rw [List.length_append, package_length] at hfits
        omega
      rw [reqHeader, sized_of_lt hrequest, sized_of_lt (by omega), pieces_of_le hfits] at hpayloads
      cases some with
      | nil => exact ⟨[], by simp, Or.inl (by simp [Quiet])⟩
      | cons p rest =>
        have hone := hpayloads.length_le
        simp only [List.map_cons, List.length_cons, List.length_map, List.length_nil] at hone
        obtain rfl : rest = [] := List.length_eq_zero_iff.1 (by omega)
        exact handle_message (by simpa using hpayloads)
    · obtain ⟨news, hnews, hnone⟩ := foldl_handle_quiet (A := A)
        (r := past.foldl (handle A.center) (PeerCommandRunner.create center)) some fun p hp =>
          hquiet _ (hpayloads.subset (List.mem_map_of_mem hp))
      exact ⟨news, hnews, Or.inl hnone⟩

theorem handledWhole_iff (hmin : 4 ≤ packetsize) (hmax : packetsize ≤ 65537) :
    HandledWhole A center packetsize id request body ↔
      (package id request ++ body).length ≤ packetsize - 3 ∨
        ∀ piece ∈ pieces (packetsize - 3) (sized (reqHeader id request ++ body)), ¬ A.Commands piece := by
  constructor
  · intro h
    by_contra hneither
    push Not at hneither
    exact not_handledWhole hmin hmax hneither.1 hneither.2 h
  · exact handledWhole_of_fits hmin hmax

def syncRequest : Bytes := [0x92, 0xa0, 0x03]

def syncApi : Api Unit Unit := ⟨fun id request => id = 102 ∧ request = syncRequest, fun _ _ c => ((), c), fun _ => true,
  fun cmd _ c => (cmd, c)⟩

theorem handledWhole_iff_example : HandledWhole syncApi () 1472 102 syncRequest (ascii "1 2 3") :=
  (handledWhole_iff (by decide) (by decide)).2 (Or.inl (by decide))

theorem not_handledWhole_when_cut : ¬ HandledWhole syncApi () 1472 102 syncRequest (List.replicate 1500 48) := by
  have hrequest : sized syncRequest = syncRequest := sized_of_lt (by decide)
  have hmessage : sized (reqHeader 102 syncRequest ++ List.replicate 1500 48) =
      package 102 syncRequest ++ List.replicate 1500 48 := by
    rw [reqHeader, hrequest, sized_of_lt]
    rw [List.length_append, package_length, List.length_replicate]
    decide
  have hlen : (package 102 syncRequest ++ List.replicate 1500 48).length = 1506 := by
    rw [List.length_append, package_length, List.length_replicate]
    rfl
  have hfirst : (package 102 syncRequest ++ List.replicate 1500 48).take 1469 =
      package 102 syncRequest ++ List.replicate 1463 48 := by
    rw [List.take_append, List.take_of_length_le (by decide), List.take_replicate]
    rfl
  apply not_handledWhole (by decide) (by decide) (by omega)
  refine ⟨package 102 syncRequest ++ List.replicate 1463 48, ?_, ?_⟩
  · rw [hmessage, pieces, piecesFrom, if_neg (by omega), hfirst]
    exact List.mem_cons_self
  · have hnext := getNext_encode ⟨102, syncRequest, by decide⟩ (List.replicate 1463 48)
    simp only [Packet.encode] at hnext
    simp only [Api.Commands, hnext]
    decide

end Main

end MessageSender

end Turbopump
