import Turbopump.Api.WriteCommand
import Turbopump.PeerServer.PeerCommandRunner

/-! Write sessions on one stream: a packaged request, data packets, an empty packet. The dispatcher and
the command stay in step exactly when the store takes the write before the session's last packet. -/

namespace Turbopump

namespace WriteSessions

open PeerCommandRunner

variable {σ ω ρ κ : Type}

def answering (E : WriteEnv σ ω ρ) (opened : Write → σ → ω × σ) (answers : ℕ → Bool) :
    WriteEnv (σ × ℕ) ω ρ where
  store request := fun (s, calls) =>
    if answers calls then
      let (w, s) := opened request s
      (.accepted w, (s, calls + 1))
    else (.refused, (s, calls + 1))
  write w buff := fun (s, calls) =>
    let (w, s) := E.write w buff s
    (w, (s, calls))
  commit w close := fun (s, calls) =>
    let (reader, w, s) := E.commit w close s
    (reader, w, (s, calls))
  position := E.position
  version := E.version
  digest := E.digest
  onCommit params reader := fun (s, calls) =>
    let (params, s) := E.onCommit params reader s
    (params, (s, calls))

structure SessionCommand (ω : Type) where
  command : WriteCommand ω
  id : UInt8
  index : ℕ
  calls : ℕ

def writeIds : List UInt8 := [0, 100]

/-- What `Api` makes commands with: it gives the write commands their environments by id, which differ
in the callback. `answers i k` is what the store answers the `k`-th call of the `i`-th write command;
`unpack` is msgpack's, `other` makes all other commands. -/
structure Environment (σ ω ρ κ : Type) where
  env : UInt8 → WriteEnv σ ω ρ
  opened : Write → σ → ω × σ
  answers : ℕ → ℕ → Bool
  unpack : Bytes → Option Write
  other : CommandCenter σ κ

def SessionCommand.run (E : Environment σ ω ρ κ) (c : SessionCommand ω) (buff : Bytes) (s : σ) :
    SessionCommand ω × σ :=
  let (_, command, (s, calls)) := c.command.run (answering (E.env c.id) E.opened (E.answers c.index)) buff (s, c.calls)
  ({ c with command, calls }, s)

def center (E : Environment σ ω ρ κ) : CommandCenter (σ × ℕ) (SessionCommand ω ⊕ κ) where
  command id buff := fun (s, made) =>
    if id ∈ writeIds then match E.unpack buff with
      | some request => (some (.inl ⟨.create request, id, made, 0⟩), (s, made + 1))
      | none => (none, (s, made))
    else
      let (cmd, s) := E.other.command id buff s
      (cmd.map .inr, (s, made))
  finished
    | .inl c => c.command.finished
    | .inr c => E.other.finished c
  run
    | .inl c, buff, (s, made) =>
      let (c, s) := c.run E buff s
      (.inl c, (s, made))
    | .inr c, buff, (s, made) =>
      let (c, s) := E.other.run c buff s
      (.inr c, (s, made))

structure Session (E : Environment σ ω ρ κ) where
  id : UInt8
  write_id : id ∈ writeIds
  request : Write
  message : Bytes
  packed : E.unpack message = some request
  data : List Bytes
  nonempty : ∀ d ∈ data, d ≠ []
  header_fits : (package id message).length ≤ 65535
  data_fits : ∀ d ∈ data, d.length ≤ 65535

variable {E : Environment σ ω ρ κ}

namespace Session

def header (s : Session E) (virtid : UInt8) : Packet := ⟨virtid, package s.id s.message, s.header_fits⟩

def dataPackets (s : Session E) (virtid : UInt8) : List Packet :=
  s.data.attach.map fun d => ⟨virtid, d.1, s.data_fits d.1 d.2⟩

def ending (virtid : UInt8) : Packet := ⟨virtid, [], by decide⟩

def packets (s : Session E) (virtid : UInt8) : List Packet :=
  s.header virtid :: (s.dataPackets virtid ++ [ending virtid])

def opening (s : Session E) (command : ℕ) : List Event :=
  [Event.parsed (package s.id s.message), Event.created command, Event.ran command []]

def trace (s : Session E) (command : ℕ) : List Event :=
  s.opening command ++ (s.data.map (Event.ran command) ++ [Event.ran command []])

def Taken (s : Session E) (index : ℕ) : Prop :=
  s.request.name ≠ [] ∧ ∃ k ≤ s.data.length, E.answers index k = true

end Session

def traces (command : ℕ) : List (Session E) → List Event
  | [] => []
  | s :: ss => s.trace command ++ traces (command + 1) ss

section Command

variable {c : SessionCommand ω}

structure Waits (c : SessionCommand ω) (name : Bytes) (index calls : ℕ) : Prop where
  started : c.command.started = false
  finished : c.command.finished = false
  name_eq : c.command.instructions.name = name
  index_eq : c.index = index
  calls_eq : c.calls = calls

structure Writes (c : SessionCommand ω) : Prop where
  started : c.command.started = true
  finished : c.command.finished = false

lemma Waits.refused {name : Bytes} {index calls : ℕ} (h : Waits c name index calls) (hn : name ≠ [])
    (ha : E.answers index calls = false) (buff : Bytes) (s : σ) :
    Waits (c.run E buff s).1 name index (calls + 1) := by
  obtain ⟨hs, hf, rfl, rfl, rfl⟩ := h
  constructor <;> simp [SessionCommand.run, WriteCommand.run, WriteCommand.setStatus, answering, *]

lemma Waits.accepted {name : Bytes} {index calls : ℕ} (h : Waits c name index calls) (hn : name ≠ [])
    (ha : E.answers index calls = true) (buff : Bytes) (s : σ) : Writes (c.run E buff s).1 := by
  obtain ⟨hs, hf, rfl, rfl, rfl⟩ := h
  have := WriteCommand.run_accepted (E := answering (E.env c.id) E.opened (E.answers c.index)) c.command buff
    (s, c.calls) hf hs hn (by simp only [answering, ha, if_true]; rfl)
  exact ⟨this.1, this.2⟩

lemma Writes.data (h : Writes c) {buff : Bytes} (hb : buff ≠ []) (s : σ) : Writes (c.run E buff s).1 := by
  have := WriteCommand.run_started_data (E := answering (E.env c.id) E.opened (E.answers c.index)) c.command buff
    (s, c.calls) h.finished h.started hb
  exact ⟨this.1, this.2⟩

lemma Writes.ending (h : Writes c) (s : σ) : (c.run E [] s).1.command.finished = true :=
  WriteCommand.run_started_end c.command (s, c.calls) h.finished h.started

end Command

section Dispatch

variable {virtid : UInt8} {n : ℕ} {c : SessionCommand ω}
  {r : PeerCommandRunner (σ × ℕ) (SessionCommand ω ⊕ κ)}

def Idle (K : CommandCenter (σ × ℕ) (SessionCommand ω ⊕ κ))
    (r : PeerCommandRunner (σ × ℕ) (SessionCommand ω ⊕ κ)) (virtid : UInt8) : Prop :=
  r.unfinished K virtid = none

def InStep (K : CommandCenter (σ × ℕ) (SessionCommand ω ⊕ κ))
    (r : PeerCommandRunner (σ × ℕ) (SessionCommand ω ⊕ κ)) (virtid : UInt8)
    (sessions : List (Session E)) (buffers : List Bytes) : Prop :=
  (buffers.foldl (parseAndRun K) r).trace = r.trace ++ traces r.heap.length sessions ∧
  ∀ k ≤ sessions.length,
    Idle K (((sessions.take k).flatMap (Session.packets · virtid)).foldl (handle K) r) virtid

structure Registered (r : PeerCommandRunner (σ × ℕ) (SessionCommand ω ⊕ κ)) (virtid : UInt8) (n : ℕ)
    (c : SessionCommand ω) : Prop where
  command : r.commands virtid = some n
  heap : r.heap[n]? = some (.inl c)

structure Ran (n : ℕ) (payloads : List Bytes) (r r' : PeerCommandRunner (σ × ℕ) (SessionCommand ω ⊕ κ)) :
    Prop where
  trace : r'.trace = r.trace ++ payloads.map (Event.ran n)
  heap : r'.heap.length = r.heap.length
  made : r'.center.2 = r.center.2

lemma Registered.unfinished (h : Registered r virtid n c) :
    r.unfinished (center E) virtid = if c.command.finished then none else some n := by
  simp [PeerCommandRunner.unfinished, h.command, h.heap, center]

lemma Registered.runCommand (h : Registered r virtid n c) (payload : Bytes) :
    Registered (r.runCommand (center E) n payload) virtid n (c.run E payload r.center.1).1 ∧
    Ran n [payload] r (r.runCommand (center E) n payload) := by
  obtain ⟨hn, hc⟩ := List.getElem?_eq_some_iff.1 h.heap
  refine ⟨⟨?_, ?_⟩, ⟨?_, ?_, ?_⟩⟩ <;> simp [PeerCommandRunner.runCommand, h.command, center, hn, hc]

lemma Registered.handle (h : Registered r virtid n c) (hf : c.command.finished = false) {p : Packet}
    (hp : p.virtid = virtid) :
    Registered (r.handle (center E) p) virtid n (c.run E p.payload r.center.1).1 ∧
    Ran n [p.payload] r (r.handle (center E) p) := by
  have hu : r.unfinished (center E) p.virtid = some n := by rw [hp, h.unfinished, hf]; rfl
  simpa only [PeerCommandRunner.handle, hu] using h.runCommand p.payload

lemma Ran.trans {ps qs : List Bytes} {r r' r'' : PeerCommandRunner (σ × ℕ) (SessionCommand ω ⊕ κ)}
    (h : Ran n ps r r') (h' : Ran n qs r' r'') : Ran n (ps ++ qs) r r'' where
  trace := by rw [h'.trace, h.trace, List.map_append, List.append_assoc]
  heap := h'.heap.trans h.heap
  made := h'.made.trans h.made

lemma Ran.refl : Ran n [] r r := ⟨by simp, rfl, rfl⟩

lemma Registered.writes (h : Registered r virtid n c) (hw : Writes c) {ps : List Packet}
    (hps : ∀ p ∈ ps, p.virtid = virtid ∧ p.payload ≠ []) :
    ∃ c', Writes c' ∧ Registered (ps.foldl (PeerCommandRunner.handle (center E)) r) virtid n c' ∧
      Ran n (ps.map Packet.payload) r (ps.foldl (PeerCommandRunner.handle (center E)) r) := by
  induction ps generalizing r c with
  | nil => exact ⟨c, hw, h, .refl⟩
  | cons p ps ih =>
    obtain ⟨hp, hb⟩ := hps p (by simp)
    obtain ⟨hreg, hran⟩ := h.handle (E := E) hw.finished hp
    obtain ⟨c', hw', hreg', hran'⟩ := ih hreg (hw.data hb _) fun q hq => hps q (by simp [hq])
    exact ⟨c', hw', hreg', hran.trans hran'⟩

lemma Registered.waits {name : Bytes} {index calls : ℕ} (h : Registered r virtid n c)
    (hw : Waits c name index calls) (hn : name ≠ []) {ps : List Packet} (hps : ∀ p ∈ ps, p.virtid = virtid)
    (ha : ∀ k, calls ≤ k → k < calls + ps.length → E.answers index k = false) :
    ∃ c', Waits c' name index (calls + ps.length) ∧
      Registered (ps.foldl (PeerCommandRunner.handle (center E)) r) virtid n c' ∧
      Ran n (ps.map Packet.payload) r (ps.foldl (PeerCommandRunner.handle (center E)) r) := by
  induction ps generalizing r c calls with
  | nil => exact ⟨c, hw, h, .refl⟩
  | cons p ps ih =>
    obtain ⟨hreg, hran⟩ := h.handle (E := E) hw.finished (hps p (by simp))
    have hw' := hw.refused (E := E) hn (ha _ le_rfl (by simp)) p.payload r.center.1
    obtain ⟨c', hw'', hreg', hran'⟩ := ih hreg hw' (fun q hq => hps q (by simp [hq]))
      fun k h₁ h₂ => ha k (by omega) (by simp only [List.length_cons]; omega)
    rw [show calls + 1 + ps.length = calls + (p :: ps).length by simp only [List.length_cons]; omega] at hw''
    exact ⟨c', hw'', hreg', hran.trans hran'⟩

lemma Registered.taken {name : Bytes} {index calls : ℕ} (h : Registered r virtid n c)
    (hw : Waits c name index calls) (hn : name ≠ []) {ps : List Packet}
    (hps : ∀ p ∈ ps, p.virtid = virtid ∧ p.payload ≠ [])
    (ha : ∃ k < ps.length, E.answers index (calls + k) = true) :
    ∃ c', Writes c' ∧ Registered (ps.foldl (PeerCommandRunner.handle (center E)) r) virtid n c' ∧
      Ran n (ps.map Packet.payload) r (ps.foldl (PeerCommandRunner.handle (center E)) r) := by
  induction ps generalizing r c calls with
  | nil =>
    obtain ⟨k, hk, -⟩ := ha
    exact absurd hk (Nat.not_lt_zero k)
  | cons p ps ih =>
    obtain ⟨hreg, hran⟩ := h.handle (E := E) hw.finished (hps p (by simp)).1
    have hps' : ∀ q ∈ ps, q.virtid = virtid ∧ q.payload ≠ [] := fun q hq => hps q (by simp [hq])
    cases hcalls : E.answers index calls with
    | true =>
      obtain ⟨c', hw', hreg', hran'⟩ := hreg.writes (E := E) (hw.accepted hn hcalls _ _) hps'
      exact ⟨c', hw', hreg', hran.trans hran'⟩
    | false =>
      have ha' : ∃ k < ps.length, E.answers index (calls + 1 + k) = true := by
        obtain ⟨_ | k, hk, hans⟩ := ha
        · rw [Nat.add_zero, hcalls] at hans
          exact absurd hans (by decide)
        · exact ⟨k, by simpa using hk, by rwa [Nat.add_assoc, Nat.add_comm 1 k]⟩
      obtain ⟨c', hw', hreg', hran'⟩ := ih hreg (hw.refused hn hcalls _ _) hps' ha'
      exact ⟨c', hw', hreg', hran.trans hran'⟩

lemma handle_header (hidle : Idle (center E) r virtid) (s : Session E) :
    let r' := r.handle (center E) (s.header virtid)
    Registered r' virtid r.heap.length
      (SessionCommand.run E ⟨.create s.request, s.id, r.center.2, 0⟩ [] r.center.1).1 ∧
    r'.trace = r.trace ++ s.opening r.heap.length ∧
    r'.heap.length = r.heap.length + 1 ∧ r'.center.2 = r.center.2 + 1 := by
  have hfits : s.message.length ≤ 65535 := by
    have := s.header_fits
    rw [package_length] at this
    omega
  have hnext : getNext (package s.id s.message) = (some ⟨s.id, s.message, hfits⟩, []) := by
    have := getNext_encode ⟨s.id, s.message, hfits⟩ []
    rwa [List.append_nil] at this
  have hcommand : (center E).command s.id s.message r.center =
      (some (.inl ⟨.create s.request, s.id, r.center.2, 0⟩), (r.center.1, r.center.2 + 1)) := by
    simp only [center, if_pos s.write_id, s.packed]
  have hcreated := handle_created (p := s.header virtid) hidle hnext hcommand rfl
  rw [hcreated]
  obtain ⟨hreg, hran⟩ := Registered.runCommand (E := E) (r := {
      commands := Function.update r.commands virtid (some r.heap.length)
      heap := r.heap ++ [.inl ⟨.create s.request, s.id, r.center.2, 0⟩]
      center := (r.center.1, r.center.2 + 1)
      trace := r.trace ++ [Event.parsed (package s.id s.message)] ++ [Event.created r.heap.length] })
    ⟨Function.update_self .., List.getElem?_concat_length⟩ []
  refine ⟨hreg, ?_, ?_, ?_⟩
  · exact hran.trace.trans (by simp [Session.opening])
  · exact hran.heap.trans (by simp)
  · exact hran.made

lemma packets_cons (s : Session E) (virtid : UInt8) :
    s.packets virtid = s.header virtid :: (s.dataPackets virtid ++ [Session.ending virtid]) := rfl

lemma dataPackets_payloads (s : Session E) (virtid : UInt8) :
    (s.dataPackets virtid).map Packet.payload = s.data := by
  simp [Session.dataPackets]

lemma mem_dataPackets {s : Session E} {p : Packet} (hp : p ∈ s.dataPackets virtid) :
    p.virtid = virtid ∧ p.payload ≠ [] := by
  obtain ⟨d, -, rfl⟩ := List.mem_map.1 hp
  exact ⟨rfl, s.nonempty d.1 d.2⟩

lemma dataPackets_length (s : Session E) (virtid : UInt8) : (s.dataPackets virtid).length = s.data.length := by
  simp [Session.dataPackets]

lemma handle_session (hidle : Idle (center E) r virtid) {s : Session E} (ht : s.Taken r.center.2) :
    let r' := (s.packets virtid).foldl (PeerCommandRunner.handle (center E)) r
    Idle (center E) r' virtid ∧ r'.trace = r.trace ++ s.trace r.heap.length ∧
    r'.heap.length = r.heap.length + 1 ∧ r'.center.2 = r.center.2 + 1 := by
  obtain ⟨hn, k, hk, hans⟩ := ht
  obtain ⟨hreg, htrace, hheap, hmade⟩ := handle_header hidle s
  have hw : Waits (⟨.create s.request, s.id, r.center.2, 0⟩ : SessionCommand ω) s.request.name r.center.2 0 :=
    ⟨rfl, rfl, rfl, rfl, rfl⟩
  -- the store has said yes to the header, or says yes at a data packet
  obtain ⟨c, hc, hreg', hran⟩ : ∃ c', Writes c' ∧ Registered ((s.dataPackets virtid).foldl
      (PeerCommandRunner.handle (center E)) (r.handle (center E) (s.header virtid))) virtid r.heap.length c' ∧
      Ran r.heap.length ((s.dataPackets virtid).map Packet.payload) (r.handle (center E) (s.header virtid))
        ((s.dataPackets virtid).foldl (PeerCommandRunner.handle (center E))
          (r.handle (center E) (s.header virtid))) := by
    cases h0 : E.answers r.center.2 0 with
    | true => exact hreg.writes (hw.accepted hn h0 _ _) fun p hp => mem_dataPackets hp
    | false =>
      refine hreg.taken (hw.refused hn h0 _ _) hn (fun p hp => mem_dataPackets hp) ?_
      cases k with
      | zero => exact absurd (h0.symm.trans hans) (by decide)
      | succ k => exact ⟨k, by rw [dataPackets_length]; omega, by rwa [Nat.zero_add, Nat.add_comm]⟩
  obtain ⟨hreg'', hran'⟩ := hreg'.handle (E := E) hc.finished (p := Session.ending virtid) rfl
  have hall := hran.trans hran'
  simp only [packets_cons, List.foldl_cons, List.foldl_append, List.foldl_nil]
  refine ⟨?_, ?_, hall.heap.trans hheap, hall.made.trans hmade⟩
  · rw [Idle, hreg''.unfinished]
    exact if_pos (hc.ending _)
  · rw [hall.trace, htrace, dataPackets_payloads, Session.trace]
    simp [Session.ending]

lemma not_idle_of_refused (hidle : Idle (center E) r virtid) {s : Session E} (hn : s.request.name ≠ [])
    (hans : ∀ k ≤ s.data.length, E.answers r.center.2 k = false) :
    ¬ Idle (center E) ((s.packets virtid).foldl (PeerCommandRunner.handle (center E)) r) virtid := by
  obtain ⟨hreg, -, -, -⟩ := handle_header hidle s
  have hw : Waits (⟨.create s.request, s.id, r.center.2, 0⟩ : SessionCommand ω) s.request.name r.center.2 0 :=
    ⟨rfl, rfl, rfl, rfl, rfl⟩
  obtain ⟨c, hc, hreg', -⟩ := hreg.waits (hw.refused hn (hans 0 (by omega)) _ _) hn
    (fun (p : Packet) (hp : p ∈ s.dataPackets virtid) => (mem_dataPackets hp).1) fun k _ hk =>
      hans k (by rw [dataPackets_length] at hk; omega)
  obtain ⟨hreg'', -⟩ := hreg'.handle (E := E) hc.finished (p := Session.ending virtid) rfl
  -- the last packet asks the store once more, which starts the command or leaves it waiting
  have hopen : ∀ s, (c.run E [] s).1.command.finished = false := by
    intro s'
    cases hlast : E.answers r.center.2 (0 + 1 + (s.dataPackets virtid).length) with
    | true => exact (hc.accepted hn hlast [] s').finished
    | false => exact (hc.refused hn hlast [] s').finished
  have hunfinished := hreg''.unfinished (E := E)
  rw [show (Session.ending virtid).payload = [] from rfl, hopen] at hunfinished
  simp only [packets_cons, List.foldl_cons, List.foldl_append, List.foldl_nil, Idle, hunfinished]
  simp

lemma parsed_of_nameless (hidle : Idle (center E) r virtid) {s : Session E} (hn : s.request.name = []) :
    ∃ payload, r.trace ++ (s.opening r.heap.length ++ [Event.parsed payload]) <+:
      ((s.packets virtid).foldl (PeerCommandRunner.handle (center E)) r).trace := by
  obtain ⟨hreg, htrace, -, -⟩ := handle_header hidle s
  have hfinished : (SessionCommand.run E ⟨.create s.request, s.id, r.center.2, 0⟩ [] r.center.1).1.command.finished
      = true := by
    simp [SessionCommand.run, WriteCommand.run, WriteCommand.create, hn, WriteCommand.setStatus]
  have hidle' : Idle (center E) (r.handle (center E) (s.header virtid)) virtid := by
    rw [Idle, hreg.unfinished, hfinished]
    rfl
  obtain ⟨p, ps, hcons⟩ : ∃ p ps, s.dataPackets virtid ++ [Session.ending virtid] = p :: ps :=
    List.exists_cons_of_ne_nil (by simp)
  have hp : p.virtid = virtid := by
    have hmem : p ∈ s.dataPackets virtid ++ [Session.ending virtid] := by simp [hcons]
    rcases List.mem_append.1 hmem with h | h
    · exact (mem_dataPackets h).1
    · rw [List.mem_singleton.1 h]
      rfl
  refine ⟨p.payload, ?_⟩
  rw [packets_cons, List.foldl_cons, hcons, List.foldl_cons]
  refine List.IsPrefix.trans ?_ (foldl_handle_trace ps)
  have hparsed := handle_parsed (K := center E) (r := r.handle (center E) (s.header virtid)) p (hp ▸ hidle')
  rwa [htrace, List.append_assoc] at hparsed

lemma not_parsed_prefix (s : Session E) (n : ℕ) (payload : Bytes) (rest : List Event) :
    ¬ s.opening n ++ [Event.parsed payload] <+: s.trace n ++ rest := by
  rcases hd : s.data with _ | ⟨d, ds⟩ <;> simp [Session.trace, Session.opening, hd, List.cons_prefix_cons]

lemma handle_sessions (hidle : Idle (center E) r virtid) (sessions : List (Session E)) :
    ((sessions.flatMap (Session.packets · virtid)).foldl (PeerCommandRunner.handle (center E)) r).trace =
        r.trace ++ traces r.heap.length sessions ∧
      (∀ k ≤ sessions.length, Idle (center E)
        (((sessions.take k).flatMap (Session.packets · virtid)).foldl (PeerCommandRunner.handle (center E)) r)
        virtid) ↔
    ∀ i (hi : i < sessions.length), sessions[i].Taken (r.center.2 + i) := by
  induction sessions generalizing r with
  | nil => simpa [traces] using hidle
  | cons s ss ih =>
    constructor
    · rintro ⟨htrace, hidles⟩
      rw [List.flatMap_cons, List.foldl_append] at htrace
      have ht : s.Taken r.center.2 := by
        by_contra hno
        by_cases hn : s.request.name = []
        · obtain ⟨payload, hpre⟩ := parsed_of_nameless hidle hn
          have hlonger := hpre.trans (foldl_handle_trace (K := center E) (ss.flatMap (Session.packets · virtid)))
          rw [htrace, List.prefix_append_right_inj] at hlonger
          exact not_parsed_prefix s r.heap.length payload _ hlonger
        · have hans : ∀ k ≤ s.data.length, E.answers r.center.2 k = false := fun k hk =>
            Bool.eq_false_iff.2 fun hans => hno ⟨hn, k, hk, hans⟩
          have hk := hidles 1 (by simp)
          rw [List.take_succ_cons, List.take_zero, List.flatMap_singleton] at hk
          exact not_idle_of_refused hidle hn hans hk
      obtain ⟨hidle', htrace', hheap, hmade⟩ := handle_session hidle ht
      have hrest := (ih hidle').1 ⟨?_, fun k hk => ?_⟩
      · rintro (_ | i) hi
        · exact ht
        · have := hrest i (by simpa using hi)
          rwa [hmade, Nat.add_assoc, Nat.add_comm 1 i] at this
      · rw [htrace, htrace', hheap, List.append_assoc]
        rfl
      · have := hidles (k + 1) (by simpa using hk)
        rwa [List.take_succ_cons, List.flatMap_cons, List.foldl_append] at this
    · intro htaken
      obtain ⟨hidle', htrace', hheap, hmade⟩ := handle_session (s := s) hidle (htaken 0 (by simp))
      obtain ⟨htrace, hidles⟩ := (ih hidle').2 fun i hi => by
        have := htaken (i + 1) (by simpa using hi)
        rwa [hmade, Nat.add_assoc, Nat.add_comm 1 i]
      refine ⟨?_, ?_⟩
      · rw [List.flatMap_cons, List.foldl_append, htrace, htrace', hheap, List.append_assoc]
        rfl
      · rintro (_ | k) hk
        · exact hidle
        · rw [List.take_succ_cons, List.flatMap_cons, List.foldl_append]
          exact hidles k (by simpa using hk)

theorem inStep_iff_taken (hidle : Idle (center E) r virtid) (sessions : List (Session E)) (buffers : List Bytes)
    (hb : buffers.flatMap parsePackets = sessions.flatMap (Session.packets · virtid)) :
    InStep (center E) r virtid sessions buffers ↔
      ∀ i (hi : i < sessions.length), sessions[i].Taken (r.center.2 + i) := by
  rw [InStep, foldl_parseAndRun, hb]
  exact handle_sessions hidle sessions

def sample (taking : Bool) : Environment Unit Unit Unit Empty where
  env _ := {
    store := fun _ s => (.accepted (), s)
    write := fun _ _ s => ((), s)
    commit := fun _ _ s => (some (), (), s)
    position := fun _ => none
    version := fun _ => []
    digest := fun _ => 0
    onCommit := fun params _ s => (params, s) }
  opened _ s := ((), s)
  answers _ k := taking && decide (k = 1)
  unpack message :=
    if message = [0x96, 0xa1, 0x6b, 0xa0, 0x00, 0x03, 0x00, 0xa0] then some { name := [0x6b] }
    else if message = [0x96, 0xa0, 0xa0, 0x00, 0x03, 0x00, 0xa0] then some { name := [] }
    else none
  other := ⟨fun _ _ s => (none, s), fun _ => true, fun c _ s => (c, s)⟩

def sampleSession (taking : Bool) : Session (sample taking) where
  id := 100
  write_id := by decide
  request := { name := [0x6b] }
  message := [0x96, 0xa1, 0x6b, 0xa0, 0x00, 0x03, 0x00, 0xa0]
  packed := rfl
  data := [ascii "hi", ascii "there"]
  nonempty := by decide
  header_fits := by decide
  data_fits := by decide

def namelessSession : Session (sample true) where
  id := 100
  write_id := by decide
  request := { name := [] }
  message := [0x96, 0xa0, 0xa0, 0x00, 0x03, 0x00, 0xa0]
  packed := rfl
  data := [ascii "hi"]
  nonempty := by decide
  header_fits := by decide
  data_fits := by decide

theorem inStep_iff_taken_example :
    InStep (center (sample true)) (PeerCommandRunner.create ((), 0)) 7 [sampleSession true]
      [((sampleSession true).packets 7).flatMap Packet.encode] :=
  have hidle : Idle (center (sample true)) (PeerCommandRunner.create ((), 0)) 7 := rfl
  (inStep_iff_taken hidle [sampleSession true] [((sampleSession true).packets 7).flatMap Packet.encode]
    (by decide)).2 fun
      | 0, _ => ⟨List.cons_ne_nil _ _, 1, Nat.le_succ 1, rfl⟩
      | _ + 1, hi => absurd hi (by simp)

theorem not_inStep_of_nameless_or_refused :
    Event.parsed (ascii "hi") ∈ (parseAndRun (center (sample true)) (PeerCommandRunner.create ((), 0))
      ((namelessSession.packets 7).flatMap Packet.encode)).trace ∧
    ¬ InStep (center (sample true)) (PeerCommandRunner.create ((), 0)) 7 [namelessSession]
      [(namelessSession.packets 7).flatMap Packet.encode] ∧
    ¬ InStep (center (sample false)) (PeerCommandRunner.create ((), 0)) 7 [sampleSession false]
      [((sampleSession false).packets 7).flatMap Packet.encode] := by
  refine ⟨by decide, fun h => ?_, fun h => ?_⟩
  · exact absurd h.1 (by decide)
  · have hidle : unfinished (center (sample false)) _ 7 = none := h.2 1 le_rfl
    exact absurd hidle (by decide)

end Dispatch

end WriteSessions

end Turbopump
