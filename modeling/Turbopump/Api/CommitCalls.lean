import Turbopump.Common.ReferenceClocks
import Turbopump.Lib.Runs
import Turbopump.Storage.Opening

/-! How often a write command calls its callback, and with what: once each 64 KiB, and once at the end. -/

namespace Turbopump

structure CommitCall where
  written : Bytes
  instructions : WriteInstructions

structure WriteLog where
  written : Bytes := []
  calls : List CommitCall := []

variable {σ ω ρ : Type}

namespace WriteEnv

def recording (E : WriteEnv σ ω ρ) : WriteEnv (σ × WriteLog) ω ρ where
  store request s :=
    let (answer, s') := E.store request s.1
    (answer, s', s.2)
  write w buff s :=
    let (w, s') := E.write w buff s.1
    (w, s', { s.2 with written := s.2.written ++ buff })
  commit w close s :=
    let (reader, w, s') := E.commit w close s.1
    (reader, w, s', s.2)
  position := E.position
  version := E.version
  digest := E.digest
  onCommit params reader s :=
    let (params', s') := E.onCommit params reader s.1
    (params', s', { s.2 with calls := s.2.calls ++ [⟨s.2.written, params⟩] })

/-- What is relied on of a store, its writer and the callback: as long as `I w n s` holds, the writer is open and has
been given `n` bytes, and a commit has a reader. -/
structure Serves (E : WriteEnv σ ω ρ) (I : ω → ℕ → σ → Prop) : Prop where
  store : ∀ request s w s', E.store request s = (.accepted w, s') → I w 0 s'
  write : ∀ w n s buff, I w n s → I (E.write w buff s).1 (n + buff.length) (E.write w buff s).2
  flush : ∀ w n s, I w n s → ∃ reader w' s', E.commit w false s = (some reader, w', s') ∧ I w' n s'
  close : ∀ w n s, I w n s → ∃ reader w' s', E.commit w true s = (some reader, w', s')
  position : ∀ w n s, I w n s → E.position w = some n
  onCommit : ∀ w n s params reader, I w n s → I w n (E.onCommit params reader s).2
  incomplete : ∀ s params reader, params.isComplete = false → (E.onCommit params reader s).1.isComplete = false

end WriteEnv

namespace WriteCommand

def feed (E : WriteEnv σ ω ρ) (c : WriteCommand ω × σ) (buff : Bytes) : WriteCommand ω × σ := (c.1.run E buff c.2).2

structure Regular (E : WriteEnv σ ω ρ) (c : WriteCommand ω × σ) (buff : Bytes) : Prop where
  counter : c.1.bytesSinceLastFlush ≤ 0x10000
  nextSize : uadd c.1.bytesSinceLastFlush buff.length = c.1.bytesSinceLastFlush + buff.length
  overfill : 0x10000 < c.1.bytesSinceLastFlush + buff.length →
    usub (c.1.bytesSinceLastFlush + buff.length) 0x10000 = c.1.bytesSinceLastFlush + buff.length - 0x10000
  topoff : 0x10000 < c.1.bytesSinceLastFlush + buff.length →
    c.1.bytesSinceLastFlush + buff.length - 0x10000 ≤ buff.length
  outcome : (c.1.run E buff c.2).1 = .returned true

def flushCall (offset : ℕ) (data : Bytes) (k : ℕ) : Bytes × ℕ × Bool :=
  (data.take ((k + 1) * 0x10000), if k = 0 then offset else k * 0x10000, false)

def CommitCall.view (call : CommitCall) : Bytes × ℕ × Bool :=
  (call.written, call.instructions.offset, call.instructions.isComplete)

structure Fed (I : ω → ℕ → σ → Prop) (offset flushes : ℕ) (data : Bytes) (c : WriteCommand ω) (s : σ × WriteLog) :
    Prop where
  writer : ∃ w, c.writer = some w ∧ I w data.length s.1
  incomplete : c.instructions.isComplete = false
  written : s.2.written = data
  calls : s.2.calls.map CommitCall.view = (List.range flushes).map (flushCall offset data)
  offset : c.instructions.offset = if flushes = 0 then offset else flushes * 0x10000

section Steps

variable {E : WriteEnv σ ω ρ} {I : ω → ℕ → σ → Prop} {offset flushes : ℕ} {data : Bytes} {c : WriteCommand ω}
  {s : σ × WriteLog}

lemma flushCalls_append (hsize : flushes * 0x10000 ≤ data.length) (buff : Bytes) :
    (List.range flushes).map (flushCall offset (data ++ buff)) = (List.range flushes).map (flushCall offset data) := by
  apply List.map_congr_left
  intro k hk
  have hle : (k + 1) * 0x10000 ≤ data.length :=
    (Nat.mul_le_mul_right _ (Nat.succ_le_of_lt (List.mem_range.1 hk))).trans hsize
  rw [flushCall, flushCall, List.take_append_of_le_length hle]

lemma Fed.append (hE : E.Serves I) (h : Fed I offset flushes data c s) (hsize : flushes * 0x10000 ≤ data.length)
    (buff : Bytes) : Fed I offset flushes (data ++ buff) (c.append E.recording buff s).1
      (c.append E.recording buff s).2 ∧
      (c.append E.recording buff s).1.bytesSinceLastFlush = c.bytesSinceLastFlush := by
  obtain ⟨w, hw, hI⟩ := h.writer
  have happend : c.append E.recording buff s = ({ c with writer := some (E.write w buff s.1).1 },
      (E.write w buff s.1).2, { s.2 with written := s.2.written ++ buff }) := by
    simp only [WriteCommand.append, hw, WriteEnv.recording]
  rw [happend]
  refine ⟨⟨⟨_, rfl, ?_⟩, h.incomplete, ?_, ?_, h.offset⟩, rfl⟩
  · rw [List.length_append]
    exact hE.write w data.length s.1 buff hI
  · rw [h.written]
  · rw [flushCalls_append hsize]
    exact h.calls

def passed (E : WriteEnv σ ω ρ) (c : WriteCommand ω) (reader : ρ) : WriteInstructions :=
  if c.instructions.version = [] then { c.instructions with version := E.version reader } else c.instructions

lemma passed_isComplete (E : WriteEnv σ ω ρ) (c : WriteCommand ω) (reader : ρ) :
    (passed E c reader).isComplete = c.instructions.isComplete := by
  rw [passed]
  split_ifs <;> rfl

lemma passed_offset (E : WriteEnv σ ω ρ) (c : WriteCommand ω) (reader : ρ) :
    (passed E c reader).offset = c.instructions.offset := by
  rw [passed]
  split_ifs <;> rfl

lemma flush_recording {w w' : ω} {reader : ρ} {s' : σ} (hw : c.writer = some w)
    (hcommit : E.commit w c.instructions.isComplete s.1 = (some reader, w', s')) :
    c.flush E.recording s = (true,
      { c with
        instructions := { (E.onCommit (passed E c reader) reader s').1 with
          digest := E.digest reader
          offset := (E.position w').getD (E.onCommit (passed E c reader) reader s').1.offset }
        writer := some w'
        bytesSinceLastFlush := 0 },
      (E.onCommit (passed E c reader) reader s').2,
      { s.2 with calls := s.2.calls ++ [⟨s.2.written, passed E c reader⟩] }) := by
  simp only [WriteCommand.flush, hw, WriteEnv.recording, hcommit]
  rfl

lemma Fed.flush (hE : E.Serves I) (h : Fed I offset flushes data c s) (hfull : data.length = (flushes + 1) * 0x10000) :
    (c.flush E.recording s).1 = true ∧ (c.flush E.recording s).2.1.bytesSinceLastFlush = 0 ∧
      Fed I offset (flushes + 1) data (c.flush E.recording s).2.1 (c.flush E.recording s).2.2 := by
  obtain ⟨w, hw, hI⟩ := h.writer
  obtain ⟨reader, w', s', hcommit, hI'⟩ := hE.flush w data.length s.1 hI
  rw [← h.incomplete] at hcommit
  have hincomplete : (passed E c reader).isComplete = false := (passed_isComplete E c reader).trans h.incomplete
  rw [flush_recording hw hcommit, hE.position w' data.length s' hI', Option.getD_some]
  refine ⟨rfl, rfl, ⟨w', rfl, hE.onCommit w' _ s' _ reader hI'⟩, hE.incomplete s' _ reader hincomplete,
    h.written, ?_, ?_⟩
  · have hcall : CommitCall.view ⟨s.2.written, passed E c reader⟩ = flushCall offset data flushes := by
      rw [CommitCall.view, flushCall, hincomplete, passed_offset, h.offset, h.written, List.take_of_length_le hfull.le]
    rw [List.map_append, h.calls, List.range_succ, List.map_append, List.map_singleton, List.map_singleton, hcall]
  · rw [if_neg (Nat.succ_ne_zero flushes)]
    exact hfull

lemma Fed.overflow (hE : E.Serves I) (h : Fed I offset flushes data c s) {buff : Bytes} (topoff : ℕ)
    (htopoff : topoff ≤ buff.length) (hfull : data.length + topoff = (flushes + 1) * 0x10000)
    (hsize : flushes * 0x10000 ≤ data.length) (hsmall : buff.length ≤ 0x10000) :
    let r := c.overflow E.recording buff (buff.length - topoff) topoff s
    r.1 = .returned true ∧ r.2.1.bytesSinceLastFlush = buff.length - topoff ∧
      Fed I offset (flushes + 1) (data ++ buff) r.2.1 r.2.2 := by
  obtain ⟨c₁, s₁, htop, h₁⟩ : ∃ c₁ s₁, (if 0 < topoff then c.append E.recording (buff.take topoff) s else (c, s)) =
      (c₁, s₁) ∧ Fed I offset flushes (data ++ buff.take topoff) c₁ s₁ := by
    by_cases hpos : 0 < topoff
    · rw [if_pos hpos]
      exact ⟨_, _, rfl, (h.append hE hsize _).1⟩
    · rw [if_neg hpos, Nat.eq_zero_of_not_pos hpos, List.take_zero, List.append_nil]
      exact ⟨c, s, rfl, h⟩
  have hlength : (data ++ buff.take topoff).length = (flushes + 1) * 0x10000 := by
    rw [List.length_append, List.length_take, min_eq_left htopoff, hfull]
  obtain ⟨hgood, hzero, h₂⟩ := h₁.flush hE hlength
  obtain ⟨h₃, hbytes⟩ := h₂.append hE hlength.ge (buff.drop topoff)
  have hrest : (buff.drop topoff).take (buff.length - topoff) = buff.drop topoff := by
    rw [← List.length_drop, List.take_length]
  have hadd : uadd 0 (buff.length - topoff) = buff.length - topoff := by
    rw [uadd]
    omega
  simp only [WriteCommand.overflow, htop, hgood, if_true, hrest, hbytes, hzero, hadd]
  rw [List.append_assoc, List.take_append_drop] at h₃
  exact ⟨trivial, trivial, h₃.writer, h₃.incomplete, h₃.written, h₃.calls, h₃.offset⟩

def flushesOf (length : ℕ) : ℕ := (length - 1) / 0x10000

lemma flushesOf_eq {length : ℕ} (rest : ℕ) (hrest : rest ≤ 0x10000) (hsize : length = flushes * 0x10000 + rest)
    (hpos : flushes = 0 ∨ 0 < rest) : flushesOf length = flushes := by
  rw [flushesOf]
  omega

structure Counted (I : ω → ℕ → σ → Prop) (offset : ℕ) (data : Bytes) (c : WriteCommand ω) (s : σ × WriteLog) : Prop
    where
  fed : Fed I offset (flushesOf data.length) data c s
  counter : flushesOf data.length * 0x10000 + c.bytesSinceLastFlush = data.length

lemma Counted.counter_le (h : Counted I offset data c s) : c.bytesSinceLastFlush ≤ 0x10000 := by
  have := h.counter
  rw [flushesOf] at this
  omega

lemma arithmetic {b n : ℕ} (hb : b ≤ 0x10000) (hn : n ≤ 0x10000) : uadd b n = b + n ∧
    (0x10000 < b + n → usub (b + n) 0x10000 = b + n - 0x10000 ∧ b + n - 0x10000 ≤ n ∧
      usub n (b + n - 0x10000) = 0x10000 - b) := by
  simp only [uadd, usub]
  omega

lemma after_overflow {f b n d : ℕ} (hcounter : f * 0x10000 + b = d) (hb : b ≤ 0x10000) (hfull : 0x10000 < b + n) :
    (f + 1) * 0x10000 + (n - (0x10000 - b)) = d + n := by
  rw [Nat.add_mul, Nat.one_mul, Nat.add_comm (f * 0x10000)]
  omega

lemma Counted.consume (hE : E.Serves I) (h : Counted I offset data c s) {buff : Bytes} (hbuff : buff ≠ [])
    (hsize : buff.length ≤ 0x10000) : (c.consume E.recording buff s).1 = .returned true ∧
      Counted I offset (data ++ buff) (c.consume E.recording buff s).2.1 (c.consume E.recording buff s).2.2 := by
  have hpos : 0 < buff.length := List.length_pos_of_ne_nil hbuff
  have hle := h.counter_le
  obtain ⟨hnext, hover⟩ := arithmetic hle hsize
  obtain ⟨hfed, hcounter⟩ := h
  have hflushed : flushesOf data.length * 0x10000 ≤ data.length := by omega
  have hstarted : Fed I offset (flushesOf data.length) data { c with started := true } s :=
    ⟨hfed.writer, hfed.incomplete, hfed.written, hfed.calls, hfed.offset⟩
  by_cases hfull : 0x10000 < c.bytesSinceLastFlush + buff.length
  · obtain ⟨hoverfill, -, htopoff⟩ := hover hfull
    simp only [WriteCommand.consume, hnext, if_pos hfull, hoverfill, htopoff]
    have hlength : flushesOf (data ++ buff).length = flushesOf data.length + 1 := by
      apply flushesOf_eq (c.bytesSinceLastFlush + buff.length - 0x10000) (by omega)
      · rw [List.length_append]
        omega
      · omega
    have hoverfill' : c.bytesSinceLastFlush + buff.length - 0x10000 =
        buff.length - (0x10000 - c.bytesSinceLastFlush) := by omega
    obtain ⟨houtcome, hbytes, hfed'⟩ := hstarted.overflow hE (0x10000 - c.bytesSinceLastFlush) (by omega)
      (by omega) hflushed hsize
    rw [hoverfill']
    refine ⟨houtcome, ⟨hlength ▸ hfed', ?_⟩⟩
    rw [hbytes, hlength, List.length_append]
    exact after_overflow hcounter hle hfull
  · simp only [WriteCommand.consume, hnext, if_neg hfull]
    obtain ⟨hfed', hbytes⟩ := hstarted.append hE hflushed buff
    have hlength : flushesOf (data ++ buff).length = flushesOf data.length := by
      apply flushesOf_eq (c.bytesSinceLastFlush + buff.length) (by omega)
      · rw [List.length_append]
        omega
      · omega
    refine ⟨trivial, ⟨?_, ?_⟩⟩
    · rw [hlength]
      exact ⟨hfed'.writer, hfed'.incomplete, hfed'.written, hfed'.calls, hfed'.offset⟩
    · rw [hlength, List.length_append]
      change flushesOf data.length * 0x10000 + (c.bytesSinceLastFlush + buff.length) = _
      omega

def lastCall (offset : ℕ) (data : Bytes) : Bytes × ℕ × Bool :=
  (data, if flushesOf data.length = 0 then offset else flushesOf data.length * 0x10000, true)

lemma Fed.commit (hE : E.Serves I) (h : Fed I offset flushes data c s) : (c.commit E.recording s).1 = .returned true ∧
    (c.commit E.recording s).2.1.bytesSinceLastFlush = 0 ∧ (c.commit E.recording s).2.2.2.written = data ∧
    (c.commit E.recording s).2.2.2.calls.map CommitCall.view = (List.range flushes).map (flushCall offset data) ++
      [(data, if flushes = 0 then offset else flushes * 0x10000, true)] := by
  obtain ⟨w, hw, hI⟩ := h.writer
  obtain ⟨reader, w', s', hcommit⟩ := hE.close w data.length s.1 hI
  have hflush := @flush_recording σ ω ρ E
    { c with finished := true, instructions := { c.instructions with isComplete := true } } s w w' reader s' hw hcommit
  simp only [WriteCommand.commit, hflush, if_true, setStatus]
  refine ⟨by simp, trivial, h.written, ?_⟩
  rw [List.map_append, h.calls, List.map_singleton, CommitCall.view, passed_offset, passed_isComplete, h.written]
  exact congrArg (fun o => _ ++ [(data, o, true)]) h.offset

lemma regular_of_counter {r : WriteCommand ω × σ} {buff : Bytes} (hcounter : r.1.bytesSinceLastFlush ≤ 0x10000)
    (hsize : buff.length ≤ 0x10000) (houtcome : (r.1.run E buff r.2).1 = .returned true) : Regular E r buff := by
  obtain ⟨hnext, hover⟩ := arithmetic hcounter hsize
  exact ⟨hcounter, hnext, fun hfull => (hover hfull).1, fun hfull => (hover hfull).2.1, houtcome⟩

lemma Counted.next (hE : E.Serves I) (hstarted : c.started = true) (hfinished : c.finished = false)
    (h : Counted I offset data c s) {buff : Bytes} (hbuff : buff ≠ []) (hsize : buff.length ≤ 0x10000) :
    Regular E.recording (c, s) buff ∧ (feed E.recording (c, s) buff).1.started = true ∧
      (feed E.recording (c, s) buff).1.finished = false ∧
      Counted I offset (data ++ buff) (feed E.recording (c, s) buff).1 (feed E.recording (c, s) buff).2 := by
  have hrun : c.run E.recording buff s = c.consume E.recording buff s := by
    simp [WriteCommand.run, hfinished, hstarted, WriteCommand.proceed, hbuff]
  obtain ⟨houtcome, hcounted⟩ := h.consume hE hbuff hsize
  obtain ⟨hflag, hflag'⟩ := consume_flags (E := E.recording) c buff s
  refine ⟨regular_of_counter h.counter_le hsize (hrun ▸ houtcome), ?_⟩
  simp only [WriteCommand.feed, hrun]
  exact ⟨hflag, hflag'.trans hfinished, hcounted⟩

lemma Counted.feed_all (hE : E.Serves I) (hstarted : c.started = true) (hfinished : c.finished = false)
    (h : Counted I offset data c s) (buffers : List Bytes) (hbuffers : ∀ b ∈ buffers, b ≠ [] ∧ b.length ≤ 0x10000) :
    let r := buffers.foldl (feed E.recording) (c, s)
    Along (feed E.recording) (Regular E.recording) (c, s) buffers ∧ r.1.started = true ∧ r.1.finished = false ∧
      Counted I offset (data ++ buffers.flatten) r.1 r.2 := by
  induction buffers generalizing c s data with
  | nil => exact ⟨trivial, hstarted, hfinished, by simpa using h⟩
  | cons b buffers ih =>
    obtain ⟨⟨hb, hsize⟩, hrest⟩ := List.forall_mem_cons.1 hbuffers
    obtain ⟨hregular, hstarted', hfinished', hcounted⟩ := h.next hE hstarted hfinished hb hsize
    obtain ⟨halong, hfinal⟩ := ih hstarted' hfinished' hcounted hrest
    rw [List.append_assoc, ← List.flatten_cons] at hfinal
    exact ⟨⟨hregular, halong⟩, hfinal⟩

end Steps

/-- What the writer and the callback have been given of `data` in the end; `first` is the offset in the first call. -/
structure CalledFor (first : ℕ) (data : Bytes) (log : WriteLog) : Prop where
  written : log.written = data
  count : log.calls.length = (data.length + 0xffff) / 0x10000
  earlier : ∀ k call, k + 1 < log.calls.length → log.calls[k]? = some call →
    call.written = data.take ((k + 1) * 0x10000) ∧ call.written.length = (k + 1) * 0x10000 ∧
      call.instructions.offset = (if k = 0 then first else k * 0x10000) ∧ call.instructions.isComplete = false
  last : ∀ call, log.calls.getLast? = some call → call.written = data ∧ call.instructions.isComplete = true

section Runs

variable {E : WriteEnv σ ω ρ} {I : ω → ℕ → σ → Prop} {data : Bytes} {s s' : σ} {request : Write} {w : ω}

lemma take_flushed {data : Bytes} {k : ℕ} (hk : k < flushesOf data.length) :
    (data.take ((k + 1) * 0x10000)).length = (k + 1) * 0x10000 := by
  have hle : (k + 1) * 0x10000 ≤ flushesOf data.length * 0x10000 := Nat.mul_le_mul_right _ hk
  have hflushed : flushesOf data.length * 0x10000 ≤ data.length :=
    (Nat.div_mul_le_self _ _).trans (Nat.sub_le _ _)
  rw [List.length_take, min_eq_left (hle.trans hflushed)]

lemma calledFor_of_calls {first : ℕ} {log : WriteLog} (hwritten : log.written = data) (hdata : data ≠ [])
    (hcalls : log.calls.map CommitCall.view =
      (List.range (flushesOf data.length)).map (flushCall first data) ++ [lastCall first data]) :
    CalledFor first data log := by
  have hpos : 0 < data.length := List.length_pos_of_ne_nil hdata
  have hlength : log.calls.length = flushesOf data.length + 1 := by
    simpa using congrArg List.length hcalls
  constructor
  · exact hwritten
  · rw [hlength, flushesOf]
    omega
  · intro k call hk hcall
    rw [hlength] at hk
    have hview := congrArg (fun l => l[k]?) hcalls
    simp only [List.getElem?_map, hcall, Option.map_some] at hview
    rw [List.getElem?_append_left (by simpa using hk), List.getElem?_map, List.getElem?_range (by omega)] at hview
    simp only [Option.map_some, Option.some.injEq, CommitCall.view, flushCall, Prod.mk.injEq] at hview
    obtain ⟨hdone, hoffset, hincomplete⟩ := hview
    exact ⟨hdone, by rw [hdone, take_flushed (by omega)], hoffset, hincomplete⟩
  · intro call hcall
    have hview := congrArg List.getLast? hcalls
    rw [List.getLast?_map, hcall, List.getLast?_concat] at hview
    simp only [Option.map_some, Option.some.injEq, CommitCall.view, lastCall, Prod.mk.injEq] at hview
    exact ⟨hview.1, hview.2.2⟩

lemma run_create (hname : request.name ≠ []) (haccept : E.store request s = (.accepted w, s')) (buff : Bytes)
    (log : WriteLog) : (create request : WriteCommand ω).run E.recording buff (s, log) =
      ({ (create request : WriteCommand ω) with writer := some w }).proceed E.recording buff (s', log) := by
  have hstore : E.recording.store request (s, log) = (.accepted w, s', log) := by
    simp only [WriteEnv.recording, haccept]
  simp only [WriteCommand.run, create, hname, hstore, Bool.false_eq_true, if_false]

lemma counted_create (hE : E.Serves I) (haccept : E.store request s = (.accepted w, s')) :
    Counted I request.offset [] { (create request : WriteCommand ω) with writer := some w } (s', {}) where
  fed := ⟨⟨w, rfl, hE.store request s w s' haccept⟩, rfl, rfl, rfl, rfl⟩
  counter := rfl

lemma run_buffers (hE : E.Serves I) (hname : request.name ≠ []) (haccept : E.store request s = (.accepted w, s'))
    {buffers : List Bytes} (hbuffers : ∀ b ∈ buffers, b ≠ [] ∧ b.length ≤ 0x10000) :
    let r := (buffers ++ [[]]).foldl (feed E.recording) (create request, s, {})
    Along (feed E.recording) (Regular E.recording) (create request, s, {}) (buffers ++ [[]]) ∧
      r.1.bytesSinceLastFlush ≤ 0x10000 ∧ CalledFor request.offset buffers.flatten r.2.2 := by
  have hstart := counted_create hE haccept
  cases buffers with
  | nil =>
    have hrun := run_create hname haccept [] {}
    have hproceed : ({ (create request : WriteCommand ω) with writer := some w }).proceed E.recording [] (s', {}) =
        (.returned true, { (create request : WriteCommand ω) with started := true, writer := some w }, s', {}) := by
      simp [WriteCommand.proceed, create]
    rw [hproceed] at hrun
    simp only [List.nil_append, List.foldl_cons, List.foldl_nil, WriteCommand.feed, hrun]
    refine ⟨⟨regular_of_counter (Nat.zero_le _) (Nat.zero_le _) (by rw [hrun]), trivial⟩, Nat.zero_le _, rfl,
      rfl, ?_, ?_⟩
    · simp
    · simp
  | cons b buffers =>
    obtain ⟨⟨hb, hsize⟩, hrest⟩ := List.forall_mem_cons.1 hbuffers
    have hrun := run_create hname haccept b {}
    rw [WriteCommand.proceed, if_neg hb] at hrun
    obtain ⟨houtcome, hcounted⟩ := hstart.consume hE hb hsize
    obtain ⟨hstarted, hfinished⟩ := consume_flags (E := E.recording)
      { (create request : WriteCommand ω) with writer := some w } b (s', {})
    rw [← hrun] at houtcome hcounted hstarted hfinished
    have hfirst : Regular E.recording (create request, s, {}) b := regular_of_counter (Nat.zero_le _) hsize houtcome
    obtain ⟨halong, hstarted', hfinished', hall⟩ := hcounted.feed_all hE hstarted hfinished buffers hrest
    rw [List.nil_append, ← List.flatten_cons] at hall
    have hcommit := hall.fed.commit hE
    have hlast (r : WriteCommand ω × σ × WriteLog) (hr : r.1.started = true) (hr' : r.1.finished = false) :
        r.1.run E.recording [] r.2 = r.1.commit E.recording r.2 := by
      simp [WriteCommand.run, hr, hr', WriteCommand.proceed]
    rw [← hlast _ hstarted' hfinished'] at hcommit
    obtain ⟨houtcome', hzero, hwritten, hcalls⟩ := hcommit
    have hdata : (b :: buffers).flatten ≠ [] := by simp [hb]
    have hending := regular_of_counter hall.counter_le (Nat.zero_le _) houtcome'
    refine ⟨?_, ?_, ?_⟩
    · exact ⟨hfirst, (along_append _).2 ⟨halong, hending, trivial⟩⟩
    · rw [List.foldl_append]
      exact hzero.le.trans (Nat.zero_le _)
    · rw [List.foldl_append]
      exact calledFor_of_calls hwritten hdata hcalls

theorem calls_of_buffers (hE : E.Serves I) (hname : request.name ≠ [])
    (haccept : E.store request s = (.accepted w, s')) {buffers : List Bytes}
    (hbuffers : ∀ b ∈ buffers, b ≠ [] ∧ b.length ≤ 0x10000) :
    let r := (buffers ++ [[]]).foldl (feed E.recording) (create request, s, {})
    Along (feed E.recording) (Regular E.recording) (create request, s, {}) (buffers ++ [[]]) ∧
      r.1.bytesSinceLastFlush ≤ 0x10000 ∧ CalledFor request.offset buffers.flatten r.2.2 :=
  run_buffers hE hname haccept hbuffers

end Runs

end WriteCommand

section Example

variable {κ : Type} {T : TurboLib} {hasher : Bytes → Bytes}
  {onCommit : WriteInstructions → Readstream → StoreState κ → WriteInstructions × StoreState κ}

def Writestream.Open (w : Writestream) (n : ℕ) (s : StoreState κ) : Prop :=
  ∃ inode, w.writer.inode = some inode ∧ w.writer.offset = n ∧ s.fs.find w.writer.path = some inode

lemma FileSystem.find_openWrite {fs fs' : FileSystem} {p : Path} {inode : ℕ}
    (h : fs.openWrite p = (some inode, fs')) : fs'.find p = some inode := by
  rcases fs.openWrite_cases p with hnone | ⟨d, nm, k, rfl, hold, hopen⟩ | ⟨d, nm, rfl, hd, -, hopen⟩
  · simp [hnone] at h
  · rw [hopen] at h
    obtain ⟨hinode, rfl⟩ := Prod.mk.inj h
    rw [FileSystem.find_concat, hold, hinode]
  · rw [hopen] at h
    obtain ⟨hinode, rfl⟩ := Prod.mk.inj h
    have hlookup : (fs.link d nm (some fs.inodes.length)).lookup d nm = _ := FileSystem.lookup_link hd _
    rw [if_pos ⟨rfl, rfl⟩] at hlookup
    rw [FileSystem.find_concat, ← hinode]
    exact hlookup

lemma Writestream.open_of_openVersion {fs fs' : FileSystem} {n : Bytes} {clock : VectorClock} {copies : ℕ}
    {w : Writestream} {s : StoreState κ} (h : FileStore.openVersion T fs n clock copies = (.accepted w, fs'))
    (hs : s.fs = fs') : w.Open 0 s := by
  rw [FileStore.openVersion] at h
  split at h
  case h_1 => simp at h
  case h_2 inode fs₁ hopen =>
    obtain ⟨hw, rfl⟩ := Prod.mk.inj h
    rw [← StoreAnswer.accepted.inj hw]
    refine ⟨inode, rfl, rfl, ?_⟩
    rw [hs]
    change fs₁.find _ = some inode
    exact FileSystem.find_openWrite hopen

lemma FileStore.write_cases (T : TurboLib) (host : Host) (fs : FileSystem) (n version : Bytes) (copies : ℕ) :
    FileStore.write T host fs n version copies = (.threw, fs) ∨
    FileStore.write T host fs n version copies = (.refused, fs) ∨
    ∃ clock, FileStore.write T host fs n version copies = openVersion T fs n clock copies := by
  rw [write]
  cases VectorClock.fromString T version with
  | threw => exact Or.inl rfl
  | failed => exact Or.inr (Or.inr ⟨_, rfl⟩)
  | parsed clock =>
    dsimp only
    split_ifs
    · exact Or.inr (Or.inr ⟨_, rfl⟩)
    · exact Or.inr (Or.inl rfl)
    · exact Or.inr (Or.inr ⟨_, rfl⟩)

lemma FileStore.env_serves (hfs : ∀ params reader s, (onCommit params reader s).2.fs = s.fs)
    (hincomplete : ∀ params reader s, params.isComplete = false → (onCommit params reader s).1.isComplete = false) :
    (FileStore.env T hasher onCommit).Serves Writestream.Open where
  store request s w s' h := by
    simp only [FileStore.env] at h
    obtain ⟨hanswer, rfl⟩ := Prod.mk.inj h
    rcases FileStore.write_cases T s.host s.fs request.name request.version (toUnsignedShort request.copies) with
      hthrew | hrefused | ⟨clock, hopen⟩
    · simp [hthrew] at hanswer
    · simp [hrefused] at hanswer
    · rw [hopen] at hanswer ⊢
      exact Writestream.open_of_openVersion (Prod.ext hanswer rfl) rfl
  write w n s buff h := by
    obtain ⟨inode, hinode, hoffset, hfind⟩ := h
    simp only [FileStore.env, Writestream.write, hinode]
    exact ⟨inode, rfl, by rw [← hoffset], hfind⟩
  flush w n s h := by
    obtain ⟨inode, hinode, hoffset, hfind⟩ := h
    simp only [FileStore.env, Writestream.commit, hfind, Option.map_some, Bool.false_eq_true, if_false]
    exact ⟨_, _, _, rfl, inode, hinode, hoffset, hfind⟩
  close w n s h := by
    obtain ⟨inode, hinode, hoffset, hfind⟩ := h
    simp only [FileStore.env, Writestream.commit, hfind, Option.map_some]
    exact ⟨_, _, _, rfl⟩
  position w n s h := by
    obtain ⟨inode, hinode, hoffset, -⟩ := h
    simp [FileStore.env, Writestream.position, hinode, hoffset]
  onCommit w n s params reader h := by
    obtain ⟨inode, hinode, hoffset, hfind⟩ := h
    exact ⟨inode, hinode, hoffset, by rw [FileStore.env, hfs, hfind]⟩
  incomplete s params reader := hincomplete params reader s

def emptyStore : StoreState Unit := ⟨.empty, ⟨ascii "me", 5⟩, ()⟩

def quiet (params : WriteInstructions) (_ : Readstream) (s : StoreState Unit) : WriteInstructions × StoreState Unit :=
  (params, s)

abbrev quietEnv : WriteEnv (StoreState Unit) Writestream Readstream := FileStore.env .reference id quiet

lemma quietEnv_serves : quietEnv.Serves Writestream.Open :=
  FileStore.env_serves (fun _ _ _ => rfl) fun _ _ _ h => h

def bigFile (offset : ℕ) : Write := { name := ascii "bigfile.txt", offset := offset }

lemma emptyStore_canVersion (n : Bytes) (hn : FileStore.dirpath n ≠ []) :
    FileStore.CanVersion .reference emptyStore.host emptyStore.fs n where
  memberId := by decide +kernel
  counts u hu := by
    have hnone : emptyStore.fs.dirs.get (FileStore.dirpath n) = none := by
      simp [emptyStore, FileSystem.empty, SortedMap.get_insert, Ne.symm hn]
    simp [FileStore.versions, FileSystem.list, hnone] at hu

lemma emptyStore_accepts (offset : ℕ) : ∃ w s, quietEnv.store (bigFile offset) emptyStore = (.accepted w, s) := by
  have htidy := (FileStore.Vacant.empty {ascii "bigfile.txt"}).tidy (T := .reference)
  have hfresh := htidy.newVersion TurboLib.reference_base64 TurboLib.reference_advances rfl
    (emptyStore_canVersion (ascii "bigfile.txt") (by decide))
  obtain ⟨w, fs', hopen, -⟩ := htidy.openVersion TurboLib.reference_base64 (FileStore.KeySpace.single _) rfl
    hfresh.isVersion hfresh.new (i := 0) rfl (toUnsignedShort 3)
  rw [hfresh.ofName_toString] at hopen
  have hwrite : FileStore.write .reference emptyStore.host emptyStore.fs (ascii "bigfile.txt") [] (toUnsignedShort 3) =
      (.accepted w, fs') := (FileStore.write_fresh _ _ _).trans hopen
  exact ⟨w, { emptyStore with fs := fs' }, by simp only [FileStore.env, bigFile, hwrite]⟩

def half (byte : UInt8) : Bytes := List.replicate 0x8000 byte

lemma half_length (byte : UInt8) : (half byte).length = 0x8000 := List.length_replicate

def threeBuffers : List Bytes := [half 1, half 2, [3]]

lemma threeBuffers_length : threeBuffers.flatten.length = 0x10001 := by
  simp only [threeBuffers, List.length_flatten, List.map_cons, half_length, List.map_nil, List.length_singleton]
  rfl

lemma threeBuffers_small : ∀ b ∈ threeBuffers, b ≠ [] ∧ b.length ≤ 0x10000 := by
  have hhalf (byte : UInt8) : half byte ≠ [] ∧ (half byte).length ≤ 0x10000 := by
    refine ⟨List.ne_nil_of_length_pos ?_, ?_⟩
    · rw [half_length]
      omega
    · rw [half_length]
      omega
  exact List.forall_mem_cons.2 ⟨hhalf 1, List.forall_mem_cons.2 ⟨hhalf 2, by simp⟩⟩

namespace WriteCommand

theorem calls_of_buffers_example : ∃ w s, quietEnv.store (bigFile 0) emptyStore = (.accepted w, s) ∧
    CalledFor 0 threeBuffers.flatten ((threeBuffers ++ [[]]).foldl (feed quietEnv.recording)
      (create (bigFile 0), emptyStore, {})).2.2 := by
  obtain ⟨w, s, haccept⟩ := emptyStore_accepts 0
  exact ⟨w, s, haccept, (calls_of_buffers quietEnv_serves (by decide) haccept threeBuffers_small).2.2⟩

theorem not_called_from_start : ∃ w s, quietEnv.store (bigFile 7) emptyStore = (.accepted w, s) ∧
    ¬ CalledFor 0 threeBuffers.flatten ((threeBuffers ++ [[]]).foldl (feed quietEnv.recording)
      (create (bigFile 7), emptyStore, {})).2.2 := by
  obtain ⟨w, s, haccept⟩ := emptyStore_accepts 7
  refine ⟨w, s, haccept, fun hzero => ?_⟩
  have hseven := (run_buffers quietEnv_serves (by decide) haccept threeBuffers_small).2.2
  have hcount := hseven.count
  rw [threeBuffers_length] at hcount
  generalize ((threeBuffers ++ [[]]).foldl (feed quietEnv.recording) (create (bigFile 7), emptyStore,
    {})).2.2 = log at *
  have htwo : 0 + 1 < log.calls.length := by omega
  have hfirst := List.getElem?_eq_getElem (Nat.lt_of_succ_lt htwo)
  have hoffset := (hzero.earlier 0 _ htwo hfirst).2.2.1
  rw [(hseven.earlier 0 _ htwo hfirst).2.2.1] at hoffset
  simp [bigFile] at hoffset

end WriteCommand

end Example

end Turbopump
