import Turbopump.Api.CommitCalls
import Turbopump.Common.ReferenceClocks
import Turbopump.Storage.FileStore

/-! A wait for a key and a write session on it. The session notifies the watches each time the write command calls its
callback, and the scheduler executes calls on the watches in the order in which they were made. -/

namespace Turbopump

inductive WatchCall where
  | watch
  | unwatch
  -- whether the notification follows the whole write
  | notify (isComplete : Bool)
  deriving DecidableEq

/-- On whether the wait's function is registered, and on the monitor that the function signals. -/
def WatchCall.exec : Bool × Bool → WatchCall → Bool × Bool
  | (_, signalled), .watch => (true, signalled)
  | (_, signalled), .unwatch => (false, signalled)
  | (registered, signalled), .notify _ => (registered, signalled || registered)

/-- Where `WaitCommand::run` is: before `watch`, the first `tryRead`, `wait`, the second `tryRead` and `unwatch`, or at
its end. -/
inductive Waiter where
  | start
  | reading
  | waiting
  | woken
  | leaving (status : ℕ)
  | ended (status : ℕ)
  deriving DecidableEq

inductive WriteSession where
  | writing (flushes : ℕ)
  | renamed
  | finished
  deriving DecidableEq

structure WriteProgress (σ ω : Type) where
  content : Bytes
  writer : ω
  store : σ

namespace WriteProgress

variable {σ ω ρ : Type} (E : WriteEnv σ ω ρ)

/-- Up to 64 KiB more are written, and flushed or committed. -/
def save (p : WriteProgress σ ω) (isComplete : Bool) : WriteProgress σ ω :=
  let (writer, store) := E.write p.writer (p.content.take 0x10000) p.store
  let (_, writer, store) := E.commit writer isComplete store
  ⟨p.content.drop 0x10000, writer, store⟩

def complete : ℕ → WriteProgress σ ω → σ
  | 0, p => (p.save E true).store
  | flushes + 1, p => complete flushes (p.save E false)

end WriteProgress

structure WaitCommand (σ ω : Type) where
  scheduled : List WatchCall := []
  registered : Bool := false
  signalled : Bool := false
  cancelled : Bool := false
  waiter : Waiter := .start
  session : WriteSession
  progress : WriteProgress σ ω

inductive WaitAction where
  | run
  | cancel
  | execute
  | flush
  | commit
  | notify
  deriving DecidableEq

namespace WaitCommand

variable {σ ω ρ : Type} (E : WriteEnv σ ω ρ) (finds : σ → Bool)

def schedule (s : WaitCommand σ ω) (c : WatchCall) : WaitCommand σ ω := { s with scheduled := s.scheduled ++ [c] }

def tryRead (s : WaitCommand σ ω) (missing : Waiter) : WaitCommand σ ω :=
  { s with waiter := if finds s.progress.store then .leaving 200 else missing }

def run (s : WaitCommand σ ω) : WaitCommand σ ω := match s.waiter with
  | .start => { s.schedule .watch with waiter := .reading }
  | .reading => s.tryRead finds .waiting
  | .waiting =>
    if s.cancelled then { s with waiter := .leaving 0 }
    else if s.signalled then { s with waiter := .woken } else s
  | .woken => s.tryRead finds (.leaving 404)
  | .leaving status => { s.schedule .unwatch with waiter := .ended status }
  | .ended _ => s

def execute (s : WaitCommand σ ω) : WaitCommand σ ω := match s.scheduled with
  | [] => s
  | c :: scheduled =>
    let (registered, signalled) := c.exec (s.registered, s.signalled)
    { s with scheduled := scheduled, registered := registered, signalled := signalled }

def step (s : WaitCommand σ ω) : WaitAction → WaitCommand σ ω
  | .run => s.run finds
  | .cancel => { s.schedule .unwatch with cancelled := true }
  | .execute => s.execute
  | .flush => match s.session with
    | .writing (flushes + 1) =>
      { s.schedule (.notify false) with session := .writing flushes, progress := s.progress.save E false }
    | _ => s
  | .commit => match s.session with
    | .writing 0 => { s with session := .renamed, progress := s.progress.save E true }
    | _ => s
  | .notify => match s.session with
    | .renamed => { s.schedule (.notify true) with session := .finished }
    | _ => s

def begin (p : WriteProgress σ ω) : WaitCommand σ ω :=
  { session := .writing (WriteCommand.flushesOf p.content.length), progress := p }

def drained (s : WaitCommand σ ω) : Bool × Bool := s.scheduled.foldl WatchCall.exec (s.registered, s.signalled)

structure Sound (s : WaitCommand σ ω) : Prop where
  status : s.cancelled = false → ∀ status, s.waiter = .leaving status ∨ s.waiter = .ended status →
    status = 200 ∧ finds s.progress.store = true
  woken : s.cancelled = false → s.session = .finished → s.waiter = .waiting → s.drained.2 = true

/-- No notification of an unfinished write is executed for the wait before there is something to read, a flush does not
hide what there is, and there is something after the commit. -/
def Orderly (s : WaitCommand σ ω) : WaitAction → Prop
  | .execute => s.scheduled.head? = some (.notify false) → s.registered = true → finds s.progress.store = true
  | .flush => finds s.progress.store = true → finds (s.progress.save E false).store = true
  | .commit => s.session = .writing 0 → finds (s.progress.save E true).store = true
  | _ => True

structure Waits (s : WaitCommand σ ω) : Prop where
  signalled : s.signalled = true → finds s.progress.store = true
  notified : .notify true ∈ s.scheduled → finds s.progress.store = true
  session : (∀ flushes, s.session ≠ .writing flushes) → finds s.progress.store = true
  woken : s.waiter = .woken → finds s.progress.store = true
  status : s.cancelled = false → ∀ status, s.waiter = .leaving status ∨ s.waiter = .ended status →
    status = 200 ∧ finds s.progress.store = true
  registered : s.cancelled = false → s.waiter = .reading ∨ s.waiter = .waiting → s.drained.1 = true
  finished : s.cancelled = false → s.session = .finished → s.waiter = .waiting → s.drained.2 = true

section Steps

variable {E finds} {s : WaitCommand σ ω}

lemma drained_schedule (c : WatchCall) : (s.schedule c).drained = c.exec s.drained := by
  rw [drained, schedule, List.foldl_append]
  rfl

lemma drained_execute : s.execute.drained = s.drained := by
  simp only [execute]
  cases hscheduled : s.scheduled with
  | nil => rfl
  | cons c scheduled => simp only [drained, hscheduled, List.foldl_cons]

lemma Waits.sound (h : s.Waits finds) : s.Sound finds := ⟨h.status, h.finished⟩

lemma Waits.execute (h : s.Waits finds) (horderly : s.Orderly E finds .execute) : s.execute.Waits finds := by
  have hdrained := @drained_execute _ _ s
  cases hscheduled : s.scheduled with
  | nil =>
    have hsame : s.execute = s := by simp only [WaitCommand.execute, hscheduled]
    rw [hsame]
    exact h
  | cons c scheduled =>
    have hexecute : s.execute = { s with
        scheduled := scheduled
        registered := (c.exec (s.registered, s.signalled)).1
        signalled := (c.exec (s.registered, s.signalled)).2 } := by
      simp only [WaitCommand.execute, hscheduled]
    rw [hexecute] at hdrained ⊢
    refine ⟨fun hsignal => ?_, fun hmem => h.notified (hscheduled ▸ List.mem_cons_of_mem _ hmem), h.session, h.woken,
      h.status, fun hlive hwaiter => ?_, fun hlive hsession hwaiter => ?_⟩
    · cases c with
      | watch => exact h.signalled hsignal
      | unwatch => exact h.signalled hsignal
      | notify isComplete =>
        rcases Bool.or_eq_true_iff.1 hsignal with hsignal | hregistered
        · exact h.signalled hsignal
        · cases isComplete with
          | true => exact h.notified (hscheduled ▸ List.mem_cons_self)
          | false => exact horderly (by rw [hscheduled]; rfl) hregistered
    · rw [hdrained]
      exact h.registered hlive hwaiter
    · rw [hdrained]
      exact h.finished hlive hsession hwaiter

lemma Waits.schedule (h : s.Waits finds) {c : WatchCall} (hnotify : c = .notify true → finds s.progress.store = true)
    (hunwatch : c = .unwatch → s.cancelled = true) : (s.schedule c).Waits finds := by
  have hfirst (hlive : s.cancelled = false) (hdrained : s.drained.1 = true) : (s.schedule c).drained.1 = true := by
    rw [drained_schedule]
    cases c with
    | watch => rfl
    | notify isComplete => exact hdrained
    | unwatch =>
      rw [hunwatch rfl] at hlive
      cases hlive
  have hsecond (hdrained : s.drained.2 = true) : (s.schedule c).drained.2 = true := by
    rw [drained_schedule]
    cases c with
    | watch => exact hdrained
    | unwatch => exact hdrained
    | notify isComplete => exact Bool.or_eq_true_iff.2 (.inl hdrained)
  refine ⟨h.signalled, fun hmem => ?_, h.session, h.woken, h.status, fun hlive hwaiter => ?_,
    fun hlive hsession hwaiter => ?_⟩
  · rcases List.mem_append.1 hmem with hmem | hmem
    · exact h.notified hmem
    · exact hnotify (List.mem_singleton.1 hmem).symm
  · exact hfirst hlive (h.registered hlive hwaiter)
  · exact hsecond (h.finished hlive hsession hwaiter)

lemma notified_schedule {c : WatchCall} (hc : c ≠ .notify true) (hmem : .notify true ∈ (s.schedule c).scheduled) :
    .notify true ∈ s.scheduled := by
  rcases List.mem_append.1 hmem with hmem | hmem
  · exact hmem
  · exact absurd (List.mem_singleton.1 hmem).symm hc

lemma Waits.progress (h : s.Waits finds) {p : WriteProgress σ ω}
    (hfinds : finds s.progress.store = true → finds p.store = true) : { s with progress := p }.Waits finds where
  signalled hsignal := hfinds (h.signalled hsignal)
  notified hmem := hfinds (h.notified hmem)
  session hsession := hfinds (h.session hsession)
  woken hwaiter := hfinds (h.woken hwaiter)
  status hlive status hstatus := (h.status hlive status hstatus).imp_right hfinds
  registered := h.registered
  finished := h.finished

lemma Waits.run (h : s.Waits finds) : (s.run finds).Waits finds := by
  cases hwaiter : s.waiter with
  | start =>
    simp only [WaitCommand.run, hwaiter]
    refine ⟨h.signalled, fun hmem => h.notified (notified_schedule (by simp) hmem), h.session, by simp, by simp,
      fun _ _ => ?_, by simp⟩
    exact congrArg Prod.fst (@drained_schedule _ _ s .watch)
  | reading =>
    simp only [WaitCommand.run, hwaiter, WaitCommand.tryRead]
    cases hfinds : finds s.progress.store with
    | true =>
      exact ⟨fun _ => hfinds, fun _ => hfinds, fun _ => hfinds, fun _ => hfinds, by simp [hfinds], by simp, by simp⟩
    | false =>
      refine ⟨h.signalled, h.notified, h.session, by simp, by simp, fun hlive _ => h.registered hlive (.inl hwaiter),
        ?_⟩
      -- the session is not over, or there would have been something to read
      intro _ hsession
      have hread := h.session fun flushes => by rw [show s.session = .finished from hsession]; simp
      rw [hfinds] at hread
      cases hread
  | waiting =>
    simp only [WaitCommand.run, hwaiter]
    split_ifs with hcancelled hsignal
    · exact ⟨h.signalled, h.notified, h.session, by simp, by simp [hcancelled], by simp, by simp⟩
    · exact ⟨h.signalled, h.notified, h.session, fun _ => h.signalled hsignal, by simp, by simp, by simp⟩
    · exact h
  | woken =>
    have hread := h.woken hwaiter
    simp only [WaitCommand.run, hwaiter, WaitCommand.tryRead, if_pos hread]
    exact ⟨h.signalled, h.notified, h.session, by simp, by simp [hread], by simp, by simp⟩
  | leaving status =>
    simp only [WaitCommand.run, hwaiter]
    refine ⟨h.signalled, fun hmem => h.notified (notified_schedule (by simp) hmem), h.session, by simp,
      fun hlive status' hstatus' => h.status hlive status' (.inl ?_), by simp, by simp⟩
    rw [hwaiter]
    simpa using hstatus'
  | ended status =>
    simp only [WaitCommand.run, hwaiter]
    exact h

lemma Waits.cancel (h : s.Waits finds) : (s.step E finds .cancel).Waits finds := by
  have hmem (hmem : .notify true ∈ (s.schedule .unwatch).scheduled) := h.notified (notified_schedule (by simp) hmem)
  exact ⟨h.signalled, hmem, h.session, h.woken, by simp [WaitCommand.step], by simp [WaitCommand.step],
    by simp [WaitCommand.step]⟩

lemma Waits.flush (h : s.Waits finds) (horderly : s.Orderly E finds .flush) :
    (s.step E finds .flush).Waits finds := by
  simp only [WaitCommand.step]
  split
  case h_1 flushes hsession =>
    have hsaved := h.progress horderly
    have hscheduled := hsaved.schedule (show WatchCall.notify false = .notify true → _ by simp) (by simp)
    exact ⟨hscheduled.signalled, hscheduled.notified, fun hsession => absurd rfl (hsession flushes), hscheduled.woken,
      hscheduled.status, hscheduled.registered, by simp⟩
  case h_2 => exact h

lemma Waits.commit (h : s.Waits finds) (horderly : s.Orderly E finds .commit) :
    (s.step E finds .commit).Waits finds := by
  simp only [WaitCommand.step]
  split
  case h_1 hsession =>
    have hfinds := horderly hsession
    have hsaved := h.progress (p := s.progress.save E true) fun _ => hfinds
    exact ⟨hsaved.signalled, hsaved.notified, fun _ => hfinds, hsaved.woken, hsaved.status, hsaved.registered, by simp⟩
  case h_2 => exact h

lemma Waits.notify (h : s.Waits finds) : (s.step E finds .notify).Waits finds := by
  simp only [WaitCommand.step]
  split
  case h_1 hsession =>
    have hfinds := h.session fun flushes => by rw [hsession]; simp
    have hscheduled := h.schedule (c := .notify true) (fun _ => hfinds) (by simp)
    refine ⟨hscheduled.signalled, hscheduled.notified, fun _ => hfinds, hscheduled.woken, hscheduled.status,
      hscheduled.registered, fun hlive _ hwaiter => ?_⟩
    -- the watch is there when this notification is executed
    have hregistered := h.registered hlive (.inr hwaiter)
    exact (congrArg Prod.snd (@drained_schedule _ _ s (.notify true))).trans (Bool.or_eq_true_iff.2 (.inr hregistered))
  case h_2 => exact h

lemma Waits.step (h : s.Waits finds) {a : WaitAction} (horderly : s.Orderly E finds a) :
    (s.step E finds a).Waits finds := by
  cases a with
  | run => exact h.run
  | cancel => exact h.cancel
  | execute => exact h.execute horderly
  | flush => exact h.flush horderly
  | commit => exact h.commit horderly
  | notify => exact h.notify

lemma waits_begin (p : WriteProgress σ ω) : (begin p).Waits finds :=
  ⟨by simp [begin], by simp [begin], fun hsession => absurd rfl (hsession _), by simp [begin], by simp [begin],
    by simp [begin], by simp [begin]⟩

lemma sound_of_orderly {p : WriteProgress σ ω} {actions : List WaitAction}
    (h : Along (step E finds) (Orderly E finds) (begin p) actions) :
    (actions.foldl (step E finds) (begin p)).Sound finds :=
  (Along.invariant (fun _ _ hs ha => hs.step ha) (waits_begin p) h).sound

structure Small (s : WaitCommand σ ω) : Prop where
  session : ∀ flushes, s.session = .writing flushes → flushes = 0
  notified : .notify false ∉ s.scheduled

lemma Small.step (h : s.Small) (a : WaitAction) : (s.step E finds a).Small := by
  have hschedule {c : WatchCall} (hc : c ≠ .notify false) : .notify false ∉ (s.schedule c).scheduled := by
    rw [schedule, List.mem_append, List.mem_singleton, not_or]
    exact ⟨h.notified, Ne.symm hc⟩
  cases a with
  | run =>
    simp only [WaitCommand.step, WaitCommand.run]
    split
    · exact ⟨h.session, hschedule (by simp)⟩
    · exact ⟨h.session, h.notified⟩
    · split_ifs
      · exact ⟨h.session, h.notified⟩
      · exact ⟨h.session, h.notified⟩
      · exact h
    · exact ⟨h.session, h.notified⟩
    · exact ⟨h.session, hschedule (by simp)⟩
    · exact h
  | cancel => exact ⟨h.session, hschedule (by simp)⟩
  | execute =>
    simp only [WaitCommand.step, WaitCommand.execute]
    split
    · exact h
    · rename_i c scheduled hscheduled
      exact ⟨h.session, fun hmem => h.notified (hscheduled ▸ List.mem_cons_of_mem _ hmem)⟩
  | flush =>
    simp only [WaitCommand.step]
    split
    · rename_i flushes hsession
      exact absurd (h.session _ hsession) (by omega)
    · exact h
  | commit =>
    simp only [WaitCommand.step]
    split
    · exact ⟨by simp, h.notified⟩
    · exact h
  | notify =>
    simp only [WaitCommand.step]
    split
    · exact ⟨by simp, hschedule (by simp)⟩
    · exact h

/-- As long as the session writes, it leads to a store in which the wait finds the key, and this one after it. -/
structure Leads (E : WriteEnv σ ω ρ) (finds : σ → Bool) (s : WaitCommand σ ω) : Prop where
  writing : ∀ flushes, s.session = .writing flushes → finds (s.progress.complete E flushes) = true
  done : (∀ flushes, s.session ≠ .writing flushes) → finds s.progress.store = true

/-- What has been flushed and not committed shows in no read. -/
def Quiet (E : WriteEnv σ ω ρ) (finds : σ → Bool) : Prop :=
  ∀ p : WriteProgress σ ω, finds (p.save E false).store = finds p.store

lemma session_cases (s : WaitCommand σ ω) (a : WaitAction) : let s' := s.step E finds a
    (s'.session = s.session ∧ s'.progress = s.progress) ∨
    (∃ flushes, s.session = .writing (flushes + 1) ∧ s'.session = .writing flushes ∧
      s'.progress = s.progress.save E false) ∨
    (s.session = .writing 0 ∧ s'.session = .renamed ∧ s'.progress = s.progress.save E true) ∨
    (s.session = .renamed ∧ s'.session = .finished ∧ s'.progress = s.progress) := by
  cases a with
  | run =>
    refine .inl ?_
    simp only [WaitCommand.step, WaitCommand.run]
    split
    · exact ⟨rfl, rfl⟩
    · exact ⟨rfl, rfl⟩
    · split_ifs <;> exact ⟨rfl, rfl⟩
    · exact ⟨rfl, rfl⟩
    · exact ⟨rfl, rfl⟩
    · exact ⟨rfl, rfl⟩
  | cancel => exact .inl ⟨rfl, rfl⟩
  | execute =>
    refine .inl ?_
    simp only [WaitCommand.step, WaitCommand.execute]
    split <;> exact ⟨rfl, rfl⟩
  | flush =>
    simp only [WaitCommand.step]
    split
    case h_1 flushes hsession => exact .inr (.inl ⟨flushes, hsession, rfl, rfl⟩)
    case h_2 => exact .inl ⟨rfl, rfl⟩
  | commit =>
    simp only [WaitCommand.step]
    split
    case h_1 hsession => exact .inr (.inr (.inl ⟨hsession, rfl, rfl⟩))
    case h_2 => exact .inl ⟨rfl, rfl⟩
  | notify =>
    simp only [WaitCommand.step]
    split
    case h_1 hsession => exact .inr (.inr (.inr ⟨hsession, rfl, rfl⟩))
    case h_2 => exact .inl ⟨rfl, rfl⟩

lemma Leads.step (h : s.Leads E finds) (a : WaitAction) : (s.step E finds a).Leads E finds := by
  rcases session_cases s a with ⟨hsame, hprogress⟩ | ⟨flushes, hsession, hnext, hprogress⟩ |
    ⟨hsession, hnext, hprogress⟩ | ⟨hsession, hnext, hprogress⟩
  · refine ⟨fun flushes hwriting => ?_, fun hdone => ?_⟩
    · rw [hprogress]
      exact h.writing flushes (hsame ▸ hwriting)
    · rw [hprogress]
      exact h.done (hsame ▸ hdone)
  · refine ⟨fun flushes' hwriting => ?_, fun hdone => absurd hnext (hdone flushes)⟩
    obtain rfl : flushes = flushes' := WriteSession.writing.inj (hnext.symm.trans hwriting)
    rw [hprogress]
    exact h.writing _ hsession
  · refine ⟨fun flushes hwriting => by simp [hnext] at hwriting, fun _ => ?_⟩
    rw [hprogress]
    exact h.writing 0 hsession
  · refine ⟨fun flushes hwriting => by simp [hnext] at hwriting, fun _ => ?_⟩
    rw [hprogress]
    exact h.done fun flushes => by simp [hsession]

lemma readable_step (hquiet : Quiet E finds) (hleads : s.Leads E finds) (h : finds s.progress.store = true)
    (a : WaitAction) : finds (s.step E finds a).progress.store = true := by
  rcases session_cases s a with ⟨-, hprogress⟩ | ⟨flushes, -, -, hprogress⟩ | ⟨hsession, -, hprogress⟩ |
    ⟨-, -, hprogress⟩
  · rw [hprogress, h]
  · rw [hprogress, hquiet, h]
  · rw [hprogress]
    exact hleads.writing 0 hsession
  · rw [hprogress, h]

lemma along_orderly (hquiet : Quiet E finds) {p : WriteProgress σ ω} (hleads : (begin p).Leads E finds)
    (h : finds p.store = true ∨ p.content.length ≤ 0x10000)
    (actions : List WaitAction) : Along (step E finds) (Orderly E finds) (begin p) actions := by
  have horderly (s : WaitCommand σ ω) (hs : s.Leads E finds ∧ (finds s.progress.store = true ∨ s.Small))
      (a : WaitAction) : s.Orderly E finds a := by
    cases a with
    | execute =>
      intro hhead _
      exact hs.2.resolve_right fun hsmall => hsmall.notified (List.mem_of_mem_head? hhead)
    | flush => exact fun hfinds => (hquiet _).trans hfinds
    | commit => exact fun hsession => hs.1.writing 0 hsession
    | _ => trivial
  have hbegin : finds (begin p).progress.store = true ∨ (begin p).Small := by
    refine h.imp id fun hsize => ⟨fun flushes hflushes => ?_, by simp [begin]⟩
    have hflush : WriteCommand.flushesOf p.content.length = 0 := by
      rw [WriteCommand.flushesOf]
      omega
    rw [begin, hflush] at hflushes
    exact (WriteSession.writing.inj hflushes).symm
  refine along_iff.2 fun before a _ => horderly _ ?_ a
  exact foldl_invariant (I := fun s : WaitCommand σ ω => s.Leads E finds ∧ (finds s.progress.store = true ∨ s.Small))
    (fun s a hs => ⟨hs.1.step a, hs.2.imp (readable_step hquiet hs.1 · a) (Small.step · a)⟩) ⟨hleads, hbegin⟩ before

-- the wait is woken by the first flush, and reads before the commit
lemma ends_missing (hquiet : Quiet E finds) {p : WriteProgress σ ω} (hfinds : finds p.store = false)
    (h : 0x10000 < p.content.length) :
    let s := [WaitAction.run, .run, .execute, .flush, .execute, .run, .run].foldl (step E finds) (begin p)
    s.cancelled = false ∧ s.waiter = .leaving 404 := by
  obtain ⟨flushes, hflushes⟩ : ∃ flushes, WriteCommand.flushesOf p.content.length = flushes + 1 := by
    rw [WriteCommand.flushesOf]
    exact ⟨(p.content.length - 1) / 0x10000 - 1, by omega⟩
  have hsaved := (hquiet p).trans hfinds
  have hwaits : [WaitAction.run, .run].foldl (step E finds) (begin p) =
      { begin p with scheduled := [.watch], waiter := .waiting, session := .writing (flushes + 1) } := by
    simp [WaitCommand.step, WaitCommand.run, tryRead, begin, WaitCommand.schedule, hfinds, hflushes]
  rw [show [WaitAction.run, .run, .execute, .flush, .execute, .run, .run] =
    [.run, .run] ++ [.execute, .flush, .execute, .run, .run] from rfl, List.foldl_append, hwaits]
  refine ⟨rfl, ?_⟩
  have hread : ([WaitAction.execute, .flush, .execute, .run, .run].foldl (step E finds) { begin p with
      scheduled := [.watch], waiter := .waiting, session := .writing (flushes + 1) }).waiter =
        if finds (p.save E false).store then .leaving 200
        else .leaving 404 := rfl
  rw [hread, hsaved]
  rfl

-- the session is over before the wait begins to read, and no notification is to come
lemma left_blocked (flushes : ℕ) {s : WaitCommand σ ω} (hsession : s.session = .writing flushes)
    (hidle : s.scheduled = [] ∧ s.registered = false ∧ s.signalled = false ∧ s.cancelled = false ∧ s.waiter = .start)
    (hfinds : finds (s.progress.complete E flushes) = false) :
    ∃ actions : List WaitAction, ¬ (actions.foldl (step E finds) s).Sound finds := by
  induction flushes generalizing s with
  | zero =>
    obtain ⟨scheduled, registered, signalled, cancelled, waiter, session, progress⟩ := s
    obtain ⟨rfl, rfl, rfl, rfl, rfl⟩ := hidle
    obtain rfl : session = .writing 0 := hsession
    refine ⟨[.commit, .notify, .execute, .run, .run], fun hsound => ?_⟩
    have hwaiting : ([WaitAction.commit, .notify, .execute, .run, .run].foldl (step E finds) ⟨[], false, false, false,
        .start, .writing 0, progress⟩).waiter = if finds (progress.complete E 0) then .leaving 200 else .waiting := rfl
    rw [hfinds] at hwaiting
    have hwoken := hsound.woken rfl rfl hwaiting
    exact absurd hwoken Bool.false_ne_true
  | succ flushes ih =>
    obtain ⟨scheduled, registered, signalled, cancelled, waiter, session, progress⟩ := s
    obtain ⟨rfl, rfl, rfl, rfl, rfl⟩ := hidle
    obtain rfl : session = .writing (flushes + 1) := hsession
    obtain ⟨actions, hactions⟩ := @ih ([WaitAction.flush, .execute].foldl (step E finds) ⟨[], false, false, false,
      .start, .writing (flushes + 1), progress⟩) rfl ⟨rfl, rfl, rfl, rfl, rfl⟩ hfinds
    exact ⟨[.flush, .execute] ++ actions, by rwa [List.foldl_append]⟩

lemma sound_all_iff (hquiet : Quiet E finds) (p : WriteProgress σ ω) :
    (∀ actions : List WaitAction, (actions.foldl (step E finds) (begin p)).Sound finds) ↔
      finds (p.complete E (WriteCommand.flushesOf p.content.length)) = true ∧
        (finds p.store = true ∨ p.content.length ≤ 0x10000) := by
  constructor
  · intro h
    have hfound : finds (p.complete E (WriteCommand.flushesOf p.content.length)) = true := by
      by_contra hmissing
      have hblocked : ∃ actions : List WaitAction, ¬ (actions.foldl (step E finds) (begin p)).Sound finds :=
        left_blocked _ rfl ⟨rfl, rfl, rfl, rfl, rfl⟩ (Bool.eq_false_iff.2 hmissing)
      obtain ⟨actions, hactions⟩ := hblocked
      exact hactions (h actions)
    refine ⟨hfound, ?_⟩
    by_contra hlong
    rw [not_or, not_le, Bool.not_eq_true] at hlong
    obtain ⟨hlive, hmissing⟩ := ends_missing hquiet hlong.1 hlong.2
    exact absurd ((h _).status hlive 404 (.inl hmissing)).1 (by decide)
  · rintro ⟨hfound, hsmall⟩ actions
    have hleads : (begin p).Leads E finds := by
      refine ⟨fun flushes hflushes => ?_, fun hdone => absurd rfl (hdone _)⟩
      obtain rfl : WriteCommand.flushesOf p.content.length = flushes := WriteSession.writing.inj hflushes
      exact hfound
    exact sound_of_orderly (along_orderly hquiet hleads hsmall actions)

end Steps

section Store

variable {κ : Type} (T : TurboLib) (hasher : Bytes → Bytes)
  (onCommit : WriteInstructions → Readstream → StoreState κ → WriteInstructions × StoreState κ) (name version : Bytes)

def good (s : StoreState κ) : Bool := match FileStore.read T s.fs name version false with
  | .accepted _ => true
  | .refused => false
  | .threw => false

variable {T hasher onCommit name version}

lemma good_iff {s : StoreState κ} :
    good T name version s = true ↔ ∃ reader, FileStore.read T s.fs name version false = .accepted reader := by
  rw [good]
  cases FileStore.read T s.fs name version false <;> simp

/-- What is read depends on the files' content, but not whether there is something to read. -/
lemma good_of_dirs {s s' : StoreState κ} (h : s'.fs.dirs = s.fs.dirs) :
    good T name version s' = good T name version s := by
  obtain ⟨⟨dirs, inodes⟩, host, callbacks⟩ := s
  obtain ⟨⟨dirs', inodes'⟩, host', callbacks'⟩ := s'
  obtain rfl : dirs' = dirs := h
  have hopen (clock : VectorClock) :
      (∃ reader, FileStore.read.openReader T ⟨dirs', inodes'⟩ name false clock = .accepted reader) ↔
        ∃ reader, FileStore.read.openReader T ⟨dirs', inodes⟩ name false clock = .accepted reader := by
    have hfind (p : Path) : FileSystem.find ⟨dirs', inodes'⟩ p = FileSystem.find ⟨dirs', inodes⟩ p := rfl
    simp only [FileStore.read.openReader, hfind]
    cases (if false = true then FileSystem.find ⟨dirs', inodes⟩ _ else none).or _ <;> simp
  have hmerged : FileStore.mergedVersion T ⟨dirs', inodes'⟩ name false =
    FileStore.mergedVersion T ⟨dirs', inodes⟩ name false := rfl
  rw [Bool.eq_iff_iff, good_iff, good_iff, FileStore.read, FileStore.read, hmerged]
  cases VectorClock.fromString T version with
  | threw => rfl
  | failed => exact hopen _
  | parsed clock => exact hopen _

lemma quiet_env : Quiet (FileStore.env T hasher onCommit) (good T name version) := by
  rintro ⟨content, w, s⟩
  refine good_of_dirs ?_
  cases hinode : w.writer.inode with
  | none => simp [WriteProgress.save, FileStore.env, Writestream.write, Writestream.commit, hinode]
  | some inode => simp [WriteProgress.save, FileStore.env, Writestream.write, Writestream.commit, hinode,
      FileSystem.writeAt]

end Store

theorem sound_iff {κ : Type} (T : TurboLib) (hasher : Bytes → Bytes)
    (onCommit : WriteInstructions → Readstream → StoreState κ → WriteInstructions × StoreState κ) (name version : Bytes)
    (p : WriteProgress (StoreState κ) Writestream) :
    (∀ actions, Along (step (FileStore.env T hasher onCommit) (good T name version))
      (Orderly (FileStore.env T hasher onCommit) (good T name version)) (begin p) actions →
        (actions.foldl (step (FileStore.env T hasher onCommit) (good T name version)) (begin p)).Sound
          (good T name version)) ∧
    ((∀ actions : List WaitAction, (actions.foldl (step (FileStore.env T hasher onCommit) (good T name version))
      (begin p)).Sound (good T name version)) ↔
        good T name version (p.complete (FileStore.env T hasher onCommit) (WriteCommand.flushesOf p.content.length)) ∧
          (good T name version p.store ∨ p.content.length ≤ 0x10000)) :=
  ⟨fun _ h => sound_of_orderly h, sound_all_iff quiet_env p⟩

section Examples

def sessionOf (content : Bytes) : WriteProgress (StoreState Unit) Writestream :=
  let clock : VectorClock := [⟨ascii "me", 5, 0⟩]
  let path := FileStore.tempname (ascii "a") (VectorClock.toString .reference clock)
  ⟨content, ⟨⟨some 0, 0, path⟩, { version := clock }, ascii "a"⟩,
    ⟨(FileStore.openVersion .reference .empty (ascii "a") clock 3).2, ⟨ascii "me", 5⟩, ()⟩⟩

abbrev referenceStep : WaitCommand (StoreState Unit) Writestream → WaitAction →
    WaitCommand (StoreState Unit) Writestream :=
  step (FileStore.env .reference id fun params _ s => (params, s)) (good .reference (ascii "a") [])

theorem sound_of_one_flush : ([.run, .run, .commit, .notify, .execute, .execute, .run, .run].foldl referenceStep
    (begin (sessionOf [7]))).Sound (good .reference (ascii "a") []) :=
  (sound_iff .reference id (fun params _ s => (params, s)) (ascii "a") [] (sessionOf [7])).2.2
    ⟨by decide +kernel, .inr (by decide)⟩ _

theorem not_sound_flushed : ¬ ([.run, .run, .execute, .flush, .execute, .run, .run].foldl referenceStep
    (begin (sessionOf (List.replicate 65537 0)))).Sound (good .reference (ascii "a") []) := by
  intro h
  have hfinds : good .reference (ascii "a") [] (sessionOf (List.replicate 65537 0)).store = false := by decide +kernel
  have hlong : 0x10000 < (sessionOf (List.replicate 65537 0)).content.length := by
    rw [sessionOf, List.length_replicate]
    decide
  obtain ⟨hlive, hmissing⟩ := ends_missing
    (E := FileStore.env .reference id fun params _ s => (params, s)) quiet_env hfinds hlong
  exact absurd (h.status hlive 404 (.inl hmissing)).1 (by decide)

end Examples

end WaitCommand

end Turbopump
