import Turbopump.Lib.Runs
import Turbopump.PeerServer.PeerCommandRunner

/-! The buffers of one peer, queued by any number of threads and run by whichever thread has set the flag. -/

namespace Turbopump

inductive RunState where
  | scheduled
  | dequeuing
  | processing (buffer : Bytes)
  | clearing
  | checking
  | retesting
  | returned
  deriving DecidableEq

namespace RunState

def holds : RunState → Bool
  | scheduled | dequeuing | processing _ | clearing => true
  | checking | retesting | returned => false

def inDoWork : RunState → Bool
  | dequeuing | processing _ => true
  | _ => false

end RunState

/-- `adding` are the threads between the two operations of `addWork`; `enqueued` and `processed` are what has been. -/
structure CommandQueue (χ γ : Type) where
  queue : List Bytes := []
  running : Bool := false
  adding : List ℕ := []
  runs : List RunState := []
  runner : PeerCommandRunner χ γ
  enqueued : List Bytes := []
  processed : List Bytes := []

namespace CommandQueue

inductive Action where
  | enqueue (thread : ℕ) (buffer : Bytes)
  | testAndSet (thread : ℕ)
  | proceed (run : ℕ)

variable {χ γ : Type} (K : CommandCenter χ γ)

def proceed (s : CommandQueue χ γ) (i : ℕ) : RunState → CommandQueue χ γ
  | .scheduled => { s with runs := s.runs.set i .dequeuing }
  | .dequeuing => match s.queue with
    | [] => { s with runs := s.runs.set i .clearing }
    | buffer :: queue => { s with queue := queue, runs := s.runs.set i (.processing buffer) }
  | .processing buffer => { s with
      runner := s.runner.parseAndRun K buffer
      processed := s.processed ++ [buffer]
      runs := s.runs.set i .dequeuing }
  | .clearing => { s with running := false, runs := s.runs.set i .checking }
  | .checking => { s with runs := s.runs.set i (if 0 < s.queue.length then .retesting else .returned) }
  | .retesting =>
    if s.running then { s with runs := s.runs.set i .returned }
    else { s with running := true, runs := s.runs.set i .dequeuing }
  | .returned => s

def step (s : CommandQueue χ γ) : Action → CommandQueue χ γ
  -- A run is scheduled where `addWork` returns true.
  | .enqueue thread buffer =>
    if thread ∈ s.adding then s
    else { s with
      queue := s.queue ++ [buffer], adding := s.adding ++ [thread], enqueued := s.enqueued ++ [buffer] }
  | .testAndSet thread =>
    if thread ∈ s.adding then
      if s.running then { s with adding := s.adding.erase thread }
      else { s with running := true, adding := s.adding.erase thread, runs := s.runs ++ [.scheduled] }
    else s
  | .proceed i => match s.runs[i]? with
    | none => s
    | some state => s.proceed K i state

def start (center : χ) : CommandQueue χ γ := { runner := .create center }

def run (center : χ) (actions : List Action) : CommandQueue χ γ := actions.foldl (step K) (start center)

/-- The buffers of the calls of `addWork`: a thread that is in one makes no other. -/
def enqueues (adding : List ℕ) : List Action → List Bytes
  | [] => []
  | .enqueue thread buffer :: actions =>
    if thread ∈ adding then enqueues adding actions else buffer :: enqueues (adding ++ [thread]) actions
  | .testAndSet thread :: actions => enqueues (adding.erase thread) actions
  | .proceed _ :: actions => enqueues adding actions

structure Held (running : Bool) (runs : List RunState) : Prop where
  flag : running = true ↔ ∃ (i : ℕ) (state : RunState), runs[i]? = some state ∧ state.holds
  unique : ∀ (i j : ℕ) (state state' : RunState), runs[i]? = some state → state.holds → runs[j]? = some state' →
    state'.holds → i = j

structure Sound (center : χ) (s : CommandQueue χ γ) : Prop where
  held : Held s.running s.runs
  processing : ∀ (i : ℕ) (buffer : Bytes), s.runs[i]? = some (.processing buffer) →
    s.enqueued = s.processed ++ buffer :: s.queue
  idle : (∀ (i : ℕ) (buffer : Bytes), s.runs[i]? ≠ some (.processing buffer)) → s.enqueued = s.processed ++ s.queue
  awake : s.queue ≠ [] → s.running ∨ s.adding ≠ [] ∨
    ∃ i : ℕ, s.runs[i]? = some .checking ∨ s.runs[i]? = some .retesting
  runner : s.runner = s.processed.foldl (PeerCommandRunner.parseAndRun K) (.create center)

section Held

variable {running : Bool} {runs : List RunState} {i : ℕ} {state state' : RunState}

lemma getElem?_set_of_some (h : runs[i]? = some state) (j : ℕ) :
    (runs.set i state')[j]? = if i = j then some state' else runs[j]? := by
  have hlt : i < runs.length := (List.getElem?_eq_some_iff.1 h).1
  rw [List.getElem?_set]
  split_ifs <;> rfl

lemma Held.keep (h : Held running runs) (hi : runs[i]? = some state) (hsame : state'.holds = state.holds) :
    Held running (runs.set i state') := by
  have hback : ∀ (j : ℕ) (r : RunState), (runs.set i state')[j]? = some r → r.holds →
      ∃ r' : RunState, runs[j]? = some r' ∧ r'.holds := by
    intro j r hr hholds
    rw [getElem?_set_of_some hi] at hr
    split_ifs at hr with hij
    · obtain rfl := Option.some.inj hr
      exact ⟨state, hij ▸ hi, hsame ▸ hholds⟩
    · exact ⟨r, hr, hholds⟩
  constructor
  · rw [h.flag]
    constructor
    · rintro ⟨j, r, hr, hholds⟩
      by_cases hij : i = j
      · subst hij
        obtain rfl := Option.some.inj (hi.symm.trans hr)
        exact ⟨i, state', by rw [getElem?_set_of_some hi, if_pos rfl], hsame ▸ hholds⟩
      · exact ⟨j, r, by rw [getElem?_set_of_some hi, if_neg hij, hr], hholds⟩
    · rintro ⟨j, r, hr, hholds⟩
      obtain ⟨r', hr', hholds'⟩ := hback j r hr hholds
      exact ⟨j, r', hr', hholds'⟩
  · intro j k r r' hr hholds hr' hholds'
    obtain ⟨q, hq, hqholds⟩ := hback j r hr hholds
    obtain ⟨q', hq', hqholds'⟩ := hback k r' hr' hholds'
    exact h.unique j k q q' hq hqholds hq' hqholds'

lemma Held.release (h : Held running runs) (hi : runs[i]? = some state) (hholds : state.holds)
    (hfree : state'.holds = false) : Held false (runs.set i state') := by
  have hnone : ∀ (j : ℕ) (r : RunState), (runs.set i state')[j]? = some r → r.holds = false := by
    intro j r hr
    rw [getElem?_set_of_some hi] at hr
    split_ifs at hr with hij
    · obtain rfl := Option.some.inj hr
      exact hfree
    · by_contra hother
      rw [Bool.not_eq_false] at hother
      exact hij (h.unique i j state r hi hholds hr hother)
  constructor
  · simp only [Bool.false_eq_true, false_iff, not_exists, not_and]
    intro j r hr
    simp [hnone j r hr]
  · intro j k r r' hr hrholds
    simp [hnone j r hr] at hrholds

lemma Held.none (h : Held false runs) {j : ℕ} {r : RunState} (hr : runs[j]? = some r) : r.holds = false := by
  by_contra hholds
  rw [Bool.not_eq_false] at hholds
  exact absurd (h.flag.2 ⟨j, r, hr, hholds⟩) (by simp)

lemma Held.acquire (h : Held false runs) (hi : runs[i]? = some state) (hholds : state'.holds) :
    Held true (runs.set i state') := by
  have honly : ∀ (j : ℕ) (r : RunState), (runs.set i state')[j]? = some r → r.holds → i = j := by
    intro j r hr hrholds
    rw [getElem?_set_of_some hi] at hr
    split_ifs at hr with hij
    · exact hij
    · simp [h.none hr] at hrholds
  constructor
  · simp only [true_iff]
    exact ⟨i, state', by rw [getElem?_set_of_some hi, if_pos rfl], hholds⟩
  · intro j k r r' hr hrholds hr' hrholds'
    exact (honly j r hr hrholds).symm.trans (honly k r' hr' hrholds')

lemma Held.schedule (h : Held false runs) : Held true (runs ++ [.scheduled]) := by
  have honly : ∀ (j : ℕ) (r : RunState), (runs ++ [RunState.scheduled])[j]? = some r → r.holds → j = runs.length := by
    intro j r hr hrholds
    by_contra hj
    rcases Nat.lt_or_gt_of_ne hj with hlt | hgt
    · rw [List.getElem?_append_left hlt] at hr
      simp [h.none hr] at hrholds
    · rw [List.getElem?_eq_none (by rw [List.length_append, List.length_singleton]; omega)] at hr
      simp at hr
  constructor
  · simp only [true_iff]
    exact ⟨runs.length, .scheduled, by simp, rfl⟩
  · intro j k r r' hr hrholds hr' hrholds'
    exact (honly j r hr hrholds).trans (honly k r' hr' hrholds').symm

end Held

section Steps

variable {K} {center : χ} {s : CommandQueue χ γ} {i : ℕ}

lemma processing_set {runs : List RunState} {state state' : RunState} (hi : runs[i]? = some state)
    (hstate' : ∀ buffer, state' ≠ .processing buffer) {j : ℕ} {buffer : Bytes}
    (hj : (runs.set i state')[j]? = some (.processing buffer)) : runs[j]? = some (.processing buffer) := by
  rw [getElem?_set_of_some hi] at hj
  split_ifs at hj
  · exact absurd (Option.some.inj hj) (hstate' buffer)
  · exact hj

lemma processing_of_set {runs : List RunState} {state state' : RunState} (hi : runs[i]? = some state)
    (hstate : ∀ buffer, state ≠ .processing buffer) {j : ℕ} {buffer : Bytes}
    (hj : runs[j]? = some (.processing buffer)) : (runs.set i state')[j]? = some (.processing buffer) := by
  rw [getElem?_set_of_some hi, if_neg]
  · exact hj
  · rintro rfl
    exact hstate buffer (Option.some.inj (hi.symm.trans hj))

lemma Sound.not_processing (h : Sound K center s) {state : RunState} (hi : s.runs[i]? = some state)
    (hholds : state.holds) (hstate : ∀ buffer, state ≠ .processing buffer) (j : ℕ) (buffer : Bytes) :
    s.runs[j]? ≠ some (.processing buffer) := by
  intro hj
  obtain rfl := h.held.unique i j _ _ hi hholds hj rfl
  exact hstate buffer (Option.some.inj (hi.symm.trans hj))

lemma Sound.enqueue (h : Sound K center s) (thread : ℕ) (buffer : Bytes) :
    Sound K center (s.step K (.enqueue thread buffer)) := by
  simp only [step]
  split_ifs with hthread
  · exact h
  · constructor
    case held => exact h.held
    case processing =>
      intro i b hi
      simp only [h.processing i b hi, List.append_assoc, List.cons_append]
    case idle =>
      intro hidle
      simp only [h.idle hidle, List.append_assoc]
    case awake =>
      intro _
      exact Or.inr (Or.inl (by simp))
    case runner => exact h.runner

lemma Sound.testAndSet (h : Sound K center s) (thread : ℕ) : Sound K center (s.step K (.testAndSet thread)) := by
  simp only [step]
  split_ifs with hthread hrunning
  · constructor
    case held => exact h.held
    case processing => exact h.processing
    case idle => exact h.idle
    case awake => exact fun _ => Or.inl hrunning
    case runner => exact h.runner
  · rw [Bool.not_eq_true] at hrunning
    have hheld := h.held
    rw [hrunning] at hheld
    have hsame : ∀ (j : ℕ) (b : Bytes),
        (s.runs ++ [RunState.scheduled])[j]? = some (.processing b) → s.runs[j]? = some (.processing b) := by
      intro j b hj
      rw [List.getElem?_append] at hj
      split_ifs at hj
      · exact hj
      · simp [List.getElem?_singleton] at hj
    constructor
    case held => exact hheld.schedule
    case processing => exact fun j b hj => h.processing j b (hsame j b hj)
    case idle =>
      intro hidle
      apply h.idle
      intro j b hj
      refine hidle j b ?_
      rwa [List.getElem?_append_left (List.getElem?_eq_some_iff.1 hj).1]
    case awake => exact fun _ => Or.inl rfl
    case runner => exact h.runner
  · exact h

lemma Sound.move (h : Sound K center s) {state state' : RunState} (hi : s.runs[i]? = some state)
    (hsame : state'.holds = state.holds) (hstate : ∀ buffer, state ≠ .processing buffer)
    (hstate' : ∀ buffer, state' ≠ .processing buffer)
    (hawake : s.queue ≠ [] → s.running ∨ state' = .retesting) :
    Sound K center { s with runs := s.runs.set i state' } := by
  constructor
  case held => exact h.held.keep hi hsame
  case processing => exact fun j b hj => h.processing j b (processing_set hi hstate' hj)
  case idle => exact fun hidle => h.idle fun j b hj => hidle j b (processing_of_set hi hstate hj)
  case awake =>
    intro hqueue
    rcases hawake hqueue with hrunning | rfl
    · exact Or.inl hrunning
    · exact Or.inr (Or.inr ⟨i, Or.inr (by rw [getElem?_set_of_some hi, if_pos rfl])⟩)
  case runner => exact h.runner

lemma Sound.dequeue (h : Sound K center s) (hi : s.runs[i]? = some .dequeuing) :
    Sound K center (s.proceed K i .dequeuing) := by
  have hidle := h.idle (h.not_processing hi rfl (by simp))
  have hrunning : s.running = true := h.held.flag.2 ⟨i, _, hi, rfl⟩
  cases hqueue : s.queue with
  | nil =>
    have hstep : s.proceed K i .dequeuing = { s with runs := s.runs.set i .clearing } := by
      unfold proceed
      rw [hqueue]
    rw [hstep]
    exact h.move hi rfl (by simp) (by simp) fun _ => Or.inl hrunning
  | cons buffer queue =>
    simp only [proceed, hqueue]
    constructor
    case held => exact h.held.keep hi rfl
    case processing =>
      intro j b hj
      simp only [getElem?_set_of_some hi] at hj
      split_ifs at hj
      · obtain rfl := RunState.processing.inj (Option.some.inj hj)
        rw [hidle, hqueue]
      · exact absurd hj (h.not_processing hi rfl (by simp) j b)
    case idle =>
      intro hnone
      exact absurd (by rw [getElem?_set_of_some hi, if_pos rfl]) (hnone i buffer)
    case awake => exact fun _ => Or.inl hrunning
    case runner => exact h.runner

lemma Sound.process (h : Sound K center s) {buffer : Bytes} (hi : s.runs[i]? = some (.processing buffer)) :
    Sound K center (s.proceed K i (.processing buffer)) := by
  have hrunning : s.running = true := h.held.flag.2 ⟨i, _, hi, rfl⟩
  simp only [proceed]
  constructor
  case held => exact h.held.keep hi rfl
  case processing =>
    intro j b hj
    rw [getElem?_set_of_some hi] at hj
    split_ifs at hj with hij
    · simp at hj
    · exact absurd (h.held.unique i j _ _ hi rfl hj rfl) hij
  case idle =>
    intro _
    simp only [h.processing i buffer hi, List.append_assoc, List.cons_append, List.nil_append]
  case awake => exact fun _ => Or.inl hrunning
  case runner => simp only [List.foldl_append, List.foldl_cons, List.foldl_nil, h.runner]

lemma Sound.clear (h : Sound K center s) (hi : s.runs[i]? = some .clearing) :
    Sound K center (s.proceed K i .clearing) := by
  simp only [proceed]
  constructor
  case held => exact h.held.release hi rfl rfl
  case processing => exact fun j b hj => h.processing j b (processing_set hi (by simp) hj)
  case idle => exact fun hidle => h.idle fun j b hj => hidle j b (processing_of_set hi (by simp) hj)
  case awake => exact fun _ => Or.inr (Or.inr ⟨i, Or.inl (by rw [getElem?_set_of_some hi, if_pos rfl])⟩)
  case runner => exact h.runner

lemma Sound.retest (h : Sound K center s) (hi : s.runs[i]? = some .retesting) :
    Sound K center (s.proceed K i .retesting) := by
  simp only [proceed]
  split_ifs with hrunning
  · exact h.move hi rfl (by simp) (by simp) fun _ => Or.inl hrunning
  · rw [Bool.not_eq_true] at hrunning
    have hheld := h.held
    rw [hrunning] at hheld
    constructor
    case held => exact hheld.acquire hi rfl
    case processing => exact fun j b hj => h.processing j b (processing_set hi (by simp) hj)
    case idle => exact fun hidle => h.idle fun j b hj => hidle j b (processing_of_set hi (by simp) hj)
    case awake => exact fun _ => Or.inl rfl
    case runner => exact h.runner

lemma Sound.step (h : Sound K center s) (a : Action) : Sound K center (s.step K a) := by
  cases a with
  | enqueue thread buffer => exact h.enqueue thread buffer
  | testAndSet thread => exact h.testAndSet thread
  | proceed i =>
    simp only [CommandQueue.step]
    cases hi : s.runs[i]? with
    | none => exact h
    | some state =>
      cases state with
      | scheduled =>
        exact h.move hi rfl (by simp) (by simp) fun _ => Or.inl (h.held.flag.2 ⟨i, _, hi, rfl⟩)
      | dequeuing => exact h.dequeue hi
      | processing buffer => exact h.process hi
      | clearing => exact h.clear hi
      | checking =>
        simp only [proceed]
        split_ifs with hqueue
        · exact h.move hi rfl (by simp) (by simp) fun _ => Or.inr rfl
        · refine h.move hi rfl (by simp) (by simp) fun hne => ?_
          exact absurd (List.length_pos_iff.2 hne) hqueue
      | retesting => exact h.retest hi
      | returned => exact h

lemma start_sound (center : χ) : Sound K center (start center : CommandQueue χ γ) := by
  constructor
  case held => constructor <;> simp [start]
  case processing => simp [start]
  case idle => simp [start]
  case awake => simp [start]
  case runner => rfl

lemma run_sound (center : χ) (actions : List Action) : Sound K center (run K center actions) :=
  foldl_invariant (fun _ a hs => hs.step a) (start_sound center) actions

lemma proceed_same (s : CommandQueue χ γ) (i : ℕ) (state : RunState) :
    (s.proceed K i state).adding = s.adding ∧ (s.proceed K i state).enqueued = s.enqueued := by
  cases state with
  | scheduled => exact ⟨rfl, rfl⟩
  | dequeuing =>
    simp only [proceed]
    split
    · exact ⟨rfl, rfl⟩
    · exact ⟨rfl, rfl⟩
  | processing buffer => exact ⟨rfl, rfl⟩
  | clearing => exact ⟨rfl, rfl⟩
  | checking => exact ⟨rfl, rfl⟩
  | retesting =>
    simp only [proceed]
    split_ifs
    · exact ⟨rfl, rfl⟩
    · exact ⟨rfl, rfl⟩
  | returned => exact ⟨rfl, rfl⟩

lemma enqueued_foldl (s : CommandQueue χ γ) (actions : List Action) :
    (actions.foldl (CommandQueue.step K) s).enqueued = s.enqueued ++ enqueues s.adding actions := by
  induction actions generalizing s with
  | nil => rw [List.foldl_nil, enqueues, List.append_nil]
  | cons a actions ih =>
    rw [List.foldl_cons, ih]
    cases a with
    | enqueue thread buffer =>
      simp only [CommandQueue.step, enqueues]
      split_ifs
      · rfl
      · rw [List.append_assoc, List.singleton_append]
    | testAndSet thread =>
      simp only [CommandQueue.step, enqueues]
      split_ifs with hthread hrunning
      · rfl
      · rfl
      · rw [List.erase_of_not_mem hthread]
    | proceed i =>
      simp only [CommandQueue.step, enqueues]
      split
      case h_1 => rfl
      case h_2 state _ => rw [(proceed_same s i state).1, (proceed_same s i state).2]

end Steps

section Main

theorem not_stranded (center : χ) (actions : List Action) :
    (∀ (i j : ℕ) (state state' : RunState), (run K center actions).runs[i]? = some state → state.inDoWork →
      (run K center actions).runs[j]? = some state' → state'.inDoWork → i = j) ∧
    (run K center actions).runner =
      (run K center actions).processed.foldl (PeerCommandRunner.parseAndRun K) (.create center) ∧
    (run K center actions).processed <+: (run K center actions).enqueued ∧
    ((run K center actions).queue ≠ [] → (∃ state ∈ (run K center actions).runs, state ≠ .returned) ∨
      (run K center actions).adding ≠ []) ∧
    ((run K center actions).adding = [] → (∀ state ∈ (run K center actions).runs, state = .returned) →
      (run K center actions).processed = (run K center actions).enqueued) ∧
    (run K center actions).enqueued = enqueues [] actions := by
  have henqueued : (run K center actions).enqueued = enqueues [] actions := enqueued_foldl _ actions
  have h := run_sound (K := K) center actions
  set s := run K center actions
  have hholds : ∀ state : RunState, state.inDoWork → state.holds := by
    intro state hwork
    cases state with
    | dequeuing => rfl
    | processing buffer => rfl
    | _ => simp [RunState.inDoWork] at hwork
  have hqueued : s.queue ≠ [] → (∃ state ∈ s.runs, state ≠ .returned) ∨ s.adding ≠ [] := by
    intro hqueue
    rcases h.awake hqueue with hrunning | hadding | ⟨i, hi | hi⟩
    · obtain ⟨i, state, hi, hstate⟩ := h.held.flag.1 hrunning
      refine Or.inl ⟨state, List.mem_of_getElem? hi, ?_⟩
      rintro rfl
      simp [RunState.holds] at hstate
    · exact Or.inr hadding
    · exact Or.inl ⟨_, List.mem_of_getElem? hi, by simp⟩
    · exact Or.inl ⟨_, List.mem_of_getElem? hi, by simp⟩
  refine ⟨?_, h.runner, ?_, hqueued, ?_, henqueued⟩
  · intro i j state state' hi hwork hj hwork'
    exact h.held.unique i j state state' hi (hholds state hwork) hj (hholds state' hwork')
  · by_cases hprocessing : ∃ (i : ℕ) (buffer : Bytes), s.runs[i]? = some (.processing buffer)
    · obtain ⟨i, buffer, hi⟩ := hprocessing
      exact ⟨_, (h.processing i buffer hi).symm⟩
    · exact ⟨_, (h.idle fun i buffer hi => hprocessing ⟨i, buffer, hi⟩).symm⟩
  · intro hadding hreturned
    have hempty : s.queue = [] := by
      by_contra hqueue
      rcases hqueued hqueue with ⟨state, hstate, hne⟩ | hne
      · exact hne (hreturned state hstate)
      · exact hne hadding
    have hidle := h.idle fun i buffer hi => by simpa using hreturned _ (List.mem_of_getElem? hi)
    rw [hidle, hempty, List.append_nil]

def noCommands : CommandCenter Unit Unit := ⟨fun _ _ c => (none, c), fun _ => true, fun cmd _ c => (cmd, c)⟩

theorem not_scheduled_when_enqueued : (run noCommands () [.enqueue 0 (ascii "x")]).queue ≠ [] ∧
    ¬ ∃ state ∈ (run noCommands () [.enqueue 0 (ascii "x")]).runs, state ≠ .returned := by
  constructor
  · exact List.cons_ne_nil _ _
  · rintro ⟨state, hstate, -⟩
    exact absurd hstate List.not_mem_nil

end Main

end CommandQueue

end Turbopump
