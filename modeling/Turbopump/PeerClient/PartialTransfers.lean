import Turbopump.Lib.Runs
import Turbopump.Lib.SortedMap

/-! The transfers that are queued for a connection until it can be written to, and added to while they are run. -/

namespace Turbopump

/-- Where `PartialTransfers::run` is: before `empty`, before it takes the first transfer, inside that transfer, or
before its last check. -/
inductive TransferRun (τ : Type) where
  | testing
  | popping
  | running (transfer : τ)
  | finishing

inductive TransferEvent (τ : Type) where
  | added (id : ℤ) (transfer : τ)
  | started (id : ℤ) (transfer : τ)
  | waited (id : ℤ)
  | returned (id : ℤ) (result : Bool)

/-- `adding` are the calls of `add` that have queued their transfer and have still to call `waitForWriter`. -/
structure PartialTransfers (τ : Type) where
  transfers : SortedMap ℤ (List τ) := .empty
  adding : List ℤ := []
  runs : SortedMap ℤ (TransferRun τ) := .empty
  log : List (TransferEvent τ) := []

namespace PartialTransfers

variable {τ : Type}

inductive Action (τ : Type) where
  | push (id : ℤ) (transfer : τ)
  | waitForWriter (id : ℤ)
  | run (id : ℤ)
  | proceed (id : ℤ)
  | finish (id : ℤ) (result : Bool)

def empty (s : PartialTransfers τ) (id : ℤ) : Bool := match s.transfers.get id with
  | none => true
  | some queue => queue.isEmpty

def record (s : PartialTransfers τ) (e : TransferEvent τ) : PartialTransfers τ := { s with log := s.log ++ [e] }

def goto (s : PartialTransfers τ) (id : ℤ) (r : TransferRun τ) : PartialTransfers τ :=
  { s with runs := s.runs.insert id r }

def leave (s : PartialTransfers τ) (id : ℤ) (result : Bool) : PartialTransfers τ :=
  { s with runs := s.runs.erase id }.record (.returned id result)

def proceed (s : PartialTransfers τ) (id : ℤ) : TransferRun τ → PartialTransfers τ
  | .testing => s.goto id (if s.empty id then .finishing else .popping)
  | .popping => match s.transfers.get id with
    | some (transfer :: queue) =>
      ({ s with transfers := s.transfers.insert id queue }.goto id (.running transfer)).record (.started id transfer)
    -- `front` of an empty queue
    | _ => s
  | .running _ => s
  | .finishing => match s.transfers.get id with
    | none => s.leave id true
    | some [] => { s with transfers := s.transfers.erase id }.leave id true
    | some _ => s.leave id false

def step (s : PartialTransfers τ) : Action τ → PartialTransfers τ
  | .push id transfer =>
    { s with
      transfers := s.transfers.insert id ((s.transfers.get id).getD [] ++ [transfer])
      adding := s.adding ++ [id] }.record (.added id transfer)
  | .waitForWriter id => if id ∈ s.adding then { s with adding := s.adding.erase id }.record (.waited id) else s
  | .run id => match s.runs.get id with
    | none => s.goto id .testing
    | some _ => s
  | .proceed id => match s.runs.get id with
    | none => s
    | some r => s.proceed id r
  -- A transfer may add others before it returns, to its own connection too.
  | .finish id result => match s.runs.get id with
    | some (.running _) => if result then s.goto id .testing else s.leave id false
    | _ => s

def queued (s : PartialTransfers τ) (id : ℤ) : List τ := (s.transfers.get id).getD []

def addedTo (id : ℤ) (log : List (TransferEvent τ)) : List τ := log.filterMap fun
  | .added id' transfer => if id' = id then some transfer else none
  | _ => none

def startedOf (id : ℤ) (log : List (TransferEvent τ)) : List τ := log.filterMap fun
  | .started id' transfer => if id' = id then some transfer else none
  | _ => none

def pushesOf (id : ℤ) (actions : List (Action τ)) : List τ := actions.filterMap fun
  | .push id' transfer => if id' = id then some transfer else none
  | _ => none

/-- `order`: no transfer is lost, none is started twice. `returned`: where a run is done, all that was added has been
started. `waited`: as long as a transfer is not among those started, its connection has been waited for since it was
added, or is about to be. -/
structure Sound (s : PartialTransfers τ) : Prop where
  order : ∀ id, addedTo id s.log = startedOf id s.log ++ s.queued id
  running : ∀ id transfer, s.runs.get id = some (.running transfer) → (startedOf id s.log).getLast? = some transfer
  popping : ∀ id, s.runs.get id = some .popping → s.queued id ≠ []
  returned : ∀ id before after, s.log = before ++ .returned id true :: after →
    addedTo id before = startedOf id before
  waited : ∀ id transfer before after, s.log = before ++ .added id transfer :: after →
    (startedOf id s.log).length ≤ (addedTo id before).length → .waited id ∈ after ∨ id ∈ s.adding

lemma empty_eq {s : PartialTransfers τ} {id : ℤ} : s.empty id = true ↔ s.queued id = [] := by
  simp only [empty, queued]
  cases s.transfers.get id with
  | none => simp
  | some queue => simp

section Log

variable {s s' : PartialTransfers τ} {id : ℤ} {log : List (TransferEvent τ)} {e x : TransferEvent τ}

@[simp] lemma addedTo_append (log' : List (TransferEvent τ)) :
    addedTo id (log ++ log') = addedTo id log ++ addedTo id log' := List.filterMap_append

@[simp] lemma startedOf_append (log' : List (TransferEvent τ)) :
    startedOf id (log ++ log') = startedOf id log ++ startedOf id log' := List.filterMap_append

lemma split_snoc {before after : List (TransferEvent τ)} (h : log ++ [e] = before ++ x :: after) :
    (x = e ∧ before = log) ∨ ∃ after', after = after' ++ [e] ∧ log = before ++ x :: after' := by
  rcases List.eq_nil_or_concat after with rfl | ⟨after', y, rfl⟩
  · obtain ⟨rfl, heq⟩ := List.append_inj' h rfl
    exact .inl ⟨(List.singleton_inj.1 heq).symm, rfl⟩
  · rw [List.concat_eq_append, ← List.cons_append, ← List.append_assoc] at h
    obtain ⟨rfl, heq⟩ := List.append_inj' h rfl
    obtain rfl := List.singleton_inj.1 heq
    exact .inr ⟨after', List.concat_eq_append, rfl⟩

lemma Sound.snoc (h : s.Sound) (hlog : s'.log = s.log ++ [e])
    (horder : ∀ id, s.queued id ++ addedTo id [e] = startedOf id [e] ++ s'.queued id)
    (hrunning : ∀ id transfer, s'.runs.get id = some (.running transfer) →
      s.runs.get id = some (.running transfer) ∧ startedOf id [e] = [] ∨ startedOf id [e] = [transfer])
    (hpopping : ∀ id, s'.runs.get id = some .popping → s'.queued id ≠ [])
    (hreturned : ∀ id, e = .returned id true → s.queued id = [])
    (hadding : ∀ id ∈ s.adding, e = .waited id ∨ id ∈ s'.adding)
    (hadded : ∀ id transfer, e = .added id transfer → id ∈ s'.adding) : s'.Sound where
  order id := by
    rw [hlog, addedTo_append, startedOf_append, h.order, List.append_assoc, horder, List.append_assoc]
  running id transfer hid := by
    rw [hlog, startedOf_append]
    rcases hrunning id transfer hid with ⟨hold, hnone⟩ | hstarted
    · rw [hnone, List.append_nil]
      exact h.running id transfer hold
    · rw [hstarted]
      exact List.getLast?_concat
  popping := hpopping
  returned id before after hsplit := by
    rw [hlog] at hsplit
    rcases split_snoc hsplit with ⟨heq, rfl⟩ | ⟨after', -, hold⟩
    · rw [h.order, hreturned id heq.symm, List.append_nil]
    · exact h.returned id before after' hold
  waited id transfer before after hsplit hqueued := by
    rw [hlog] at hsplit hqueued
    rcases split_snoc hsplit with ⟨heq, rfl⟩ | ⟨after', rfl, hold⟩
    · exact .inr (hadded id transfer heq.symm)
    · rw [startedOf_append, List.length_append] at hqueued
      rcases h.waited id transfer before after' hold (by omega) with hin | hin
      · exact .inl (List.mem_append_left _ hin)
      · rcases hadding id hin with rfl | hin'
        · exact .inl (List.mem_append_right _ List.mem_cons_self)
        · exact .inr hin'

end Log

namespace Sound

variable {s : PartialTransfers τ} {id : ℤ}

lemma goto (h : s.Sound) {r : TransferRun τ} (hr : r = .popping → s.queued id ≠ [])
    (hrun : ∀ transfer, r ≠ .running transfer) : (s.goto id r).Sound where
  order := h.order
  running id' transfer hid' := by
    simp only [PartialTransfers.goto, SortedMap.get_insert] at hid'
    split_ifs at hid'
    · exact absurd (Option.some.inj hid') (hrun transfer)
    · exact h.running id' transfer hid'
  popping id' hid' := by
    simp only [PartialTransfers.goto, SortedMap.get_insert] at hid'
    split_ifs at hid' with heq
    · exact heq ▸ hr (Option.some.inj hid')
    · exact h.popping id' hid'
  returned := h.returned
  waited := h.waited

lemma push (h : s.Sound) (id : ℤ) (transfer : τ) : (s.step (.push id transfer)).Sound := by
  have hqueued (id' : ℤ) : (s.step (.push id transfer)).queued id' =
      s.queued id' ++ if id = id' then [transfer] else [] := by
    simp only [step, record, queued, SortedMap.get_insert]
    split_ifs with heq
    · rw [heq, Option.getD_some]
    · rw [List.append_nil]
  refine h.snoc rfl (fun id' => ?_) (fun _ _ hid' => .inl ⟨hid', rfl⟩) (fun id' hid' => ?_) (by simp)
    (fun id' hid' => ?_) ?_
  · rw [hqueued]
    by_cases heq : id = id'
    · simp [addedTo, startedOf, heq]
    · simp [addedTo, startedOf, heq]
  · rw [hqueued]
    exact List.append_ne_nil_of_left_ne_nil (h.popping id' hid') _
  · exact .inr (List.mem_append_left _ hid')
  · rintro id' transfer' heq
    obtain ⟨rfl, -⟩ := TransferEvent.added.inj heq
    exact List.mem_append_right _ List.mem_cons_self

lemma waitForWriter (h : s.Sound) (id : ℤ) : (s.step (.waitForWriter id)).Sound := by
  simp only [step]
  split_ifs with hin
  · refine h.snoc rfl (fun id' => ?_) (fun _ _ hid' => .inl ⟨hid', rfl⟩) h.popping (by simp) (fun id' hid' => ?_)
      (by simp)
    · simp [addedTo, startedOf, record, queued]
    · by_cases heq : id = id'
      · exact .inl (heq ▸ rfl)
      · exact .inr ((List.mem_erase_of_ne (Ne.symm heq)).2 hid')
  · exact h

lemma leave (h : s.Sound) {result : Bool} (hresult : result = true → s.queued id = []) : (s.leave id result).Sound := by
  refine h.snoc rfl (fun id' => ?_) (fun id' transfer hid' => .inl ⟨?_, rfl⟩) (fun id' hid' => ?_) (fun id' heq => ?_)
    (fun id' hid' => .inr hid') (by simp)
  · simp [addedTo, startedOf, PartialTransfers.leave, record, queued]
  · simp only [PartialTransfers.leave, record, SortedMap.get_erase] at hid'
    split_ifs at hid'
    exact hid'
  · simp only [PartialTransfers.leave, record, SortedMap.get_erase] at hid'
    split_ifs at hid'
    exact h.popping id' hid'
  · obtain ⟨rfl, rfl⟩ := TransferEvent.returned.inj heq
    exact hresult rfl

lemma eraseQueue (h : s.Sound) (hid : s.queued id = []) : Sound { s with transfers := s.transfers.erase id } := by
  have hqueued (id' : ℤ) : ({ s with transfers := s.transfers.erase id } : PartialTransfers τ).queued id' =
      s.queued id' := by
    simp only [queued, SortedMap.get_erase]
    split_ifs with heq
    · rw [← heq]
      exact hid.symm
    · rfl
  constructor
  case order =>
    intro id'
    rw [hqueued]
    exact h.order id'
  case running => exact h.running
  case popping =>
    intro id' hid'
    rw [hqueued]
    exact h.popping id' hid'
  case returned => exact h.returned
  case waited => exact h.waited

lemma pop (h : s.Sound) {transfer : τ} {queue : List τ} (hget : s.transfers.get id = some (transfer :: queue)) :
    (({ s with transfers := s.transfers.insert id queue }.goto id (.running transfer)).record
      (.started id transfer)).Sound := by
  have hqueued (id' : ℤ) : s.queued id' = (if id = id' then [transfer] else []) ++
      (({ s with transfers := s.transfers.insert id queue }.goto id (.running transfer)).record
        (.started id transfer)).queued id' := by
    simp only [queued, record, PartialTransfers.goto, SortedMap.get_insert]
    split_ifs with heq
    · rw [← heq, hget, Option.getD_some, Option.getD_some, List.singleton_append]
    · rfl
  refine h.snoc rfl (fun id' => ?_) (fun id' transfer' hid' => ?_) (fun id' hid' => ?_) (by simp)
    (fun id' hid' => .inr hid') (by simp)
  · rw [hqueued]
    by_cases heq : id = id'
    · simp [addedTo, startedOf, heq]
    · simp [addedTo, startedOf, heq]
  · simp only [record, PartialTransfers.goto, SortedMap.get_insert] at hid'
    split_ifs at hid' with heq
    · obtain rfl := TransferRun.running.inj (Option.some.inj hid')
      exact .inr (by simp [startedOf, heq])
    · exact .inl ⟨hid', by simp [startedOf, heq]⟩
  · simp only [record, PartialTransfers.goto, SortedMap.get_insert] at hid'
    split_ifs at hid' with heq
    · cases hid'
    · have hold := h.popping id' hid'
      rwa [hqueued, if_neg heq, List.nil_append] at hold

lemma proceed (h : s.Sound) (r : TransferRun τ) : (s.proceed id r).Sound := by
  cases r with
  | testing =>
    refine h.goto (fun hpopping => ?_) fun transfer => ?_
    · split_ifs at hpopping with hempty
      exact fun hnone => hempty (empty_eq.2 hnone)
    · split_ifs <;> simp
  | popping =>
    simp only [PartialTransfers.proceed]
    split
    case h_1 transfer queue hget => exact h.pop hget
    case h_2 => exact h
  | running transfer => exact h
  | finishing =>
    simp only [PartialTransfers.proceed]
    split
    case h_1 hget => exact h.leave fun _ => by rw [queued, hget, Option.getD_none]
    case h_2 hget =>
      have hnone : s.queued id = [] := by rw [queued, hget, Option.getD_some]
      refine (h.eraseQueue hnone).leave fun _ => ?_
      rw [queued, SortedMap.get_erase_self, Option.getD_none]
    case h_3 => exact h.leave (by simp)

lemma step (h : s.Sound) (a : Action τ) : (s.step a).Sound := by
  cases a with
  | push id transfer => exact h.push id transfer
  | waitForWriter id => exact h.waitForWriter id
  | run id =>
    simp only [PartialTransfers.step]
    split
    · exact h.goto (by simp) (by simp)
    · exact h
  | proceed id =>
    simp only [PartialTransfers.step]
    split
    · exact h
    · exact h.proceed _
  | finish id result =>
    simp only [PartialTransfers.step]
    split
    · cases result with
      | true => exact h.goto (by simp) (by simp)
      | false => exact h.leave (by simp)
    · exact h

end Sound

lemma pushesOf_cons (id : ℤ) (a : Action τ) (actions : List (Action τ)) :
    pushesOf id (a :: actions) = pushesOf id [a] ++ pushesOf id actions := by
  simp only [pushesOf, ← List.filterMap_append, List.singleton_append]

lemma addedTo_record {s : PartialTransfers τ} {e : TransferEvent τ} {id : ℤ} (he : addedTo id [e] = []) :
    addedTo id (s.record e).log = addedTo id s.log := by
  rw [record, addedTo_append, he, List.append_nil]

lemma addedTo_proceed (s : PartialTransfers τ) (id id' : ℤ) (r : TransferRun τ) :
    addedTo id (s.proceed id' r).log = addedTo id s.log := by
  cases r with
  | testing => rfl
  | popping =>
    simp only [proceed]
    split
    · exact addedTo_record rfl
    · rfl
  | running transfer => rfl
  | finishing =>
    simp only [proceed]
    split
    · exact addedTo_record rfl
    · exact addedTo_record rfl
    · exact addedTo_record rfl

lemma addedTo_step (s : PartialTransfers τ) (a : Action τ) (id : ℤ) :
    addedTo id (s.step a).log = addedTo id s.log ++ pushesOf id [a] := by
  cases a with
  | push id' transfer => exact addedTo_append _
  | waitForWriter id' =>
    rw [step, pushesOf, List.filterMap_cons_none rfl, List.filterMap_nil, List.append_nil]
    split_ifs
    · exact addedTo_record rfl
    · rfl
  | run id' =>
    rw [step, pushesOf, List.filterMap_cons_none rfl, List.filterMap_nil, List.append_nil]
    split
    · rfl
    · rfl
  | proceed id' =>
    rw [step, pushesOf, List.filterMap_cons_none rfl, List.filterMap_nil, List.append_nil]
    split
    · rfl
    · exact addedTo_proceed s id id' _
  | finish id' result =>
    rw [step, pushesOf, List.filterMap_cons_none rfl, List.filterMap_nil, List.append_nil]
    split
    · cases result with
      | true => rfl
      | false => exact addedTo_record rfl
    · rfl

lemma addedTo_foldl (s : PartialTransfers τ) (actions : List (Action τ)) (id : ℤ) :
    addedTo id (actions.foldl step s).log = addedTo id s.log ++ pushesOf id actions := by
  induction actions generalizing s with
  | nil => simp [pushesOf]
  | cons a actions ih => rw [List.foldl_cons, ih, addedTo_step, pushesOf_cons id a actions, List.append_assoc]

lemma Sound.init : ({} : PartialTransfers τ).Sound := by
  constructor
  · intro id
    simp [addedTo, startedOf, queued]
  · intro id transfer hid
    simp at hid
  · intro id hid
    simp at hid
  · intro id before after hsplit
    simp at hsplit
  · intro id transfer before after hsplit
    simp at hsplit

def pass (id : ℤ) : List (Action τ) := [.proceed id, .proceed id, .finish id true]

lemma foldl_pass {s : PartialTransfers τ} {id : ℤ} {transfer : τ} {queue : List τ}
    (hrun : s.runs.get id = some .testing) (hget : s.transfers.get id = some (transfer :: queue)) :
    let s' := (pass id).foldl step s
    s'.runs.get id = some .testing ∧ s'.transfers.get id = some queue ∧ s'.log = s.log ++ [.started id transfer] := by
  have hempty : s.empty id = false := by simp [empty, hget]
  simp [pass, step, hrun, proceed, hempty, goto, record, hget]

lemma foldl_passes (id : ℤ) (queue : List τ) {s : PartialTransfers τ} (hrun : s.runs.get id = some .testing)
    (hget : s.transfers.get id = some queue) :
    let s' := (queue.flatMap fun _ => pass id).foldl step s
    s'.runs.get id = some .testing ∧ s'.transfers.get id = some [] ∧
      s'.log = s.log ++ queue.map (.started id) := by
  induction queue generalizing s with
  | nil => exact ⟨hrun, hget, by simp⟩
  | cons transfer queue ih =>
    obtain ⟨hrun', hget', hlog⟩ := foldl_pass hrun hget
    have := ih hrun' hget'
    rw [hlog, List.append_assoc, List.singleton_append] at this
    rw [List.flatMap_cons, List.foldl_append]
    exact this

def undisturbed (id : ℤ) (queue : List τ) : List (Action τ) :=
  .run id :: (queue.flatMap fun _ => pass id) ++ [.proceed id, .proceed id]

theorem run_undisturbed {s : PartialTransfers τ} {id : ℤ} {queue : List τ} (hrun : s.runs.get id = none)
    (hget : s.transfers.get id = some queue) :
    let s' := (undisturbed id queue).foldl step s
    s'.runs.get id = none ∧ s'.transfers.get id = none ∧
      s'.log = s.log ++ queue.map (.started id) ++ [.returned id true] := by
  have hstart : (s.step (.run id)).runs.get id = some .testing := by simp [step, hrun, goto]
  have hsame : (s.step (.run id)).transfers.get id = some queue := by simp [step, hrun, goto, hget]
  have hlog : (s.step (.run id)).log = s.log := by simp [step, hrun, goto]
  obtain ⟨hrun', hget', hlog'⟩ := foldl_passes id queue hstart hsame
  rw [hlog] at hlog'
  rw [undisturbed, List.cons_append, List.foldl_cons, List.foldl_append]
  generalize (queue.flatMap fun _ => pass id).foldl step (s.step (.run id)) = s' at *
  have hempty : s'.empty id = true := by simp [empty, hget']
  simp [step, hrun', proceed, hempty, goto, hget', leave, record, hlog']

theorem transfers_sound (actions : List (Action τ)) :
    (actions.foldl step ({} : PartialTransfers τ)).Sound ∧
      ∀ id, addedTo id (actions.foldl step ({} : PartialTransfers τ)).log = pushesOf id actions :=
  ⟨foldl_invariant (fun _ a h => h.step a) .init actions, fun id => addedTo_foldl {} actions id⟩

theorem transfers_sound_two :
    let actions : List (Action ℕ) := [.push 1 10, .waitForWriter 1, .run 1, .proceed 1, .proceed 1, .push 1 20,
      .finish 1 true, .proceed 1, .proceed 1, .finish 1 false]
    (actions.foldl step {}).log =
      [.added 1 10, .waited 1, .started 1 10, .added 1 20, .started 1 20, .returned 1 false] ∧
    (actions.foldl step {}).adding = [1] ∧ (actions.foldl step {}).Sound ∧
      ∀ id, addedTo id (actions.foldl step {}).log = pushesOf id actions :=
  ⟨rfl, rfl, transfers_sound _⟩

end PartialTransfers

end Turbopump
