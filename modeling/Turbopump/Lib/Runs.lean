import Mathlib

/-! Runs of a system that takes one action after another, and what holds along them. -/

section Runs

variable {σ α : Type} (step : σ → α → σ)

def Along (P : σ → α → Prop) : σ → List α → Prop
  | _, [] => True
  | s, a :: actions => P s a ∧ Along P (step s a) actions

variable {step} {P Q : σ → α → Prop} {s : σ} {actions : List α}

theorem Along.invariant {I : σ → Prop} (hstep : ∀ s a, I s → P s a → I (step s a)) (hs : I s)
    (h : Along step P s actions) : I (actions.foldl step s) := by
  induction actions generalizing s with
  | nil => exact hs
  | cons a actions ih => exact ih (hstep s a hs h.1) h.2

theorem foldl_invariant {I : σ → Prop} (hstep : ∀ s a, I s → I (step s a)) (hs : I s) (actions : List α) :
    I (actions.foldl step s) := by
  induction actions generalizing s with
  | nil => exact hs
  | cons a actions ih => exact ih (hstep s a hs)

/-- A part of the state that only some actions change, and only in its own terms, sees a run of these actions. -/
theorem foldl_slice {π : Type} (I : σ → Prop) (slice : σ → π) (act : π → α → π) (concerns : α → Bool)
    (hI : ∀ s a, I s → I (step s a))
    (hstep : ∀ s a, I s → slice (step s a) = if concerns a then act (slice s) a else slice s) (hs : I s)
    (actions : List α) : slice (actions.foldl step s) = (actions.filter concerns).foldl act (slice s) := by
  induction actions generalizing s with
  | nil => rfl
  | cons a actions ih =>
    rw [List.foldl_cons, ih (hI s a hs), hstep s a hs]
    by_cases ha : concerns a
    · rw [if_pos ha, List.filter_cons_of_pos ha, List.foldl_cons]
    · rw [if_neg ha, List.filter_cons_of_neg ha]

lemma along_append (more : List α) :
    Along step P s (actions ++ more) ↔ Along step P s actions ∧ Along step P (actions.foldl step s) more := by
  induction actions generalizing s with
  | nil => simp [Along]
  | cons a actions ih => simp only [List.cons_append, Along, List.foldl_cons, ih, and_assoc]

lemma along_iff : Along step P s actions ↔
    ∀ before a, before ++ [a] <+: actions → P (before.foldl step s) a := by
  induction actions generalizing s with
  | nil => simp [Along]
  | cons a actions ih =>
    rw [Along, ih]
    constructor
    · rintro ⟨ha, hrest⟩ before b hb
      cases before with
      | nil =>
        obtain ⟨rfl, -⟩ := List.cons_prefix_cons.1 hb
        exact ha
      | cons c before =>
        obtain ⟨rfl, hb'⟩ := List.cons_prefix_cons.1 (List.cons_append ▸ hb)
        exact hrest before b hb'
    · intro h
      refine ⟨h [] a ⟨actions, rfl⟩, fun before b hb => h (a :: before) b ?_⟩
      exact List.cons_prefix_cons.2 ⟨rfl, hb⟩

theorem along_iff_invariant {I W : σ → Prop} (hW : ∀ s a, W s → W (step s a))
    (hI : ∀ s a, W s → I s → (I (step s a) ↔ P s a)) (hw : W s) (hs : I s) :
    Along step P s actions ↔ ∀ before, before <+: actions → I (before.foldl step s) := by
  induction actions generalizing s with
  | nil => simpa [Along] using hs
  | cons a actions ih =>
    constructor
    · rintro ⟨ha, hrest⟩ before hbefore
      cases before with
      | nil => exact hs
      | cons b before =>
        obtain ⟨rfl, htail⟩ := List.cons_prefix_cons.1 hbefore
        exact (ih (hW _ _ hw) ((hI _ _ hw hs).2 ha)).1 hrest before htail
    · intro h
      have hstep : I (step s a) := h [a] (List.cons_prefix_cons.2 ⟨rfl, List.nil_prefix⟩)
      refine ⟨(hI _ _ hw hs).1 hstep, (ih (hW _ _ hw) hstep).2 fun before hbefore => ?_⟩
      exact h (a :: before) (List.cons_prefix_cons.2 ⟨rfl, hbefore⟩)

end Runs
