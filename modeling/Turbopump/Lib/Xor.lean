import Mathlib

/-! Exclusive or over lists of 64-bit words. -/

def xorAll (ds : List UInt64) : UInt64 := ds.foldr (· ^^^ ·) 0

section Xor

variable {α : Type}

@[simp] lemma xorAll_nil : xorAll [] = 0 := rfl

@[simp] lemma xorAll_cons (d : UInt64) (ds : List UInt64) : xorAll (d :: ds) = d ^^^ xorAll ds := rfl

@[simp] lemma xorAll_append (ds es : List UInt64) : xorAll (ds ++ es) = xorAll ds ^^^ xorAll es := by
  induction ds with
  | nil => simp
  | cons d ds ih => rw [List.cons_append, xorAll_cons, ih, xorAll_cons, UInt64.xor_assoc]

lemma xorAll_perm {ds es : List UInt64} (h : ds.Perm es) : xorAll ds = xorAll es := by
  refine h.foldr_eq' (fun a _ b _ c => ?_) 0
  rw [← UInt64.xor_assoc, UInt64.xor_comm b a, UInt64.xor_assoc]

lemma xor_cancel (a b : UInt64) : a ^^^ (a ^^^ b) = b := by
  rw [← UInt64.xor_assoc, UInt64.xor_self, UInt64.zero_xor]

theorem xorAll_filter_not (f : α → UInt64) (p : α → Bool) (l : List α) :
    xorAll ((l.filter fun a => ! p a).map f) = xorAll (l.map f) ^^^ xorAll ((l.filter p).map f) := by
  induction l with
  | nil => simp
  | cons a l ih =>
    cases hp : p a
    · simp [hp, ih, UInt64.xor_assoc]
    · simp only [List.filter_cons, hp, Bool.not_true, Bool.false_eq_true, if_false, if_true, List.map_cons,
        xorAll_cons, ih]
      rw [UInt64.xor_assoc (f a), UInt64.xor_comm (xorAll (l.map f)) (f a ^^^ _), UInt64.xor_assoc (f a),
        xor_cancel, UInt64.xor_comm]

lemma xorAll_own [DecidableEq α] {gone gone' : List α} {v : α} {d d' : α → UInt64} (hnodup : gone.Nodup)
    (hnodup' : gone'.Nodup) (hmem : ∀ u, u ∈ gone ↔ u ∈ gone') (hothers : ∀ u ∈ gone, u ≠ v → d u = d' u)
    (hown : v ∈ gone ∨ d v = d' v) :
    d v ^^^ xorAll (gone.map d) = d' v ^^^ xorAll (gone'.map d') := by
  have hperm : gone'.Perm gone := (List.perm_ext_iff_of_nodup hnodup' hnodup).2 fun u => (hmem u).symm
  rw [xorAll_perm (hperm.map d')]
  by_cases hv : v ∈ gone
  · have hcons := List.perm_cons_erase hv
    have hrest : (gone.erase v).map d = (gone.erase v).map d' := by
      refine List.map_congr_left fun u hu => ?_
      obtain ⟨huv, hu⟩ := (hnodup.mem_erase_iff).1 hu
      exact hothers u hu huv
    rw [xorAll_perm (hcons.map d), xorAll_perm (hcons.map d'), List.map_cons, List.map_cons, xorAll_cons, xorAll_cons,
      xor_cancel, xor_cancel, hrest]
  · have hsame : gone.map d = gone.map d' := by
      refine List.map_congr_left fun u hu => hothers u hu ?_
      rintro rfl
      exact hv hu
    rw [hsame, hown.resolve_left hv]

lemma xorAll_map_set (f : α → UInt64) {l : List α} {i : ℕ} {a : α} (ha : l[i]? = some a) (b : α) :
    xorAll ((l.set i b).map f) = xorAll (l.map f) ^^^ (f a ^^^ f b) := by
  induction l generalizing i with
  | nil => simp at ha
  | cons c l ih =>
    cases i with
    | zero =>
      obtain rfl : c = a := by simpa using ha
      rw [List.set_cons_zero, List.map_cons, List.map_cons, xorAll_cons, xorAll_cons, UInt64.xor_comm (f c) (xorAll _),
        UInt64.xor_assoc, xor_cancel, UInt64.xor_comm]
    | succ i =>
      rw [List.set_cons_succ, List.map_cons, List.map_cons, xorAll_cons, xorAll_cons, ih (by simpa using ha),
        UInt64.xor_assoc]

section Pairs

variable [DecidableEq α]

def PairsOff (l : List α) : Prop := ∀ a, Even (l.count a)

lemma PairsOff.perm {l m : List α} (h : PairsOff l) (hperm : l.Perm m) : PairsOff m :=
  fun a => hperm.count_eq a ▸ h a

lemma pairsOff_cons_cons {a : α} {l : List α} : PairsOff (a :: a :: l) ↔ PairsOff l := by
  refine forall_congr' fun b => ?_
  rw [List.count_cons, List.count_cons, Nat.add_assoc, Nat.even_add]
  by_cases h : a == b <;> simp [h, even_two]

theorem PairsOff.xorAll_map {l : List α} (h : PairsOff l) (f : α → UInt64) : xorAll (l.map f) = 0 := by
  induction hn : l.length using Nat.strong_induction_on generalizing l with
  | h n ih =>
    cases l with
    | nil => rfl
    | cons a l =>
      have hmem : a ∈ l := by
        by_contra hnot
        have hcount := h a
        rw [List.count_cons_self, List.count_eq_zero_of_not_mem hnot] at hcount
        exact absurd hcount (by decide)
      have hperm : l.Perm (a :: l.erase a) := List.perm_cons_erase hmem
      have hrest : PairsOff (l.erase a) := pairsOff_cons_cons.1 (h.perm (hperm.cons a))
      rw [List.map_cons, xorAll_cons, xorAll_perm (hperm.map f), List.map_cons, xorAll_cons, xor_cancel]
      refine ih _ ?_ hrest rfl
      rw [← hn, List.length_cons, List.length_erase_of_mem hmem]
      omega

lemma xorAll_indicator (a : α) (l : List α) :
    xorAll (l.map fun b => if b = a then 1 else 0) = if Even (l.count a) then 0 else 1 := by
  induction l with
  | nil => simp
  | cons b l ih =>
    rw [List.map_cons, xorAll_cons, ih]
    by_cases hb : b = a
    · subst hb
      simp only [List.count_cons_self, Nat.even_add_one]
      by_cases heven : Even (l.count b) <;> simp [heven]
    · rw [List.count_cons_of_ne hb, if_neg hb]
      simp

lemma PairsOff.even_length {l : List α} (h : PairsOff l) : Even l.length := by
  rw [← List.sum_toFinset_count_eq_length l]
  exact Finset.even_sum _ fun a _ => h a

lemma not_pairsOff_of_odd {l : List α} (h : l.length % 2 = 1) : ¬ PairsOff l := by
  intro hl
  rw [Nat.even_iff.1 hl.even_length] at h
  omega

lemma pairsOff_two {a b : α} : PairsOff [a, b] ↔ a = b := by
  constructor
  · intro h
    by_contra hne
    have := h a
    simp [Ne.symm hne] at this
  · rintro rfl
    exact pairsOff_cons_cons.2 fun _ => by simp

lemma pairsOff_between {a b c : α} : PairsOff [a, b, b, c] ↔ a = c := by
  have hperm : [a, b, b, c].Perm [b, b, a, c] :=
    (List.Perm.swap b a [b, c]).trans ((List.Perm.swap b a [c]).cons b)
  rw [← pairsOff_two, ← @pairsOff_cons_cons _ _ b [a, c]]
  exact ⟨fun h => h.perm hperm, fun h => h.perm hperm.symm⟩

lemma pairsOff_four {a b c d : α} (h : PairsOff [a, b, c, d]) :
    a = b ∧ c = d ∨ a = c ∧ b = d ∨ a = d ∧ b = c := by
  by_cases hab : a = b
  · subst hab
    exact .inl ⟨rfl, pairsOff_two.1 (pairsOff_cons_cons.1 h)⟩
  by_cases hac : a = c
  · subst hac
    exact .inr (.inl ⟨rfl, pairsOff_two.1 (pairsOff_cons_cons.1 (h.perm ((List.Perm.swap a b [d]).cons a)))⟩)
  have had : a = d := by
    by_contra had
    have := h a
    simp [Ne.symm hab, Ne.symm hac, Ne.symm had] at this
  subst had
  have hswap : [a, b, c, a].Perm (a :: a :: [b, c]) :=
    ((List.Perm.cons b (List.Perm.swap a c [])).trans (List.Perm.swap a b [c])).cons a
  exact .inr (.inr ⟨rfl, pairsOff_two.1 (pairsOff_cons_cons.1 (h.perm hswap))⟩)

end Pairs

end Xor
