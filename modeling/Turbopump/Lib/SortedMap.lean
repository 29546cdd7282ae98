import Mathlib

/-! Finite maps as lists sorted by key, and the circular order of their entries. -/

structure SortedMap (κ ν : Type) [LinearOrder κ] where
  entries : List (κ × ν)
  sorted : entries.Pairwise (·.1 < ·.1)

namespace SortedMap

variable {κ ν : Type} [LinearOrder κ]

def lookup (k : κ) : List (κ × ν) → Option ν
  | [] => none
  | e :: es => if e.1 = k then some e.2 else lookup k es

def put (k : κ) (v : ν) : List (κ × ν) → List (κ × ν)
  | [] => [(k, v)]
  | e :: es => if k < e.1 then (k, v) :: e :: es else if k = e.1 then (k, v) :: es else e :: put k v es

lemma mem_put {k : κ} {v : ν} {es : List (κ × ν)} {e : κ × ν} (h : e ∈ put k v es) : e = (k, v) ∨ e ∈ es := by
  induction es with
  | nil => exact Or.inl (by simpa [put] using h)
  | cons e' es ih =>
    simp only [put] at h
    split at h
    · rcases List.mem_cons.1 h with h | h
      · exact Or.inl h
      · exact Or.inr h
    · split at h
      · rcases List.mem_cons.1 h with h | h
        · exact Or.inl h
        · exact Or.inr (List.mem_cons_of_mem _ h)
      · rcases List.mem_cons.1 h with h | h
        · exact Or.inr (h ▸ List.mem_cons_self)
        · exact (ih h).imp_right (List.mem_cons_of_mem _)

lemma put_sorted (k : κ) (v : ν) {es : List (κ × ν)} (h : es.Pairwise (·.1 < ·.1)) :
    (put k v es).Pairwise (·.1 < ·.1) := by
  induction es with
  | nil => exact List.pairwise_singleton _ _
  | cons e es ih =>
    obtain ⟨he, hes⟩ := List.pairwise_cons.1 h
    simp only [put]
    split
    case isTrue hlt =>
      refine List.pairwise_cons.2 ⟨fun e' he' => ?_, h⟩
      rcases List.mem_cons.1 he' with rfl | he'
      · exact hlt
      · exact hlt.trans (he _ he')
    case isFalse hlt =>
      split
      case isTrue heq => exact List.pairwise_cons.2 ⟨fun e' he' => heq ▸ he _ he', hes⟩
      case isFalse hne =>
        refine List.pairwise_cons.2 ⟨fun e' he' => ?_, ih hes⟩
        rcases mem_put he' with rfl | he'
        · exact lt_of_le_of_ne (not_lt.1 hlt) (Ne.symm hne)
        · exact he _ he'

def empty : SortedMap κ ν := ⟨[], List.Pairwise.nil⟩

def get (m : SortedMap κ ν) (k : κ) : Option ν := lookup k m.entries

def insert (m : SortedMap κ ν) (k : κ) (v : ν) : SortedMap κ ν := ⟨put k v m.entries, put_sorted k v m.sorted⟩

def erase (m : SortedMap κ ν) (k : κ) : SortedMap κ ν := ⟨m.entries.filter (·.1 ≠ k), m.sorted.filter _⟩

def keys (m : SortedMap κ ν) : List κ := m.entries.map Prod.fst

def mapValues (m : SortedMap κ ν) (f : ν → ν) : SortedMap κ ν :=
  ⟨m.entries.map fun e => (e.1, f e.2), List.pairwise_map.2 m.sorted⟩

def filterKeys (m : SortedMap κ ν) (p : κ → Bool) : SortedMap κ ν :=
  ⟨m.entries.filter fun e => p e.1, m.sorted.filter _⟩

lemma lookup_put (k k' : κ) (v : ν) (es : List (κ × ν)) :
    lookup k' (put k v es) = if k = k' then some v else lookup k' es := by
  induction es with
  | nil => rfl
  | cons e es ih =>
    simp only [put]
    split
    · rfl
    · split
      case isTrue heq =>
        by_cases hk : k = k'
        · simp [lookup, hk]
        · simp [lookup, hk, ← heq]
      case isFalse hne =>
        simp only [lookup, ih]
        by_cases hk : k = k'
        · simp [hk ▸ Ne.symm hne, hk]
        · simp [hk]

lemma lookup_filter (k k' : κ) (es : List (κ × ν)) :
    lookup k' (es.filter (·.1 ≠ k)) = if k = k' then none else lookup k' es := by
  induction es with
  | nil => simp [lookup]
  | cons e es ih =>
    by_cases he : e.1 = k
    · rw [List.filter_cons_of_neg (by simpa using he), ih]
      by_cases hk : k = k' <;> simp [lookup, he, hk]
    · rw [List.filter_cons_of_pos (by simpa using he)]
      simp only [lookup, ih]
      by_cases hk : k = k'
      · simp [hk ▸ he, hk]
      · simp [hk]

lemma lookup_eq_some {k : κ} {v : ν} {es : List (κ × ν)} (h : es.Pairwise (·.1 < ·.1)) :
    lookup k es = some v ↔ (k, v) ∈ es := by
  induction es with
  | nil => simp [lookup]
  | cons e es ih =>
    obtain ⟨he, hes⟩ := List.pairwise_cons.1 h
    simp only [lookup]
    split
    case isTrue hk =>
      have hnot : (k, v) ∉ es := fun hmem => absurd (he _ hmem) (by simp [hk])
      simp only [Option.some.injEq, List.mem_cons, hnot, or_false, Prod.ext_iff, hk, true_and]
      exact eq_comm
    case isFalse hk =>
      rw [ih hes, List.mem_cons, or_iff_right]
      rintro rfl
      exact hk rfl

@[simp] lemma get_empty (k : κ) : (empty : SortedMap κ ν).get k = none := rfl

lemma get_insert (m : SortedMap κ ν) (k k' : κ) (v : ν) :
    (m.insert k v).get k' = if k = k' then some v else m.get k' := lookup_put k k' v m.entries

lemma get_erase (m : SortedMap κ ν) (k k' : κ) :
    (m.erase k).get k' = if k = k' then none else m.get k' := lookup_filter k k' m.entries

@[simp] lemma get_insert_self (m : SortedMap κ ν) (k : κ) (v : ν) : (m.insert k v).get k = some v := by
  rw [get_insert, if_pos rfl]

@[simp] lemma get_erase_self (m : SortedMap κ ν) (k : κ) : (m.erase k).get k = none := by
  rw [get_erase, if_pos rfl]

lemma get_insert_of_ne (m : SortedMap κ ν) {k k' : κ} (v : ν) (h : k ≠ k') : (m.insert k v).get k' = m.get k' := by
  rw [get_insert, if_neg h]

lemma get_erase_of_ne (m : SortedMap κ ν) {k k' : κ} (h : k ≠ k') : (m.erase k).get k' = m.get k' := by
  rw [get_erase, if_neg h]

@[simp] lemma get_mapValues (m : SortedMap κ ν) (f : ν → ν) (k : κ) : (m.mapValues f).get k = (m.get k).map f := by
  simp only [get, mapValues]
  induction m.entries with
  | nil => rfl
  | cons e es ih => by_cases h : e.1 = k <;> simp [lookup, h, ih]

@[simp] lemma get_filterKeys (m : SortedMap κ ν) (p : κ → Bool) (k : κ) :
    (m.filterKeys p).get k = if p k then m.get k else none := by
  simp only [get, filterKeys]
  induction m.entries with
  | nil => simp [lookup]
  | cons e es ih =>
    by_cases hk : e.1 = k
    · subst hk
      cases hp : p e.1 <;> simp [hp, lookup, ih]
    · cases hp : p e.1 <;> simp [hp, lookup, hk, ih]

lemma mem_entries {m : SortedMap κ ν} {k : κ} {v : ν} : (k, v) ∈ m.entries ↔ m.get k = some v :=
  (lookup_eq_some m.sorted).symm

lemma mem_keys {m : SortedMap κ ν} {k : κ} : k ∈ m.keys ↔ ∃ v, m.get k = some v := by
  simp only [keys, List.mem_map, Prod.exists, exists_and_right, exists_eq_right, mem_entries]

lemma keys_nodup (m : SortedMap κ ν) : m.keys.Nodup := by
  refine List.pairwise_map.2 (m.sorted.imp ?_)
  exact fun h => ne_of_lt h

lemma keys_pairwise (m : SortedMap κ ν) : m.keys.Pairwise (· < ·) := List.pairwise_map.2 m.sorted

lemma keys_filterMap_congr {β : Type} {m m' : SortedMap κ ν} {f : κ → Option β}
    (h : ∀ k, (f k).isSome → (k ∈ m.keys ↔ k ∈ m'.keys)) : m.keys.filterMap f = m'.keys.filterMap f := by
  have hfilter (l : List κ) : l.filterMap f = (l.filter fun k => (f k).isSome).filterMap f := by
    rw [List.filterMap_filter]
    refine List.filterMap_congr fun k _ => ?_
    cases f k <;> rfl
  rw [hfilter m.keys, hfilter m'.keys]
  refine congrArg (List.filterMap f) (List.Pairwise.eq_of_mem_iff (m.keys_pairwise.filter _)
    (m'.keys_pairwise.filter _) ?_)
  intro k
  rw [List.mem_filter, List.mem_filter]
  exact and_congr_left (h k)

theorem ext_get {m m' : SortedMap κ ν} (h : ∀ k, m.get k = m'.get k) : m = m' := by
  obtain ⟨es, hes⟩ := m
  obtain ⟨es', hes'⟩ := m'
  have hmem : ∀ e, e ∈ es ↔ e ∈ es' := by
    rintro ⟨k, v⟩
    have := h k
    simp only [get] at this
    rw [← lookup_eq_some hes, ← lookup_eq_some hes', this]
  have hperm : es.Perm es' :=
    (List.perm_ext_iff_of_nodup (hes.imp fun h heq => absurd h (by simp [heq]))
      (hes'.imp fun h heq => absurd h (by simp [heq]))).2 hmem
  have : es = es' := hperm.eq_of_pairwise (fun a b _ _ hab hba => absurd hab (lt_asymm hba)) hes hes'
  subst this
  rfl

lemma ext_entries {m m' : SortedMap κ ν} (h : ∀ e, e ∈ m.entries ↔ e ∈ m'.entries) : m = m' := by
  refine ext_get fun k => Option.ext fun v => ?_
  rw [← mem_entries, ← mem_entries, h]

lemma entries_eq_nil {m : SortedMap κ ν} : m.entries = [] ↔ ∀ k, m.get k = none := by
  constructor
  · intro h k
    rw [get, h]
    rfl
  · intro h
    refine List.eq_nil_iff_forall_not_mem.2 fun e he => ?_
    have := mem_entries.1 (show (e.1, e.2) ∈ m.entries from he)
    rw [h] at this
    simp at this

lemma erase_ne_nil {m : SortedMap κ ν} (h : 2 ≤ m.entries.length) (k : κ) : (m.erase k).entries ≠ [] := by
  obtain ⟨es, hes⟩ := m
  match es, hes, h with
  | e :: e' :: es, hes, _ =>
    have hlt : e.1 < e'.1 := (List.pairwise_cons.1 hes).1 e' List.mem_cons_self
    by_cases hk : e.1 = k
    · have hk' : e'.1 ≠ k := fun heq => absurd hlt (by simp [hk, heq])
      simp [erase, hk, hk']
    · simp [erase, hk]

section Circle

def circleFrom (m : SortedMap κ ν) (k : κ) : List (κ × ν) :=
  m.entries.filter (k ≤ ·.1) ++ m.entries.filter (·.1 < k)

def atOrAfter (m : SortedMap κ ν) (k : κ) : Option (κ × ν) := (m.circleFrom k).head?

def circleAfter (m : SortedMap κ ν) (k : κ) : List (κ × ν) :=
  m.entries.filter (k < ·.1) ++ m.entries.filter (·.1 ≤ k)

def after (m : SortedMap κ ν) (k : κ) : Option (κ × ν) := (m.circleAfter k).head?

variable {m : SortedMap κ ν}

lemma mem_circleFrom {k : κ} {e : κ × ν} : e ∈ m.circleFrom k ↔ e ∈ m.entries := by
  simp only [circleFrom, List.mem_append, List.mem_filter, decide_eq_true_eq, ← and_or_left]
  exact and_iff_left (le_or_gt _ _)

lemma mem_circleAfter {k : κ} {e : κ × ν} : e ∈ m.circleAfter k ↔ e ∈ m.entries := by
  simp only [circleAfter, List.mem_append, List.mem_filter, decide_eq_true_eq, ← and_or_left]
  exact and_iff_left (lt_or_ge _ _)

lemma atOrAfter_mem {k : κ} {e : κ × ν} (h : m.atOrAfter k = some e) : e ∈ m.entries :=
  mem_circleFrom.1 (List.mem_of_mem_head? h)

lemma after_mem {k : κ} {e : κ × ν} (h : m.after k = some e) : e ∈ m.entries :=
  mem_circleAfter.1 (List.mem_of_mem_head? h)

lemma circleFrom_erase (n k : κ) : (m.erase n).circleFrom k = (m.circleFrom k).filter (·.1 ≠ n) := by
  simp only [circleFrom, erase, List.filter_append, List.filter_filter, Bool.and_comm]

lemma circleFrom_perm (m : SortedMap κ ν) (k : κ) : (m.circleFrom k).Perm m.entries := by
  have hlt : m.entries.filter (·.1 < k) = m.entries.filter fun e => ! decide (k ≤ e.1) :=
    List.filter_congr fun e _ => by simp [← not_le]
  rw [circleFrom, hlt]
  exact List.filter_append_perm _ _

lemma exists_put {k : κ} (v : ν) {es : List (κ × ν)} (h : lookup k es = none) :
    ∃ before after, es = before ++ after ∧ put k v es = before ++ (k, v) :: after := by
  induction es with
  | nil => exact ⟨[], [], rfl, rfl⟩
  | cons e es ih =>
    simp only [lookup] at h
    split_ifs at h with hk
    by_cases hlt : k < e.1
    · exact ⟨[], e :: es, rfl, by rw [put, if_pos hlt]; rfl⟩
    · obtain ⟨before, after, hes, hput⟩ := ih h
      refine ⟨e :: before, after, by rw [hes, List.cons_append], ?_⟩
      rw [put, if_neg hlt, if_neg (Ne.symm hk), hput, List.cons_append]

theorem circleFrom_insert {k : κ} (v : ν) (h : m.get k = none) (from' : κ) : ∃ before after,
    m.circleFrom from' = before ++ after ∧ (m.insert k v).circleFrom from' = before ++ (k, v) :: after := by
  obtain ⟨before, after, hes, hput⟩ := exists_put v h
  have hfilter (p : κ × ν → Bool) : m.entries.filter p = before.filter p ++ after.filter p ∧
      (m.insert k v).entries.filter p = before.filter p ++ ((k, v) :: after).filter p := by
    constructor
    · rw [hes, List.filter_append]
    · simp only [insert, hput, List.filter_append]
  by_cases hle : from' ≤ k
  · refine ⟨before.filter (from' ≤ ·.1), after.filter (from' ≤ ·.1) ++ m.entries.filter (·.1 < from'), ?_, ?_⟩
    · rw [circleFrom, (hfilter _).1, List.append_assoc]
    · rw [circleFrom, (hfilter _).2, (hfilter _).2, List.filter_cons_of_pos (by simpa using hle),
        List.filter_cons_of_neg (by simpa using hle), ← (hfilter _).1, List.append_assoc, List.cons_append]
  · have hlt : k < from' := not_le.1 hle
    refine ⟨m.entries.filter (from' ≤ ·.1) ++ before.filter (·.1 < from'), after.filter (·.1 < from'), ?_, ?_⟩
    · rw [circleFrom, (hfilter (·.1 < from')).1, List.append_assoc]
    · rw [circleFrom, (hfilter _).2, (hfilter _).2, List.filter_cons_of_neg (by simpa using hlt),
        List.filter_cons_of_pos (by simpa using hlt), ← (hfilter _).1, List.append_assoc]

theorem erase_insert {k : κ} (v : ν) (h : m.get k = none) : (m.insert k v).erase k = m := by
  refine ext_get fun k' => ?_
  rw [get_erase, get_insert]
  split_ifs with hk
  · rw [← hk, h]
  · rfl

theorem atOrAfter_erase {n k : κ} {e : κ × ν} (h : m.atOrAfter k = some e) (hne : e.1 ≠ n) :
    (m.erase n).atOrAfter k = some e := by
  obtain ⟨es, hes⟩ := List.head?_eq_some_iff.1 h
  rw [atOrAfter, circleFrom_erase, hes, List.filter_cons_of_pos (by simpa using hne), List.head?_cons]

lemma exists_atOrAfter (h : m.entries ≠ []) (k : κ) : ∃ e, m.atOrAfter k = some e := by
  obtain ⟨e, he⟩ := List.exists_mem_of_ne_nil _ h
  cases hk : m.atOrAfter k with
  | some e => exact ⟨e, rfl⟩
  | none =>
    have hmem := mem_circleFrom (k := k).2 he
    rw [List.head?_eq_none_iff.1 hk] at hmem
    exact absurd hmem List.not_mem_nil

theorem after_ne {k k' : κ} {v' : ν} (h : m.get k' = some v') (hne : k' ≠ k) {e : κ × ν}
    (he : m.after k = some e) : e.1 ≠ k := by
  rcases hgt : m.entries.filter (k < ·.1) with _ | ⟨g, gs⟩
  · have hle : (k', v') ∈ m.entries.filter (·.1 ≤ k) := by
      have hmem := mem_entries.2 h
      refine List.mem_filter.2 ⟨hmem, ?_⟩
      by_contra hlt
      have : (k', v') ∈ m.entries.filter (k < ·.1) :=
        List.mem_filter.2 ⟨hmem, by simpa using hlt⟩
      rw [hgt] at this
      exact List.not_mem_nil this
    -- the head of a sorted list is at most `k'`, which is before `k`
    rw [after, circleAfter, hgt, List.nil_append] at he
    obtain ⟨es, hes⟩ := List.head?_eq_some_iff.1 he
    have hlt : k' < k := lt_of_le_of_ne (by simpa using (List.mem_filter.1 hle).2) hne
    rw [hes] at hle
    rcases List.mem_cons.1 hle with heq | hin
    · exact fun hek => hne (by rw [← hek, ← heq])
    · have hsorted := (m.sorted.filter (fun e => decide (e.1 ≤ k)))
      rw [hes] at hsorted
      exact ne_of_lt (((List.pairwise_cons.1 hsorted).1 _ hin).trans hlt)
  · rw [after, circleAfter, hgt, List.cons_append, List.head?_cons, Option.some.injEq] at he
    have : e ∈ m.entries.filter (k < ·.1) := by rw [hgt, he]; exact List.mem_cons_self
    exact ne_of_gt (by simpa using (List.mem_filter.1 this).2)

end Circle

end SortedMap
