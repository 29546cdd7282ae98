import Mathlib

/-! The pieces between the separators of a text, and what is left of them when some of the empty ones are dropped. -/

section Joined

variable {α : Type} {d : α} {piece : List α}

lemma intercalate_cons {pieces : List (List α)} (h : pieces ≠ []) :
    List.intercalate [d] (piece :: pieces) = piece ++ d :: List.intercalate [d] pieces := by
  rw [List.intercalate_cons_of_ne_nil h, List.append_assoc, List.singleton_append]

lemma mem_intercalate {a : α} {pieces : List (List α)} (h : a ∈ List.intercalate [d] pieces) :
    a = d ∨ ∃ piece ∈ pieces, a ∈ piece := by
  induction pieces with
  | nil => simp at h
  | cons piece pieces ih =>
    by_cases hpieces : pieces = []
    · subst hpieces
      exact .inr ⟨piece, List.mem_singleton_self _, by simpa using h⟩
    · rw [intercalate_cons hpieces, List.mem_append, List.mem_cons] at h
      rcases h with h | h | h
      · exact .inr ⟨piece, List.mem_cons_self, h⟩
      · exact .inl h
      · exact (ih h).imp_right fun ⟨piece', hmem, ha⟩ => ⟨piece', List.mem_cons_of_mem _ hmem, ha⟩

lemma intercalate_eq_nil {pieces : List (List α)} :
    List.intercalate [d] pieces = [] ↔ pieces = [] ∨ pieces = [[]] := by
  cases pieces with
  | nil => simp
  | cons piece pieces =>
    by_cases hpieces : pieces = []
    · simp [hpieces]
    · simp [intercalate_cons hpieces, hpieces]

end Joined

section Separators

variable {α : Type} [DecidableEq α] {d : α} {s piece : List α}

lemma not_mem_of_mem_splitOn (h : piece ∈ s.splitOn d) : d ∉ piece ∧ ∀ a ∈ piece, a ∈ s := by
  induction s generalizing piece with
  | nil =>
    obtain rfl : piece = [] := by simpa using h
    simp
  | cons a s ih =>
    rw [List.splitOn_cons_eq_if_modifyHead] at h
    by_cases ha : a = d
    · rw [if_pos (by simpa using ha), List.mem_cons] at h
      rcases h with rfl | h
      · simp
      · exact ⟨(ih h).1, fun b hb => List.mem_cons_of_mem a ((ih h).2 b hb)⟩
    · rw [if_neg (by simpa using ha)] at h
      obtain ⟨first, rest, hsplit⟩ := List.exists_cons_of_ne_nil (List.splitOn_ne_nil d s)
      rw [hsplit, List.modifyHead_cons, List.mem_cons] at h
      rw [hsplit] at ih
      rcases h with rfl | h
      · obtain ⟨hfirst, hmem⟩ := ih List.mem_cons_self
        refine ⟨List.not_mem_cons_of_ne_of_not_mem (Ne.symm ha) hfirst, fun b hb => ?_⟩
        exact (List.mem_cons.1 hb).elim (fun hb => hb ▸ List.mem_cons_self) fun hb => List.mem_cons_of_mem a (hmem b hb)
      · obtain ⟨hpiece, hmem⟩ := ih (List.mem_cons_of_mem first h)
        exact ⟨hpiece, fun b hb => List.mem_cons_of_mem a (hmem b hb)⟩

lemma splitOn_flatMap {texts : List (List α)} (h : ∀ text ∈ texts, d ∉ text) :
    (texts.flatMap (· ++ [d])).splitOn d = texts ++ [[]] := by
  induction texts with
  | nil => simp
  | cons text texts ih =>
    obtain ⟨htext, htexts⟩ := List.forall_mem_cons.1 h
    rw [List.flatMap_cons, List.append_assoc, List.singleton_append, List.splitOn_append_cons_self_of_not_mem htext,
      ih htexts, List.cons_append]

end Separators

/-- Some of the empty pieces of `s` may be missing. -/
structure Pieces {α : Type} [DecidableEq α] (d : α) (s : List α) (pieces : List (List α)) : Prop where
  sublist : pieces.Sublist (s.splitOn d)
  kept : pieces.filter (· ≠ []) = (s.splitOn d).filter (· ≠ [])

namespace Pieces

variable {α : Type} [DecidableEq α] {d : α} {s piece : List α} {pieces : List (List α)}

lemma refl (d : α) (s : List α) : Pieces d s (s.splitOn d) := ⟨List.Sublist.refl _, rfl⟩

lemma not_mem (h : Pieces d s pieces) (hpiece : piece ∈ pieces) : d ∉ piece ∧ ∀ a ∈ piece, a ∈ s :=
  not_mem_of_mem_splitOn (h.sublist.subset hpiece)

lemma eq_iff (h : Pieces d s pieces) : pieces = s.splitOn d ↔ pieces.length = (s.splitOn d).length :=
  ⟨congrArg List.length, h.sublist.eq_of_length⟩

lemma eq_splitOn (h : Pieces d s pieces) (hpieces : [] ∉ s.splitOn d) : pieces = s.splitOn d := by
  have hall : (s.splitOn d).filter (· ≠ []) = s.splitOn d := by
    refine List.filter_eq_self.2 fun piece hpiece => decide_eq_true ?_
    rintro rfl
    exact hpieces hpiece
  refine h.sublist.eq_of_length_le ?_
  have hlength := List.length_filter_le (· ≠ []) pieces
  rwa [h.kept, hall] at hlength

lemma filterMap_eq {β : Type} (h : Pieces d s pieces) {f : List α → Option β} (hf : f [] = none) :
    pieces.filterMap f = (s.splitOn d).filterMap f := by
  have hskip (texts : List (List α)) : texts.filterMap f = (texts.filter (· ≠ [])).filterMap f := by
    rw [List.filterMap_filter]
    refine List.filterMap_congr fun text _ => ?_
    by_cases htext : text = []
    · simp [htext, hf]
    · simp [htext]
  rw [hskip pieces, h.kept, ← hskip]

end Pieces
