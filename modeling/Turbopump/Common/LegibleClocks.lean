import Turbopump.Common.ReferenceClocks

/-! Which lists of clocks are read back from their string, and that the string identifies the clocks. -/

namespace Turbopump

namespace VectorClock

variable {T : TurboLib} {u v : VectorClock}

lemma failed_of_long (hT : T.Inverts) (h : ∀ c ∈ v, c.Legible) (hlen : 2 ^ 32 ≤ v.length) :
    fromString T (toString T v) = .failed := by
  simp only [fromString, map_toString hT h, readUnsigned_printed isDigit_head?_spaced, if_pos hlen]

lemma toString_inj (hT : T.Inverts) (hu : ∀ c ∈ u, c.Legible) (hv : ∀ c ∈ v, c.Legible)
    (h : toString T u = toString T v) : u = v := by
  have hspaced : decimal u.length ++ spaced T u = decimal v.length ++ spaced T v := by
    rw [← map_toString hT hu, ← map_toString hT hv, h]
  -- both are read with room for the longer one
  have hread := readUnsigned_decimal (Nat.lt_succ_of_le (Nat.le_max_left u.length v.length)) isDigit_head?_spaced
    (s := spaced T u)
  rw [hspaced, readUnsigned_decimal (Nat.lt_succ_of_le (Nat.le_max_right u.length v.length)) isDigit_head?_spaced]
    at hread
  obtain ⟨hlen, hrest⟩ := Prod.mk.inj (Option.some.inj hread)
  have hparse := parseClocks_spaced hT u hu
  rw [← hlen, ← hrest, parseClocks_spaced hT v hv] at hparse
  exact (Parsed.parsed.inj hparse).symm

theorem read_back (hT : T.Inverts) :
    (∀ v, (∀ c ∈ v, c.Legible) → (fromString T (toString T v) = .parsed v ↔ v.length < 2 ^ 32)) ∧
      ∀ u v, (∀ c ∈ u, c.Legible) → (∀ c ∈ v, c.Legible) → toString T u = toString T v → u = v := by
  refine ⟨fun v hv => ⟨fun h => ?_, parsed_toString hT hv⟩, fun u v hu hv => toString_inj hT hu hv⟩
  by_contra hlen
  rw [failed_of_long hT hv (Nat.le_of_not_lt hlen)] at h
  simp at h

theorem read_back_foo : fromString .reference (toString .reference [⟨ascii "bar", 12345, 0⟩, ⟨ascii "foo", 12345, 1⟩]) =
    .parsed [⟨ascii "bar", 12345, 0⟩, ⟨ascii "foo", 12345, 1⟩] :=
  ((read_back TurboLib.reference_base64.inverts).1 _ (by
    simpa using ⟨⟨show ∀ b ∈ ascii "bar", isLegible b by decide +kernel, by simp⟩,
      ⟨show ∀ b ∈ ascii "foo", isLegible b by decide +kernel, by simp⟩⟩)).2 (by simp)

theorem not_read_back_long : ∃ v : VectorClock, (∀ c ∈ v, c.Legible) ∧ v = List.replicate (2 ^ 32) ⟨ascii "a", 0, 0⟩ ∧
    fromString .reference (toString .reference v) = .failed := by
  have hlegible : ∀ c ∈ List.replicate (2 ^ 32) (⟨ascii "a", 0, 0⟩ : Clock), c.Legible := by
    intro c hc
    rw [List.eq_of_mem_replicate hc]
    exact ⟨show ∀ b ∈ ascii "a", isLegible b by decide +kernel, by simp⟩
  exact ⟨_, hlegible, rfl, failed_of_long TurboLib.reference_base64.inverts hlegible (by rw [List.length_replicate])⟩

end VectorClock

end Turbopump
