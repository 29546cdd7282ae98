import Mathlib

/-! Blocks of numbers: those that agree but for their last bits. -/

namespace Block

def first (s n : ℕ) : ℕ := n / 2 ^ s * 2 ^ s

def last (s n : ℕ) : ℕ := first s n + (2 ^ s - 1)

variable {s t m n k : ℕ}

lemma first_le (s n : ℕ) : first s n ≤ n := Nat.div_mul_le_self n (2 ^ s)

lemma first_le_last (s n : ℕ) : first s n ≤ last s n := Nat.le_add_right _ _

lemma mem_iff : first s n ≤ k ∧ k ≤ last s n ↔ k / 2 ^ s = n / 2 ^ s := by
  have hpos := Nat.two_pow_pos s
  rw [Nat.div_eq_iff hpos, last, first, Nat.add_sub_assoc hpos]

lemma div_of_le (hts : t ≤ s) (h : k / 2 ^ t = m / 2 ^ t) : k / 2 ^ s = m / 2 ^ s := by
  have hpow : 2 ^ s = 2 ^ t * 2 ^ (s - t) := by rw [← pow_add, Nat.add_sub_cancel' hts]
  rw [hpow, ← Nat.div_div_eq_div_mul, ← Nat.div_div_eq_div_mul, h]

lemma div_eq_iff_testBit : k / 2 ^ s = n / 2 ^ s ↔ ∀ j, s ≤ j → k.testBit j = n.testBit j := by
  constructor
  · intro h j hj
    rw [← Nat.sub_add_cancel hj, ← Nat.testBit_div_two_pow, h, Nat.testBit_div_two_pow]
  · intro h
    refine Nat.eq_of_testBit_eq fun j => ?_
    rw [Nat.testBit_div_two_pow, Nat.testBit_div_two_pow, h _ (Nat.le_add_left s j)]

lemma first_div (s n : ℕ) : first s n / 2 ^ s = n / 2 ^ s := mem_iff.1 ⟨le_rfl, first_le_last s n⟩

lemma last_div (s n : ℕ) : last s n / 2 ^ s = n / 2 ^ s := mem_iff.1 ⟨first_le_last s n, le_rfl⟩

lemma apart (hts : t ≤ s) (h : m / 2 ^ s ≠ n / 2 ^ s) : last t m < first s n ∨ last s n < first t m := by
  have hfirst := div_of_le hts (first_div t m)
  have hlast := div_of_le hts (last_div t m)
  rcases lt_or_gt_of_ne h with hlt | hgt
  · left
    by_contra hle
    have hdiv := Nat.div_le_div_right (c := 2 ^ s) (not_lt.1 hle)
    rw [first_div, hlast] at hdiv
    omega
  · right
    by_contra hle
    have hdiv := Nat.div_le_div_right (c := 2 ^ s) (not_lt.1 hle)
    rw [last_div, hfirst] at hdiv
    omega

lemma testBit_last (s n j : ℕ) : (last s n).testBit j = if j < s then true else n.testBit j := by
  have hpos := Nat.two_pow_pos s
  rw [last, first, Nat.mul_comm, Nat.testBit_two_pow_mul_add _ (by omega)]
  split_ifs with hj
  · simp [Nat.testBit_two_pow_sub_one, hj]
  · rw [Nat.testBit_div_two_pow, Nat.sub_add_cancel (not_lt.1 hj)]

lemma testBit_last_of_le (hts : t ≤ s) (h : m / 2 ^ s = n / 2 ^ s) {j : ℕ} (hj : (last t m).testBit j = true) :
    (last s n).testBit j = true := by
  rw [testBit_last] at hj ⊢
  split_ifs with hs
  · rfl
  · rw [if_neg (by omega)] at hj
    rwa [← Nat.sub_add_cancel (not_lt.1 hs), ← Nat.testBit_div_two_pow, ← h, Nat.testBit_div_two_pow,
      Nat.sub_add_cancel (not_lt.1 hs)]

lemma last_eq_xor (s n : ℕ) : last s n = first s n ^^^ (2 ^ s - 1) := by
  refine Nat.eq_of_testBit_eq fun j => ?_
  rw [testBit_last, Nat.testBit_xor, Nat.testBit_two_pow_sub_one, first, Nat.testBit_mul_two_pow]
  split_ifs with hj
  · simp [hj]
  · simp [hj, not_lt.1 hj, Nat.testBit_div_two_pow]

lemma zero_bits (n : ℕ) : first 0 n = n ∧ last 0 n = n := by
  simp [first, last]

end Block
