import Mathlib

/-! The digits of numbers, and the two byte orders of 64-bit integers. -/

namespace Turbopump

def lowDigits (b : ℕ) : ℕ → ℕ → List ℕ
  | 0, _ => []
  | k + 1, n => n % b :: lowDigits b k (n / b)

section Digits

variable {b : ℕ}

@[simp] lemma length_lowDigits (k n : ℕ) : (lowDigits b k n).length = k := by
  induction k generalizing n with
  | zero => rfl
  | succ k ih => simp [lowDigits, ih]

lemma lt_of_mem_lowDigits (hb : 0 < b) {k n d : ℕ} (h : d ∈ lowDigits b k n) : d < b := by
  induction k generalizing n with
  | zero => simp [lowDigits] at h
  | succ k ih =>
    rcases List.mem_cons.1 h with rfl | h
    · exact Nat.mod_lt _ hb
    · exact ih h

lemma lowDigits_getD {k i n : ℕ} (hi : i < k) : (lowDigits b k n).getD i 0 = n / b ^ i % b := by
  induction k generalizing i n with
  | zero => omega
  | succ k ih =>
    cases i with
    | zero => simp [lowDigits]
    | succ i => rw [lowDigits, List.getD_cons_succ, ih (by omega), Nat.div_div_eq_div_mul, ← pow_succ']

lemma ofDigits_lowDigits {k n : ℕ} (h : n < b ^ k) : Nat.ofDigits b (lowDigits b k n) = n := by
  induction k generalizing n with
  | zero => simp_all [lowDigits]
  | succ k ih =>
    have hlt : n / b < b ^ k := Nat.div_lt_of_lt_mul (by rwa [pow_succ'] at h)
    rw [lowDigits, Nat.ofDigits_cons, ih hlt]
    exact Nat.mod_add_div n b

lemma lowDigits_ofDigits {ds : List ℕ} (h : ∀ d ∈ ds, d < b) : lowDigits b ds.length (Nat.ofDigits b ds) = ds := by
  induction ds with
  | nil => rfl
  | cons d ds ih =>
    obtain ⟨hd, hds⟩ := List.forall_mem_cons.1 h
    have hb : 0 < b := by omega
    rw [List.length_cons, lowDigits, Nat.ofDigits_cons, Nat.add_mul_mod_self_left, Nat.mod_eq_of_lt hd,
      Nat.add_mul_div_left _ _ hb, Nat.div_eq_of_lt hd, zero_add, ih hds]

end Digits

def swapBytes (n : ℕ) : ℕ := Nat.ofDigits 256 (lowDigits 256 8 n).reverse

lemma swapBytes_lt (n : ℕ) : swapBytes n < 2 ^ 64 := by
  have := Nat.ofDigits_lt_base_pow_length (b := 256) (l := (lowDigits 256 8 n).reverse) (by omega)
    fun d hd => lt_of_mem_lowDigits (by omega) (List.mem_reverse.1 hd)
  simpa [swapBytes] using this

lemma swapBytes_swapBytes {n : ℕ} (h : n < 2 ^ 64) : swapBytes (swapBytes n) = n := by
  have hdigits := lowDigits_ofDigits fun d (hd : d ∈ (lowDigits 256 8 n).reverse) =>
    lt_of_mem_lowDigits (show 0 < 256 by omega) (List.mem_reverse.1 hd)
  simp only [List.length_reverse, length_lowDigits] at hdigits
  rw [swapBytes, swapBytes, hdigits, List.reverse_reverse]
  exact ofDigits_lowDigits (by simpa using h)

lemma swapBytes_eq (n : ℕ) : swapBytes n = n / 2 ^ 56 % 256 + 256 * (n / 2 ^ 48 % 256 + 256 * (n / 2 ^ 40 % 256 +
    256 * (n / 2 ^ 32 % 256 + 256 * (n / 2 ^ 24 % 256 + 256 * (n / 2 ^ 16 % 256 + 256 * (n / 2 ^ 8 % 256 +
      256 * (n % 256))))))) := by
  simp [swapBytes, lowDigits, Nat.ofDigits, Nat.div_div_eq_div_mul]

lemma swapBytes_le {m n : ℕ} (h : ∀ j, m.testBit j = true → n.testBit j = true) : swapBytes m ≤ swapBytes n := by
  have hbyte (i : ℕ) : m / 2 ^ i % 256 ≤ n / 2 ^ i % 256 := by
    refine Nat.le_of_testBit fun j hj => ?_
    rw [show 256 = 2 ^ 8 from rfl, Nat.testBit_mod_two_pow, Nat.testBit_div_two_pow, Bool.and_eq_true] at hj ⊢
    exact ⟨hj.1, h _ hj.2⟩
  have hlast := hbyte 0
  rw [pow_zero, Nat.div_one, Nat.div_one] at hlast
  rw [swapBytes_eq, swapBytes_eq]
  gcongr
  all_goals exact hbyte _

end Turbopump
