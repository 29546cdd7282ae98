import Turbopump.Hashing.ConsistentHashRing
import Turbopump.Lib.Digits

/-! The order of the 64-bit keys of merkle trees, and the order of the hashes that they are cut from. -/

namespace Turbopump

lemma cons_lt_cons {x y : UInt8} {a b : Bytes} : x :: a < y :: b ↔ x < y ∨ x = y ∧ a < b := List.cons_lex_cons_iff

lemma lt_of_take_lt {a b : Bytes} {n : ℕ} (h : a.take n < b.take n) : a < b := by
  induction n generalizing a b with
  | zero => simp at h
  | succ n ih =>
    cases b with
    | nil => exact absurd h List.not_lex_nil
    | cons y b =>
      cases a with
      | nil => exact List.Lex.nil
      | cons x a =>
        rw [List.take_succ_cons, List.take_succ_cons, cons_lt_cons] at h
        rw [cons_lt_cons]
        rcases h with h | ⟨h, hab⟩
        · exact Or.inl h
        · exact Or.inr ⟨h, ih hab⟩

lemma take_le_take {a b : Bytes} (h : a ≤ b) (n : ℕ) : a.take n ≤ b.take n :=
  not_lt.1 fun hlt => not_lt.2 h (lt_of_take_lt hlt)

lemma lt_iff_ofDigits {u v : Bytes} (h : u.length = v.length) :
    u < v ↔ Nat.ofDigits 256 (u.reverse.map UInt8.toNat) < Nat.ofDigits 256 (v.reverse.map UInt8.toNat) := by
  induction u generalizing v with
  | nil =>
    cases v with
    | nil => simp
    | cons y v => simp at h
  | cons x u ih =>
    cases v with
    | nil => simp at h
    | cons y v =>
      have hlen : u.length = v.length := by simpa using h
      have hbound : ∀ w : Bytes, Nat.ofDigits 256 (w.reverse.map UInt8.toNat) < 256 ^ w.length := by
        intro w
        have hlt := Nat.ofDigits_lt_base_pow_length (b := 256) (l := w.reverse.map UInt8.toNat) (by omega)
          fun d hd => by
          obtain ⟨c, -, rfl⟩ := List.mem_map.1 hd
          exact c.toNat_lt
        simpa using hlt
      have hu := hbound u
      have hv := hbound v
      rw [← hlen] at hv
      rw [cons_lt_cons, ih hlen]
      simp only [List.reverse_cons, List.map_append, List.map_cons, List.map_nil, Nat.ofDigits_append,
        Nat.ofDigits_singleton, List.length_map, List.length_reverse, ← hlen, UInt8.lt_iff_toNat_lt, ← UInt8.toNat_inj]
      set p := 256 ^ u.length
      set a := Nat.ofDigits 256 (List.map UInt8.toNat u.reverse)
      set b := Nat.ofDigits 256 (List.map UInt8.toNat v.reverse)
      constructor
      · rintro (hlt | ⟨heq, hlt⟩)
        · have : p * (x.toNat + 1) ≤ p * y.toNat := Nat.mul_le_mul_left p hlt
          rw [Nat.mul_add, Nat.mul_one] at this
          omega
        · rw [heq]
          omega
      · intro hlt
        rcases lt_trichotomy x.toNat y.toNat with hxy | hxy | hxy
        · exact Or.inl hxy
        · rw [hxy] at hlt
          exact Or.inr ⟨hxy, by omega⟩
        · have : p * (y.toNat + 1) ≤ p * x.toNat := Nat.mul_le_mul_left p hxy
          rw [Nat.mul_add, Nat.mul_one] at this
          omega

namespace KeyHash

def big (k : KeyHash) : ℕ := swapBytes k.value.toNat

/-- The bits of the key's bytes in their order, the highest of each byte first. -/
def bit (k : KeyHash) (i : ℕ) : Bool := (k.memory.getD (i / 8) 0).toNat.testBit (7 - i % 8)

lemma memory_eq (k : KeyHash) : k.memory.map UInt8.toNat = lowDigits 256 8 k.value.toNat := by
  simp [memory, lowDigits, List.range_succ, Nat.div_div_eq_div_mul]

theorem lt_iff_big {k k' : KeyHash} : k < k' ↔ k.big < k'.big := by
  rw [show k < k' ↔ k.memory < k'.memory from Iff.rfl, lt_iff_ofDigits (by simp [memory]), List.map_reverse,
    List.map_reverse, memory_eq, memory_eq]
  rfl

lemma le_iff_big {k k' : KeyHash} : k ≤ k' ↔ k.big ≤ k'.big := by
  rw [← not_lt, lt_iff_big, not_lt]

lemma big_lt (k : KeyHash) : k.big < 2 ^ 64 := swapBytes_lt _

lemma lowDigits_big (k : KeyHash) : lowDigits 256 8 k.big = (lowDigits 256 8 k.value.toNat).reverse := by
  have hdigits := lowDigits_ofDigits fun d (hd : d ∈ (lowDigits 256 8 k.value.toNat).reverse) =>
    lt_of_mem_lowDigits (show 0 < 256 by omega) (List.mem_reverse.1 hd)
  rwa [List.length_reverse, length_lowDigits] at hdigits

lemma bit_eq (k : KeyHash) {i : ℕ} (hi : i < 64) : k.bit i = k.big.testBit (63 - i) := by
  have hbyte : (k.memory.getD (i / 8) 0).toNat = k.big / 2 ^ (8 * (7 - i / 8)) % 2 ^ 8 := by
    calc (k.memory.getD (i / 8) 0).toNat = (k.memory.map UInt8.toNat).getD (i / 8) 0 := by
          rw [← UInt8.toNat_zero, List.getD_map]
      _ = (lowDigits 256 8 k.big).getD (7 - i / 8) 0 := by
          rw [memory_eq, lowDigits_big]
          simp only [List.getD_eq_getElem?_getD]
          rw [List.getElem?_reverse (by simp; omega), length_lowDigits, show 8 - 1 - (7 - i / 8) = i / 8 by omega]
      _ = k.big / 2 ^ (8 * (7 - i / 8)) % 2 ^ 8 := by
          rw [lowDigits_getD (show 7 - i / 8 < 8 by omega), pow_mul]
          rfl
  rw [bit, hbyte, Nat.testBit_mod_two_pow, Nat.testBit_div_two_pow, decide_eq_true (by omega), Bool.true_and,
    show 7 - i % 8 + 8 * (7 - i / 8) = 63 - i by omega]

lemma zero_le (k : KeyHash) : ⟨0⟩ ≤ k := by
  rw [le_iff_big]
  exact Nat.zero_le _

lemma le_last (k : KeyHash) : k ≤ ⟨0xffffffffffffffff⟩ := by
  rw [le_iff_big]
  exact Nat.le_of_lt_succ k.big_lt

end KeyHash

/-- `be64toh(++htobe64(n))`: the next integer in the order of the keys. -/
def nextInteger (n : UInt64) : UInt64 :=
  UInt64.ofNat (swapBytes (UInt64.ofNat (swapBytes n.toNat) + 1).toNat)

lemma nextInteger_le {n : UInt64} {k k' : KeyHash} (h : ⟨n⟩ < k') : ⟨nextInteger n⟩ ≤ k ↔ ⟨n⟩ < k := by
  have hlt : swapBytes n.toNat + 1 < 2 ^ 64 := by
    have := k'.big_lt
    have := KeyHash.lt_iff_big.1 h
    simp only [KeyHash.big] at *
    omega
  have hbig : (⟨nextInteger n⟩ : KeyHash).big = swapBytes n.toNat + 1 := by
    have hsum : (UInt64.ofNat (swapBytes n.toNat) + 1).toNat = swapBytes n.toNat + 1 := by
      simp only [UInt64.toNat_add, UInt64.toNat_ofNat', UInt64.toNat_one]
      omega
    rw [KeyHash.big, nextInteger, hsum, UInt64.toNat_ofNat', Nat.mod_eq_of_lt (swapBytes_lt _),
      swapBytes_swapBytes hlt]
  rw [KeyHash.le_iff_big, KeyHash.lt_iff_big, hbig]
  exact Nat.succ_le_iff

section Integer

variable {a b : Bytes}

lemma memory_integer (h : 8 ≤ a.length) : (⟨Hash.integer a⟩ : KeyHash).memory = a.take 8 := by
  match a, h with
  | b₀ :: b₁ :: b₂ :: b₃ :: b₄ :: b₅ :: b₆ :: b₇ :: rest, _ =>
    have h₀ := b₀.toNat_lt
    have h₁ := b₁.toNat_lt
    have h₂ := b₂.toNat_lt
    have h₃ := b₃.toNat_lt
    have h₄ := b₄.toNat_lt
    have h₅ := b₅.toNat_lt
    have h₆ := b₆.toNat_lt
    have h₇ := b₇.toNat_lt
    simp only [KeyHash.memory, Hash.integer, List.take_succ_cons, List.take_zero, List.foldr_cons, List.foldr_nil,
      List.range_succ, List.range_zero, List.nil_append, List.map_cons, List.map_nil, List.cons_append,
      List.cons.injEq, ← UInt8.toNat_inj, UInt8.toNat_ofNat', UInt64.toNat_ofNat', and_true]
    omega

lemma integer_le_iff (ha : 8 ≤ a.length) (hb : 8 ≤ b.length) :
    (⟨Hash.integer a⟩ : KeyHash) ≤ ⟨Hash.integer b⟩ ↔ a.take 8 ≤ b.take 8 := by
  rw [KeyHash.le_iff, memory_integer ha, memory_integer hb]

lemma integer_le (ha : 8 ≤ a.length) (hb : 8 ≤ b.length) (h : a ≤ b) :
    (⟨Hash.integer a⟩ : KeyHash) ≤ ⟨Hash.integer b⟩ := (integer_le_iff ha hb).2 (take_le_take h 8)

lemma integer_le_iff_le (ha : 8 ≤ a.length) (hb : 8 ≤ b.length) (hab : a.take 8 = b.take 8 → a = b) :
    (⟨Hash.integer a⟩ : KeyHash) ≤ ⟨Hash.integer b⟩ ↔ a ≤ b := by
  refine ⟨fun h => ?_, integer_le ha hb⟩
  by_contra hle
  have htake := le_antisymm ((integer_le_iff ha hb).1 h) (take_le_take (not_le.1 hle).le 8)
  exact hle (hab htake).le

end Integer

end Turbopump
