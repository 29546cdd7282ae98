import Turbopump.Hashing.KeyOrder
import Turbopump.Lib.Blocks

/-! What a node answers to a peer's point of a digest tree, and which keys it asks for. -/

namespace Turbopump

structure MerklePoint where
  key : UInt64
  keybits : ℕ
  hash : UInt64
  deriving DecidableEq

def htobe64 (n : UInt64) : UInt64 := UInt64.ofNat (swapBytes n.toNat)

def be64toh (n : UInt64) : UInt64 := UInt64.ofNat (swapBytes n.toNat)

structure KeyRange where
  first : UInt64
  last : UInt64
  deriving DecidableEq

def KeyRange.fromLocation (location : MerklePoint) : KeyRange :=
  if 64 ≤ location.keybits then ⟨location.key, location.key⟩
  else if location.keybits = 0 then ⟨0, 0xffffffffffffffff⟩
  else
    let shift := UInt64.ofNat (64 - location.keybits)
    let first := (htobe64 location.key >>> shift) <<< shift
    let last := first ^^^ (0xffffffffffffffff >>> UInt64.ofNat location.keybits)
    ⟨be64toh first, be64toh last⟩

def KeyRange.Contains (r : KeyRange) (k : KeyHash) : Prop := ⟨r.first⟩ ≤ k ∧ k ≤ ⟨r.last⟩

inductive MerkleDiffResult where
  | noDifference
  | traverse (points : List MerklePoint)
  | needRange
  | needPartialRange (location : MerklePoint)
  | needExchange (location : MerklePoint)

inductive SkewMessage where
  | digestPing (points : List MerklePoint)
  | requestKeyRange (range : KeyRange)
  | pushKeyRange (range : KeyRange)
  | requestKey (key : UInt64)
  | pushKey (key : UInt64)
  deriving DecidableEq

namespace Synchronizer

def partialRange (point location : MerklePoint) : List KeyRange :=
  let outer := KeyRange.fromLocation point
  let inner := KeyRange.fromLocation location
  if outer.first > inner.first ∨ inner.first > outer.last ∨ (outer.first = inner.first ∧ outer.last = inner.last) then
    [outer]
  else
    (if outer.first < inner.first then [⟨outer.first, inner.first⟩] else []) ++
      if inner.last < outer.last then [⟨inner.last, outer.last⟩] else []

/-- What is sent to the peer. `null` is `MerklePoint::null()`, and `diff` and `empty` are those of the tree found. -/
def compare (null : MerklePoint) (empty : Bool) (diff : MerklePoint → MerkleDiffResult) (point : MerklePoint)
    (isSyncResponse : Bool) : List SkewMessage :=
  if point = null then if empty then [] else [.pushKeyRange ⟨0, 0xffffffffffffffff⟩]
  else match diff point with
    | .noDifference => []
    | .traverse points => [.digestPing (if isSyncResponse then points.dropLast else points)]
    | .needRange => [.requestKeyRange (.fromLocation point)]
    | .needPartialRange location => (partialRange point location).map .requestKeyRange
    | .needExchange location => [.requestKey location.key, .pushKey location.key]

end Synchronizer

namespace KeyRange

lemma big_be64toh (n : UInt64) : (⟨be64toh n⟩ : KeyHash).big = n.toNat := by
  rw [KeyHash.big, be64toh, UInt64.toNat_ofNat', Nat.mod_eq_of_lt (swapBytes_lt _), swapBytes_swapBytes n.toNat_lt]

lemma toNat_htobe64 (n : UInt64) : (htobe64 n).toNat = (⟨n⟩ : KeyHash).big := by
  rw [KeyHash.big, htobe64, UInt64.toNat_ofNat', Nat.mod_eq_of_lt (swapBytes_lt _)]

lemma toNat_shift {k : ℕ} (hk : k < 64) (x : UInt64) :
    ((x >>> UInt64.ofNat k) <<< UInt64.ofNat k).toNat = Block.first k x.toNat := by
  have hshift : (UInt64.ofNat k).toNat % 64 = k := by
    rw [UInt64.toNat_ofNat']
    omega
  have hle := Block.first_le k x.toNat
  have hlt := x.toNat_lt
  rw [UInt64.toNat_shiftLeft, UInt64.toNat_shiftRight, hshift, Nat.shiftLeft_eq, Nat.shiftRight_eq_div_pow]
  exact Nat.mod_eq_of_lt (hle.trans_lt hlt)

lemma mul_sub_one_div {a b : ℕ} (ha : 0 < a) (hb : 0 < b) : (a * b - 1) / b = a - 1 := by
  obtain ⟨c, rfl⟩ : ∃ c, a = c + 1 := ⟨a - 1, by omega⟩
  rw [Nat.div_eq_iff hb, Nat.add_mul, Nat.add_sub_cancel, one_mul]
  omega

lemma toNat_ones {k : ℕ} (hk : k < 64) :
    ((0xffffffffffffffff : UInt64) >>> UInt64.ofNat k).toNat = 2 ^ (64 - k) - 1 := by
  have hshift : (UInt64.ofNat k).toNat % 64 = k := by
    rw [UInt64.toNat_ofNat']
    omega
  rw [UInt64.toNat_shiftRight, hshift, Nat.shiftRight_eq_div_pow]
  have hpow : 2 ^ 64 = 2 ^ (64 - k) * 2 ^ k := by rw [← pow_add, Nat.sub_add_cancel hk.le]
  have hones : (0xffffffffffffffff : UInt64).toNat = 2 ^ (64 - k) * 2 ^ k - 1 := by
    rw [← hpow]
    rfl
  rw [hones, mul_sub_one_div (Nat.two_pow_pos _) (Nat.two_pow_pos _)]

lemma big_fromLocation (location : MerklePoint) :
    (⟨(fromLocation location).first⟩ : KeyHash).big =
        Block.first (64 - location.keybits) (⟨location.key⟩ : KeyHash).big ∧
      (⟨(fromLocation location).last⟩ : KeyHash).big =
        Block.last (64 - location.keybits) (⟨location.key⟩ : KeyHash).big := by
  by_cases hall : 64 ≤ location.keybits
  · rw [fromLocation, if_pos hall, Nat.sub_eq_zero_of_le hall, (Block.zero_bits _).1, (Block.zero_bits _).2]
    exact ⟨rfl, rfl⟩
  by_cases hnone : location.keybits = 0
  · have hzero : Block.first 64 (⟨location.key⟩ : KeyHash).big = 0 := by
      rw [Block.first, Nat.div_eq_of_lt (KeyHash.big_lt _), zero_mul]
    rw [fromLocation, if_neg hall, if_pos hnone, hnone, Nat.sub_zero, Block.last, hzero]
    exact ⟨by decide +kernel, by decide +kernel⟩
  · rw [fromLocation, if_neg hall, if_neg hnone]
    simp only [big_be64toh, UInt64.toNat_xor, toNat_shift (show 64 - location.keybits < 64 by omega), toNat_htobe64,
      toNat_ones (show location.keybits < 64 by omega), Block.last_eq_xor, and_self]

section Ranges

variable {outer inner : MerklePoint}

lemma contains_iff {k : KeyHash} : (fromLocation outer).Contains k ↔
    k.big / 2 ^ (64 - outer.keybits) = (⟨outer.key⟩ : KeyHash).big / 2 ^ (64 - outer.keybits) := by
  rw [Contains, KeyHash.le_iff_big, KeyHash.le_iff_big, (big_fromLocation outer).1, (big_fromLocation outer).2,
    Block.mem_iff]

lemma nested_or_apart (outer inner : MerklePoint) :
    (∀ k, (fromLocation outer).Contains k → (fromLocation inner).Contains k) ∨
    ((∀ k, (fromLocation inner).Contains k → (fromLocation outer).Contains k) ∧
      (fromLocation inner).last.toNat ≤ (fromLocation outer).last.toNat) ∨
    (⟨(fromLocation inner).last⟩ : KeyHash) < ⟨(fromLocation outer).first⟩ ∨
    (⟨(fromLocation outer).last⟩ : KeyHash) < ⟨(fromLocation inner).first⟩ := by
  have houter := big_fromLocation outer
  have hinner := big_fromLocation inner
  set m := (⟨inner.key⟩ : KeyHash).big
  set n := (⟨outer.key⟩ : KeyHash).big
  have hlt (location location' : MerklePoint) : (⟨(fromLocation location).last⟩ : KeyHash) <
      ⟨(fromLocation location').first⟩ ↔ Block.last (64 - location.keybits) (⟨location.key⟩ : KeyHash).big <
        Block.first (64 - location'.keybits) (⟨location'.key⟩ : KeyHash).big := by
    rw [KeyHash.lt_iff_big, (big_fromLocation location).2, (big_fromLocation location').1]
  rw [hlt, hlt]
  rcases le_total (64 - outer.keybits) (64 - inner.keybits) with hle | hle
  · by_cases hsame : n / 2 ^ (64 - inner.keybits) = m / 2 ^ (64 - inner.keybits)
    · refine .inl fun k hk => ?_
      rw [contains_iff] at hk ⊢
      exact (Block.div_of_le hle hk).trans hsame
    · exact .inr (.inr (Block.apart hle hsame).symm)
  · by_cases hsame : m / 2 ^ (64 - outer.keybits) = n / 2 ^ (64 - outer.keybits)
    · refine .inr (.inl ⟨fun k hk => ?_, ?_⟩)
      · rw [contains_iff] at hk ⊢
        exact (Block.div_of_le hle hk).trans hsame
      · -- the last key of the outer range has all bits of the last key of the inner one
        have hswap := swapBytes_le fun j hj => Block.testBit_last_of_le hle hsame (j := j) hj
        rw [← houter.2, ← hinner.2] at hswap
        rwa [KeyHash.big, KeyHash.big, swapBytes_swapBytes (UInt64.toNat_lt _),
          swapBytes_swapBytes (UInt64.toNat_lt _)] at hswap
    · exact .inr (.inr (Block.apart hle hsame))

end Ranges

lemma contains_iff_bit (location : MerklePoint) (k : KeyHash) : (fromLocation location).Contains k ↔
    ∀ i < min location.keybits 64, k.bit i = (⟨location.key⟩ : KeyHash).bit i := by
  rw [contains_iff, Block.div_eq_iff_testBit]
  constructor
  · intro h i hi
    rw [KeyHash.bit_eq _ (by omega), KeyHash.bit_eq _ (by omega), h (63 - i) (by omega)]
  · intro h j hj
    rcases lt_or_ge j 64 with hlt | hge
    · have hbit := h (63 - j) (by omega)
      rwa [KeyHash.bit_eq _ (by omega), KeyHash.bit_eq _ (by omega), show 63 - (63 - j) = j by omega] at hbit
    · -- above the 64 bits of a key there are none
      have hnone (key : KeyHash) : key.big.testBit j = false :=
        Nat.testBit_lt_two_pow (key.big_lt.trans_le (Nat.pow_le_pow_right two_pos hge))
      rw [hnone, hnone]

theorem holds_prefix (location location' : MerklePoint) :
    (∀ k : KeyHash, (fromLocation location).Contains k ↔
      ∀ i < min location.keybits 64, k.bit i = (⟨location.key⟩ : KeyHash).bit i) ∧
    ((∀ k, (fromLocation location).Contains k → (fromLocation location').Contains k) ∨
      (∀ k, (fromLocation location').Contains k → (fromLocation location).Contains k) ∨
      ∀ k, ¬ ((fromLocation location).Contains k ∧ (fromLocation location').Contains k)) := by
  refine ⟨contains_iff_bit location, ?_⟩
  rcases nested_or_apart location location' with hin | ⟨hin, -⟩ | hbefore | hafter
  · exact .inl hin
  · exact .inr (.inl hin)
  · exact .inr (.inr fun k hk => absurd (hk.1.1.trans hk.2.2) (not_le.2 hbefore))
  · exact .inr (.inr fun k hk => absurd (hk.2.1.trans hk.1.2) (not_le.2 hafter))

end KeyRange

namespace Synchronizer

def Covers (messages : List SkewMessage) (point location : MerklePoint) : Prop :=
  ∀ k, (KeyRange.fromLocation point).Contains k → ¬ (KeyRange.fromLocation location).Contains k →
    ∃ range, .requestKeyRange range ∈ messages ∧ range.Contains k

/-- The location's range is before the point's in the order of the keys, while the comparisons of their swapped bounds
hold as for a range inside. -/
structure Missed (point location : MerklePoint) : Prop where
  before : (⟨(KeyRange.fromLocation location).last⟩ : KeyHash) < ⟨(KeyRange.fromLocation point).first⟩
  first : (KeyRange.fromLocation point).first ≤ (KeyRange.fromLocation location).first
  inside : (KeyRange.fromLocation location).first ≤ (KeyRange.fromLocation point).last
  last : (KeyRange.fromLocation point).last ≤ (KeyRange.fromLocation location).last

section Cover

variable {point location : MerklePoint}

lemma mem_partialRange {range : KeyRange} : range ∈ partialRange point location ↔
    if (KeyRange.fromLocation point).first > (KeyRange.fromLocation location).first ∨
        (KeyRange.fromLocation location).first > (KeyRange.fromLocation point).last ∨
        ((KeyRange.fromLocation point).first = (KeyRange.fromLocation location).first ∧
          (KeyRange.fromLocation point).last = (KeyRange.fromLocation location).last) then
      range = KeyRange.fromLocation point
    else
      ((KeyRange.fromLocation point).first < (KeyRange.fromLocation location).first ∧
          range = ⟨(KeyRange.fromLocation point).first, (KeyRange.fromLocation location).first⟩) ∨
        ((KeyRange.fromLocation location).last < (KeyRange.fromLocation point).last ∧
          range = ⟨(KeyRange.fromLocation location).last, (KeyRange.fromLocation point).last⟩) := by
  simp only [partialRange]
  split_ifs <;> simp_all

lemma lt_of_le_of_ne' {x y : UInt64} (h : x ≤ y) (hne : x ≠ y) : x < y := by
  rw [UInt64.le_iff_toNat_le] at h
  rw [UInt64.lt_iff_toNat_lt]
  rw [ne_eq, ← UInt64.toNat_inj] at hne
  omega

lemma covers_of_not_missed (h : ¬ Missed point location) {k : KeyHash} (hk : (KeyRange.fromLocation point).Contains k)
    (hnot : ¬ (KeyRange.fromLocation location).Contains k) : ∃ range ∈ partialRange point location,
      range.Contains k := by
  have hmem {range : KeyRange} := @mem_partialRange point location range
  have hmissed (hbefore : _) (hfirst : _) (hinside : _) (hlast : _) := h ⟨hbefore, hfirst, hinside, hlast⟩
  have hcases := KeyRange.nested_or_apart point location
  revert hmem hmissed hcases hk hnot
  generalize KeyRange.fromLocation point = outer
  generalize KeyRange.fromLocation location = inner
  intro hk hnot hmem hmissed hcases
  by_cases hwhole : outer.first > inner.first ∨ inner.first > outer.last ∨
      (outer.first = inner.first ∧ outer.last = inner.last)
  · exact ⟨outer, hmem.2 (by rw [if_pos hwhole]), hk⟩
  simp only [if_neg hwhole] at hmem
  have hfirst : outer.first ≤ inner.first := UInt64.not_lt.1 fun hlt => hwhole (.inl hlt)
  have hinside : inner.first ≤ outer.last := UInt64.not_lt.1 fun hlt => hwhole (.inr (.inl hlt))
  -- what is below the inner range, and what is above it
  have hlow (hle : k ≤ ⟨inner.first⟩) (hne : outer.first ≠ inner.first) :
      ∃ range ∈ partialRange point location, range.Contains k :=
    ⟨⟨outer.first, inner.first⟩, hmem.2 (.inl ⟨lt_of_le_of_ne' hfirst hne, rfl⟩), hk.1, hle⟩
  have hhigh (hle : ⟨inner.last⟩ ≤ k) (hlt : inner.last < outer.last) :
      ∃ range ∈ partialRange point location, range.Contains k :=
    ⟨⟨inner.last, outer.last⟩, hmem.2 (.inr ⟨hlt, rfl⟩), hle, hk.2⟩
  rcases hcases with hin | ⟨-, hlast⟩ | hbefore | hafter
  · exact absurd (hin k hk) hnot
  · by_cases hbelow : (⟨inner.first⟩ : KeyHash) ≤ k
    · have habove : (⟨inner.last⟩ : KeyHash) < k := not_le.1 fun hle => hnot ⟨hbelow, hle⟩
      refine hhigh habove.le (lt_of_le_of_ne' (UInt64.le_iff_toNat_le.2 hlast) fun heq => ?_)
      rw [heq] at habove
      exact absurd hk.2 (not_le.2 habove)
    · refine hlow (not_le.1 hbelow).le fun heq => ?_
      rw [← heq] at hbelow
      exact hbelow hk.1
  · refine hhigh (hbefore.le.trans hk.1) (UInt64.not_le.1 fun hle => ?_)
    exact hmissed hbefore hfirst hinside hle
  · refine hlow (hk.2.trans hafter.le) fun heq => ?_
    rw [← heq] at hafter
    exact absurd (hk.1.trans hk.2) (not_le.2 hafter)

lemma not_covered_of_missed (h : Missed point location) :
    (KeyRange.fromLocation point).Contains ⟨(KeyRange.fromLocation point).first⟩ ∧
      ¬ (KeyRange.fromLocation location).Contains ⟨(KeyRange.fromLocation point).first⟩ ∧
      ∀ range ∈ partialRange point location, ¬ range.Contains ⟨(KeyRange.fromLocation point).first⟩ := by
  have hordered (location : MerklePoint) : (⟨(KeyRange.fromLocation location).first⟩ : KeyHash) ≤
      ⟨(KeyRange.fromLocation location).last⟩ := by
    rw [KeyHash.le_iff_big, (KeyRange.big_fromLocation location).1, (KeyRange.big_fromLocation location).2]
    exact Block.first_le_last _ _
  refine ⟨⟨le_rfl, hordered point⟩, fun hin => absurd hin.2 (not_le.2 h.before), fun range hrange hin => ?_⟩
  rw [mem_partialRange, if_neg] at hrange
  · rcases hrange with ⟨-, rfl⟩ | ⟨hlt, -⟩
    · exact absurd (hin.2.trans (hordered location)) (not_le.2 h.before)
    · exact UInt64.not_lt.2 h.last hlt
  · rintro (hgt | hgt | ⟨heq, -⟩)
    · exact UInt64.not_lt.2 h.first hgt
    · exact UInt64.not_lt.2 h.inside hgt
    · have hbefore := h.before
      rw [heq] at hbefore
      exact absurd (hordered location) (not_le.2 hbefore)

lemma covers_partialRange :
    Covers ((partialRange point location).map .requestKeyRange) point location ↔ ¬ Missed point location := by
  constructor
  · intro hcovers hmissed
    obtain ⟨hin, hnot, hnone⟩ := not_covered_of_missed hmissed
    obtain ⟨range, hrange, hcontains⟩ := hcovers _ hin hnot
    obtain ⟨range', hmem, heq⟩ := List.mem_map.1 hrange
    obtain rfl := SkewMessage.requestKeyRange.inj heq
    exact hnone _ hmem hcontains
  · intro hmissed k hk hnot
    obtain ⟨range, hmem, hcontains⟩ := covers_of_not_missed hmissed hk hnot
    exact ⟨range, List.mem_map_of_mem hmem, hcontains⟩

end Cover

theorem compare_covers_iff {null point location : MerklePoint} {empty : Bool} {diff : MerklePoint → MerkleDiffResult}
    (hpoint : point ≠ null) (hdiff : diff point = .needPartialRange location) (isSyncResponse : Bool) :
    Covers (compare null empty diff point isSyncResponse) point location ↔ ¬ Missed point location := by
  have hmessages : compare null empty diff point isSyncResponse =
    (partialRange point location).map .requestKeyRange := by
    simp only [compare, if_neg hpoint, hdiff]
  rw [hmessages]
  exact covers_partialRange

def early : MerklePoint := ⟨be64toh 0x0100000000000000, 63, 1⟩

def far : MerklePoint := ⟨be64toh 0x0001000000000000, 16, 2⟩

theorem compare_covers_iff_far : Covers (compare ⟨0, 0, 0⟩ false (fun _ => .needPartialRange early) far
    false) far early ↔
    ¬ Missed far early :=
  @compare_covers_iff ⟨0, 0, 0⟩ far early false (fun _ => .needPartialRange early) (by decide +kernel) rfl false

theorem not_covered_early :
    ¬ Covers (compare ⟨0, 0, 0⟩ false (fun _ => .needPartialRange far) early false) early far := by
  have hmissed : Missed early far := ⟨by decide +kernel, by decide +kernel, by decide +kernel, by decide +kernel⟩
  have hmessages : compare ⟨0, 0, 0⟩ false (fun _ => .needPartialRange far) early false =
      (partialRange early far).map .requestKeyRange := by
    simp only [compare, if_neg (show early ≠ ⟨0, 0, 0⟩ by decide +kernel)]
  rw [hmessages, covers_partialRange, not_not]
  exact hmissed

end Synchronizer

end Turbopump
