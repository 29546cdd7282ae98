import Mathlib

/-! Byte strings in the place of `std::string`, and the conversions between C++ integer types. -/

namespace Turbopump

abbrev Bytes := List UInt8

instance byteLinearOrder : LinearOrder UInt8 where
  le_refl := UInt8.le_refl
  le_trans _ _ _ := UInt8.le_trans
  le_antisymm _ _ := UInt8.le_antisymm
  le_total := UInt8.le_total
  lt_iff_le_not_ge a b := by
    simp only [UInt8.lt_iff_toNat_lt, UInt8.le_iff_toNat_le]
    omega
  toDecidableLE := inferInstance

-- a constant of its own, so that deciding membership in a list of byte strings abstracts no proof
instance bytesLawfulBEq : LawfulBEq Bytes := inferInstance

def ascii (s : String) : Bytes := s.toList.map Char.toUInt8

def htons (n : ℕ) : Bytes := [UInt8.ofNat (n % 65536 / 256), UInt8.ofNat (n % 256)]

def ntohs (hi lo : UInt8) : ℕ := hi.toNat * 256 + lo.toNat

def uadd (a b : ℕ) : ℕ := (a + b) % 4294967296

def usub (a b : ℕ) : ℕ := (a + 4294967296 - b) % 4294967296

def toUnsigned (n : ℤ) : ℕ := (n % 4294967296).toNat

def toInt (n : ℤ) : ℤ := (n + 2 ^ 31) % 2 ^ 32 - 2 ^ 31

lemma toInt_of_lt {n : ℕ} (h : n < 2147483648) : toInt n = n := by
  simp only [toInt]
  omega

@[simp] lemma htons_length (n : ℕ) : (htons n).length = 2 := rfl

lemma ntohs_lt (hi lo : UInt8) : ntohs hi lo < 65536 := by
  have := hi.toNat_lt
  have := lo.toNat_lt
  simp only [ntohs]
  omega

lemma ntohs_htons (n : ℕ) :
    ntohs (UInt8.ofNat (n % 65536 / 256)) (UInt8.ofNat (n % 256)) = n % 65536 := by
  simp only [ntohs, UInt8.toNat_ofNat']
  omega

end Turbopump
