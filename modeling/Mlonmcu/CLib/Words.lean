import Mathlib.Data.UInt

/-! The integer conversions of C on a platform with 16-bit `short`, 32-bit `int`, and 64-bit `long`
and `size_t`, where a conversion to a narrower type keeps the low bits.  A `char` is its byte;
`charSigned` says whether its value is signed. -/

namespace CLib

def sizeOfInt (x : Int32) : UInt64 := x.toInt64.toUInt64

def intOfSize (x : UInt64) : Int32 := x.toUInt32.toInt32

def intOfChar (charSigned : Bool) (c : UInt8) : Int32 :=
  if charSigned then c.toInt8.toInt32 else c.toUInt32.toInt32

def charOfInt (x : Int32) : UInt8 := x.toInt8.toUInt8

/-- The value of a `char`. -/
def charValue (charSigned : Bool) (c : UInt8) : Int :=
  if charSigned = true ∧ 128 ≤ c.toNat then c.toNat - 256 else c.toNat

theorem toInt_toInt64 (x : UInt64) : x.toInt64.toInt = (x.toNat : Int).bmod (2 ^ 64) := by
  rw [← Int64.toInt_toBitVec, UInt64.toBitVec_toInt64, BitVec.toInt_eq_toNat_bmod,
    UInt64.toNat_toBitVec]

theorem toInt_toInt32 (x : UInt32) : x.toInt32.toInt = (x.toNat : Int).bmod (2 ^ 32) := by
  rw [← Int32.toInt_toBitVec, UInt32.toBitVec_toInt32, BitVec.toInt_eq_toNat_bmod,
    UInt32.toNat_toBitVec]

theorem toInt_toInt8 (x : UInt8) : x.toInt8.toInt = (x.toNat : Int).bmod (2 ^ 8) := by
  rw [← Int8.toInt_toBitVec, UInt8.toBitVec_toInt8, BitVec.toInt_eq_toNat_bmod,
    UInt8.toNat_toBitVec]

theorem toNat_toUInt64 (x : Int64) : (x.toUInt64.toNat : Int) = x.toInt % 2 ^ 64 := by
  have h := toInt_toInt64 x.toUInt64
  rw [Int64.toInt64_toUInt64] at h
  have hlt := x.toUInt64.toNat_lt
  rw [h, Int.bmod_def]
  omega

theorem toNat_toUInt8 (x : Int8) : (x.toUInt8.toNat : Int) = x.toInt % 2 ^ 8 := by
  have h := toInt_toInt8 x.toUInt8
  rw [Int8.toInt8_toUInt8] at h
  have hlt := x.toUInt8.toNat_lt
  rw [h, Int.bmod_def]
  omega

theorem sizeOfInt_toNat (x : Int32) : ((sizeOfInt x).toNat : Int) = x.toInt % 2 ^ 64 := by
  rw [sizeOfInt, toNat_toUInt64, Int32.toInt_toInt64]

theorem sizeOfInt_of_nonneg {x : Int32} (h : 0 ≤ x.toInt) :
    (sizeOfInt x).toNat = x.toInt.toNat := by
  have hx := sizeOfInt_toNat x
  have hlt := x.toInt_lt
  omega

theorem intOfSize_toInt (x : UInt64) : (intOfSize x).toInt = (x.toNat : Int).bmod (2 ^ 32) := by
  rw [intOfSize, toInt_toInt32, UInt64.toNat_toUInt32]
  push_cast
  exact Int.emod_bmod _ _

theorem intOfChar_toInt (charSigned : Bool) (c : UInt8) :
    (intOfChar charSigned c).toInt = charValue charSigned c := by
  have hc := c.toNat_lt
  cases charSigned
  · simp only [intOfChar, charValue, Bool.false_eq_true, ↓reduceIte, false_and, toInt_toInt32,
      UInt8.toNat_toUInt32]
    rw [Int.bmod_def]
    omega
  · simp only [intOfChar, charValue, ↓reduceIte, true_and, Int8.toInt_toInt32, toInt_toInt8]
    rw [Int.bmod_def]
    split <;> split <;> omega

theorem charOfInt_ofNat (c : UInt8) : charOfInt (Int32.ofNat c.toNat) = c := by
  apply UInt8.toNat_inj.mp
  have hc := c.toNat_lt
  have h := toNat_toUInt8 (Int32.ofNat c.toNat).toInt8
  rw [Int32.toInt_toInt8, Int32.toInt_ofNat_of_lt (by omega), Int.bmod_def] at h
  rw [charOfInt]
  omega

/-- A `char` is an ASCII character whether or not its value is signed. -/
theorem intOfChar_eq_iff (charSigned : Bool) (c d : UInt8) (hd : d.toNat < 128) :
    intOfChar charSigned c = Int32.ofNat d.toNat ↔ c = d := by
  have hc := c.toNat_lt
  rw [← Int32.toInt_inj, intOfChar_toInt, Int32.toInt_ofNat_of_lt (by omega), ← UInt8.toNat_inj,
    charValue]
  split <;> omega

/-- A number of 64 bits is made of its two words. -/
theorem join_halves (n : UInt64) :
    (n >>> 32).toUInt32.toUInt64 <<< 32 ||| n.toUInt32.toUInt64 = n := by
  have hlt := n.toNat_lt
  apply UInt64.toNat_inj.mp
  have hhigh : ((n >>> 32).toUInt32.toUInt64 <<< 32).toNat = (n.toNat / 2 ^ 32) <<< 32 := by
    simp [UInt64.toNat_shiftLeft, Nat.shiftRight_eq_div_pow, Nat.shiftLeft_eq]
    omega
  have hlow : n.toUInt32.toUInt64.toNat = n.toNat % 2 ^ 32 := by simp
  rw [UInt64.toNat_or, hhigh, hlow,
    ← Nat.shiftLeft_add_eq_or_of_lt (Nat.mod_lt _ (by decide)), Nat.shiftLeft_eq]
  omega

end CLib
