import Mlonmcu.CLib.Stream
import Mlonmcu.CLib.Decimal
import Mlonmcu.CLib.Prog
import Mathlib.Algebra.Order.BigOperators.GroupWithZero.List
import Mathlib.Algebra.Order.Ring.Nat

/-! The data configuration of `mlifio.h` and the size of a sample, which `mlifio_to_file` computes
in an `int` and the other functions in a `size_t`. -/

namespace Mlonmcu.Mlifio

open CLib

inductive MlifIoStatus
  | success
  | error
  deriving DecidableEq, Repr

inductive MlifDatatype
  | int8
  | int16
  | int32
  | uint8
  | uint16
  | uint32
  | float
  | raw
  deriving DecidableEq, Repr

inductive MlifDataOrder
  | cOrder
  | fortranOrder
  deriving DecidableEq, Repr

/-- The file modes.  An `other` value reaches the last branch of the functions. -/
inductive MlifFileMode
  | npy
  | bin
  | other
  deriving DecidableEq, Repr

/-- The console modes.  An `other` value reaches the last branch of the functions. -/
inductive MlifStdioMode
  | bin
  | plain
  | other
  deriving DecidableEq, Repr

/-- `mlif_data_config`, with the `ndim` extents at `shape` as a list. -/
structure MlifDataConfig where
  nbatch : UInt64
  nsample : UInt64
  shape : List UInt64
  row : UInt64
  col : UInt64
  dtype : MlifDatatype
  order : MlifDataOrder
  deriving DecidableEq, Repr

namespace MlifDatatype

/-- The bytes of an element, from the `switch` on the type that each function repeats. -/
def size : MlifDatatype → Nat
  | int8 => 1
  | int16 => 2
  | int32 => 4
  | uint8 => 1
  | uint16 => 2
  | uint32 => 4
  | float => 4
  | raw => 1

/-- The letter of the type in an `.npy` header. -/
def type : MlifDatatype → UInt8
  | int8 | int16 | int32 => 105
  | uint8 | uint16 | uint32 => 117
  | float => 102
  | raw => 86

theorem size_pos (t : MlifDatatype) : 0 < t.size := by cases t <;> decide

theorem size_le (t : MlifDatatype) : t.size ≤ 4 := by cases t <;> decide

end MlifDatatype

/-- The bytes of a sample, exactly. -/
def sampleBytes (t : MlifDatatype) (shape : List UInt64) : Nat :=
  t.size * (shape.map UInt64.toNat).prod

/-- The bytes of a sample as a `size_t`. -/
def sampleSize (t : MlifDatatype) (shape : List UInt64) : UInt64 :=
  shape.foldl (fun size n => size * n) (UInt64.ofNat t.size)

/-- The bytes of a sample as the `int` of `mlifio_to_file`, whose products are of type `size_t`. -/
def sampleSizeInt (t : MlifDatatype) (shape : List UInt64) : Int32 :=
  shape.foldl (fun size n => intOfSize (sizeOfInt size * n)) (Int32.ofNat t.size)

theorem foldl_mul_toNat (shape : List UInt64) (size : UInt64) :
    (shape.foldl (fun size n => size * n) size).toNat =
      size.toNat * (shape.map UInt64.toNat).prod % 2 ^ 64 := by
  induction shape generalizing size with
  | nil => simp [Nat.mod_eq_of_lt size.toNat_lt]
  | cons n shape ih =>
    rw [List.foldl_cons, ih, UInt64.toNat_mul, List.map_cons, List.prod_cons, Nat.mod_mul_mod,
      Nat.mul_assoc]

theorem sampleSize_toNat (t : MlifDatatype) (shape : List UInt64) :
    (sampleSize t shape).toNat = sampleBytes t shape % 2 ^ 64 := by
  have h := t.size_le
  have ht : (UInt64.ofNat t.size).toNat = t.size := by
    rw [UInt64.toNat_ofNat', Nat.mod_eq_of_lt (by omega)]
  rw [sampleSize, foldl_mul_toNat, ht, sampleBytes]

theorem sampleSize_of_lt {t : MlifDatatype} {shape : List UInt64}
    (h : sampleBytes t shape < 2 ^ 64) : (sampleSize t shape).toNat = sampleBytes t shape := by
  rw [sampleSize_toNat, Nat.mod_eq_of_lt h]

/-- The conversions between `int` and `size_t` keep the low 32 bits of a product. -/
theorem mul_intOfSize (size : Int32) (n : UInt64) :
    (intOfSize (sizeOfInt size * n)).toInt = (size.toInt * n.toNat).bmod (2 ^ 32) := by
  have low : (size.toInt % 2 ^ 64 * n.toNat % 2 ^ 64) % 2 ^ 32 = size.toInt * n.toNat % 2 ^ 32 := by
    rw [Int.emod_emod_of_dvd _ (by decide), Int.mul_emod, Int.emod_emod_of_dvd _ (by decide),
      ← Int.mul_emod]
  have hmul : (((sizeOfInt size * n).toNat : Nat) : Int) =
      size.toInt % 2 ^ 64 * n.toNat % 2 ^ 64 := by
    rw [UInt64.toNat_mul, ← sizeOfInt_toNat]
    norm_cast
  rw [intOfSize_toInt, hmul, ← Int.emod_bmod (size.toInt * n.toNat) (2 ^ 32), ← Int.emod_bmod]
  exact congrArg (Int.bmod · (2 ^ 32)) low

theorem foldl_mul_toInt (shape : List UInt64) (size : Int32) :
    (shape.foldl (fun size n => intOfSize (sizeOfInt size * n)) size).toInt =
      (size.toInt * ((shape.map UInt64.toNat).prod : Nat)).bmod (2 ^ 32) := by
  induction shape generalizing size with
  | nil => simp
  | cons n shape ih =>
    rw [List.foldl_cons, ih, mul_intOfSize, List.map_cons, List.prod_cons, Int.bmod_mul_bmod,
      Nat.cast_mul, Int.mul_assoc]

theorem sampleSizeInt_toInt (t : MlifDatatype) (shape : List UInt64) :
    (sampleSizeInt t shape).toInt = (sampleBytes t shape : Int).bmod (2 ^ 32) := by
  have h := t.size_le
  rw [sampleSizeInt, foldl_mul_toInt, Int32.toInt_ofNat_of_lt (by omega), sampleBytes,
    Nat.cast_mul]

theorem sampleSizeInt_of_lt {t : MlifDatatype} {shape : List UInt64}
    (h : sampleBytes t shape < 2 ^ 31) :
    (sizeOfInt (sampleSizeInt t shape)).toNat = sampleBytes t shape := by
  have hi : (sampleSizeInt t shape).toInt = sampleBytes t shape := by
    rw [sampleSizeInt_toInt, Int.bmod_def]
    omega
  rw [sizeOfInt_of_nonneg (by omega), hi, Int.toNat_natCast]

theorem sampleBytes_pos {t : MlifDatatype} {shape : List UInt64} (h : ∀ n ∈ shape, 0 < n) :
    0 < sampleBytes t shape := by
  apply Nat.mul_pos t.size_pos
  apply List.prod_pos
  intro n hn
  obtain ⟨m, hm, rfl⟩ := List.mem_map.mp hn
  exact UInt64.lt_iff_toNat_lt.mp (h m hm)

end Mlonmcu.Mlifio
