import Mathlib.Data.List.Basic
import Mathlib.Logic.Function.Iterate

/-! `crc.c`: the CRC of a message, by a division of one bit at a time and, with the table of the
remainders of all bytes, of one byte at a time. -/

namespace Mlonmcu.OpenAsip

/-- The parameters of a CRC standard in `crc.h`.  The type `crc` has `WIDTH` bits. -/
structure Standard (width : Nat) where
  polynomial : BitVec width
  initialRemainder : BitVec width
  finalXorValue : BitVec width
  reflectData : Bool
  reflectRemainder : Bool
  /-- `WIDTH` is a positive number of bytes. -/
  byte_le : 8 ≤ width

/-- The standard that `crc.h` selects. -/
def crcCcitt : Standard 16 := ⟨0x1021, 0xFFFF, 0x0000, false, false, by decide⟩

def crc16 : Standard 16 := ⟨0x8005, 0x0000, 0x0000, true, true, by decide⟩

/-- `CRC32`, where an `unsigned long` has 32 bits. -/
def crc32 : Standard 32 := ⟨0x04C11DB7, 0xFFFFFFFF, 0xFFFFFFFF, true, true, by decide⟩

/-- The low `nBits` bits the other way round. -/
def reflect (data : BitVec 32) (nBits : Nat) : BitVec 32 :=
  ((List.range nBits).foldl (fun (reflection, data) bit =>
    (if data &&& 1 ≠ 0 then reflection ||| 1 <<< (nBits - 1 - bit) else reflection, data >>> 1))
    (0, data)).1

namespace Standard

variable {w : Nat} (standard : Standard w)

/-- `REFLECT_DATA`. -/
def data (byte : BitVec 8) : BitVec 8 :=
  if standard.reflectData then (reflect (byte.setWidth 32) 8).setWidth 8 else byte

/-- The value that both functions return of the last remainder. -/
def result (remainder : BitVec w) : BitVec w :=
  (if standard.reflectRemainder then (reflect (remainder.setWidth 32) w).setWidth w
    else remainder) ^^^ standard.finalXorValue

def topBit (w : Nat) : BitVec w := 1#w <<< (w - 1)

/-- A bit of the modulo-2 division. -/
def divideBit (remainder : BitVec w) : BitVec w :=
  if remainder &&& topBit w ≠ 0 then remainder <<< 1 ^^^ standard.polynomial else remainder <<< 1

/-- The loop over the bits of a byte. -/
def divideByte (remainder : BitVec w) : BitVec w := standard.divideBit^[8] remainder

def crcSlow (message : List (BitVec 8)) : BitVec w :=
  standard.result (message.foldl (fun remainder byte =>
    standard.divideByte (remainder ^^^ (standard.data byte).setWidth w <<< (w - 8)))
    standard.initialRemainder)

/-- The table that `crcInit` stores in `crcTable`. -/
def crcInit : List (BitVec w) :=
  (List.range 256).map fun dividend => standard.divideByte (BitVec.ofNat w dividend <<< (w - 8))

def crcFast (crcTable : List (BitVec w)) (message : List (BitVec 8)) : BitVec w :=
  standard.result (message.foldl (fun remainder byte =>
    let data := standard.data byte ^^^ (remainder >>> (w - 8)).setWidth 8
    crcTable.getD data.toNat 0 ^^^ remainder <<< 8) standard.initialRemainder)

theorem divideBit_eq (x : BitVec w) : standard.divideBit x =
    if x.getLsbD (w - 1) then x <<< 1 ^^^ standard.polynomial else x <<< 1 := by
  have hwidth := standard.byte_le
  have htop : topBit w = BitVec.twoPow w (w - 1) := (BitVec.twoPow_eq w (w - 1)).symm
  have hne : BitVec.twoPow w (w - 1) ≠ 0 := fun h => by
    have hbit := congrArg (fun x : BitVec w => x.getLsbD (w - 1)) h
    simp only [BitVec.getLsbD_twoPow] at hbit
    simp at hbit
    omega
  rw [divideBit, htop, BitVec.and_twoPow]
  split <;> simp_all

/-- The division is linear. -/
theorem divideBit_xor (x y : BitVec w) :
    standard.divideBit (x ^^^ y) = standard.divideBit x ^^^ standard.divideBit y := by
  rw [divideBit_eq, divideBit_eq, divideBit_eq, BitVec.getLsbD_xor, BitVec.shiftLeft_xor_distrib]
  ext i hi
  cases x.getLsbD (w - 1) <;> cases y.getLsbD (w - 1) <;>
    simp only [Bool.xor_false, Bool.false_xor, Bool.xor_self, Bool.false_eq_true, if_true, if_false,
      BitVec.getElem_xor]
  · grind
  · grind
  · grind

theorem iterate_divideBit_xor (x y : BitVec w) (k : Nat) : standard.divideBit^[k] (x ^^^ y) =
    standard.divideBit^[k] x ^^^ standard.divideBit^[k] y := by
  induction k generalizing x y with
  | zero => rfl
  | succ k ih =>
    rw [Function.iterate_succ_apply, divideBit_xor, ih, ← Function.iterate_succ_apply,
      ← Function.iterate_succ_apply]

/-- As long as the top bits are clear, the division only shifts. -/
theorem iterate_divideBit_of_clear {k : Nat} (hk : k ≤ w) {x : BitVec w}
    (hx : ∀ i, w - k ≤ i → x.getLsbD i = false) : standard.divideBit^[k] x = x <<< k := by
  induction k generalizing x with
  | zero => rw [Function.iterate_zero_apply, BitVec.shiftLeft_zero]
  | succ k ih =>
    have hshift : standard.divideBit x = x <<< 1 := by
      rw [divideBit_eq, hx (w - 1) (by omega)]
      rfl
    rw [Function.iterate_succ_apply, hshift, ih (by omega) fun i hi => ?_, ← BitVec.shiftLeft_add,
      Nat.add_comm]
    rw [BitVec.getLsbD_shiftLeft, hx (i - 1) (by omega), Bool.and_false]

theorem getD_crcInit (data : BitVec 8) : standard.crcInit.getD data.toNat 0 =
    standard.divideByte (data.setWidth w <<< (w - 8)) := by
  have hdata : data.toNat < 256 := data.isLt
  rw [crcInit, List.getD_eq_getElem?_getD, List.getElem?_map, List.getElem?_range hdata]
  simp only [Option.map_some, Option.getD_some, BitVec.ofNat_toNat]

/-- The remainder with the next byte is what the table is read at, and the bits that the division
of a byte only shifts. -/
theorem remainder_xor (hwidth : 8 ≤ w) (x : BitVec w) (byte : BitVec 8) :
    x ^^^ byte.setWidth w <<< (w - 8) =
      (byte ^^^ (x >>> (w - 8)).setWidth 8).setWidth w <<< (w - 8) ^^^ x <<< 8 >>> 8 := by
  ext i hi
  simp only [BitVec.getElem_xor, BitVec.getElem_shiftLeft, BitVec.getElem_ushiftRight]
  grind

theorem divideByte_eq (x : BitVec w) (byte : BitVec 8) :
    standard.divideByte (x ^^^ byte.setWidth w <<< (w - 8)) =
      standard.crcInit.getD (byte ^^^ (x >>> (w - 8)).setWidth 8).toNat 0 ^^^ x <<< 8 := by
  have hwidth := standard.byte_le
  have hclear (i : Nat) (hi : w - 8 ≤ i) : (x <<< 8 >>> 8).getLsbD i = false := by
    rw [BitVec.getLsbD_ushiftRight]
    exact BitVec.getLsbD_of_ge _ _ (by omega)
  rw [remainder_xor hwidth, divideByte, iterate_divideBit_xor,
    standard.iterate_divideBit_of_clear hwidth hclear, getD_crcInit, divideByte]
  congr 1
  ext i hi
  simp only [BitVec.getElem_shiftLeft, BitVec.getElem_ushiftRight]
  grind

/-- With the table of `crcInit`, the division of a byte at a time is the division of a bit at a
time. -/
theorem crcFast_crcInit (message : List (BitVec 8)) :
    standard.crcFast standard.crcInit message = standard.crcSlow message := by
  rw [crcFast, crcSlow]
  refine congrArg _ (List.foldl_ext _ _ _ fun remainder byte _ => ?_)
  exact (standard.divideByte_eq remainder (standard.data byte)).symm

example : [crcCcitt, crc16].map (·.crcSlow ((List.range' 49 9).map (BitVec.ofNat 8))) =
    [0x29B1, 0xBB3D] ∧
      crc32.crcSlow ((List.range' 49 9).map (BitVec.ofNat 8)) = 0xCBF43926 := by
  decide +kernel

end Standard

end Mlonmcu.OpenAsip
