import Mlonmcu.Mlifio.Reader

/-! When the last `fread` of `mlifio_from_file` loads a given region of the file. -/

namespace Mlonmcu.Mlifio

open CLib

/-- A call that took `s` to `s'` loaded exactly the region `r` of the file `bytes`. -/
structure Loads (bytes : Bytes) (r : Region) (s s' : Loading) : Prop where
  count : s'.loaded.count = r.count
  start : 0 < r.count → s'.loaded.start = r.start
  stored : ∀ i < r.count, bytes[r.start + i]? = some (s'.data i)
  frame : ∀ i, r.count ≤ i → s'.data i = s.data i

def afterFread (fp : Stream) (n : Nat) (config : MlifDataConfig) (s : Loading) : Loading where
  config := config
  data := s.data.store (fp.fread n).1
  loaded := ⟨fp.pos, (fp.fread n).1.length⟩

theorem fread_getElem? (fp : Stream) {n i : Nat} (h : i < (fp.fread n).1.length) :
    fp.bytes[fp.pos + i]? = some (fp.fread n).1[i] := by
  simp only [Stream.fread, Stream.rest, List.length_take, List.length_drop] at h ⊢
  rw [List.getElem_take, List.getElem_drop, List.getElem?_eq_getElem (by omega)]

theorem loads_afterFread_iff {fp : Stream} {n : Nat} {config : MlifDataConfig} {s : Loading}
    {r : Region} : Loads fp.bytes r s (afterFread fp n config s) ↔
      (fp.fread n).1.length = r.count ∧ (0 < r.count → fp.pos = r.start) := by
  constructor
  · intro h
    exact ⟨h.count, h.start⟩
  · rintro ⟨hcount, hstart⟩
    refine ⟨hcount, hstart, fun i hi => ?_, fun i hi => ?_⟩
    · have hlt : i < (fp.fread n).1.length := hcount ▸ hi
      rw [← hstart (by omega), fread_getElem? fp hlt]
      exact congrArg some (Memory.store_of_lt _ hlt).symm
    · exact Memory.store_of_le _ (hcount ▸ hi)

theorem length_fread (fp : Stream) (n : Nat) :
    (fp.fread n).1.length = min n (fp.bytes.length - fp.pos) := by
  simp [Stream.fread, Stream.rest]

/-- A nonempty region is loaded by a read that starts there, asks for its length, and stays in the
file.  A read that asks for the low 64 bits of the length does so only when they are all of it. -/
theorem loads_afterFread_mod_iff (fp : Stream) (config : MlifDataConfig) (s : Loading) {r : Region}
    (hr : 0 < r.count) : Loads fp.bytes r s (afterFread fp (r.count % 2 ^ 64) config s) ↔
      r.count < 2 ^ 64 ∧ fp.pos = r.start ∧ r.start + r.count ≤ fp.bytes.length := by
  rw [loads_afterFread_iff, length_fread]
  have hmod := Nat.mod_lt r.count (show 0 < 2 ^ 64 by decide)
  constructor
  · rintro ⟨hlen, hpos⟩
    have := hpos hr
    omega
  · rintro ⟨hlt, hpos, hin⟩
    rw [Nat.mod_eq_of_lt hlt]
    omega

theorem loads_afterFread_zero (fp : Stream) (config : MlifDataConfig) (s : Loading) {r : Region}
    (hr : r.count = 0) : Loads fp.bytes r s (afterFread fp 0 config s) := by
  rw [loads_afterFread_iff, length_fread]
  omega

theorem seekTarget (offset : Int16) (idx size : UInt64) :
    (sizeOfInt (offset.toInt32 + 10) + idx * size).toInt64.toInt =
      (offset.toInt + 10 + idx.toNat * size.toNat : Int).bmod (2 ^ 64) := by
  have hlow := offset.le_toInt
  have hhigh := offset.toInt_lt
  have hoffset : (offset.toInt32 + 10).toInt = offset.toInt + 10 := by
    rw [Int32.toInt_add, Int16.toInt_toInt32, show (10 : Int32).toInt = 10 from rfl, Int.bmod_def]
    omega
  have low : ((sizeOfInt (offset.toInt32 + 10) + idx * size).toNat : Int) % 2 ^ 64 =
      (offset.toInt + 10 + idx.toNat * size.toNat) % 2 ^ 64 := by
    have hsize := sizeOfInt_toNat (offset.toInt32 + 10)
    rw [hoffset] at hsize
    rw [UInt64.toNat_add, UInt64.toNat_mul, ← Nat.cast_mul]
    omega
  rw [toInt_toInt64, ← Int.emod_bmod (offset.toInt + 10 + idx.toNat * size.toNat) (2 ^ 64),
    ← Int.emod_bmod]
  exact congrArg (Int.bmod · (2 ^ 64)) low

theorem headerOffset_toInt (charSigned : Bool) (lo hi : UInt8) :
    (headerOffset charSigned [lo, hi]).toInt =
      (charValue charSigned lo + 256 * charValue charSigned hi).bmod (2 ^ 16) := by
  have hlo := lo.toNat_lt
  have hhi := hi.toNat_lt
  have hmul : (256 * intOfChar charSigned hi).toInt = 256 * charValue charSigned hi := by
    rw [Int32.toInt_mul, intOfChar_toInt, show (256 : Int32).toInt = 256 from rfl, Int.bmod_def,
      charValue]
    split <;> omega
  rw [headerOffset, Int32.toInt_toInt16]
  simp only [List.getD_cons_zero, List.getD_cons_succ]
  rw [Int32.toInt_add, hmul, intOfChar_toInt]
  congr 1
  rw [Int.bmod_def, charValue, charValue]
  split <;> split <;> omega

/-- The decoded header length is the 16-bit length exactly when it is below `2^15` and, with a
signed `char`, its low byte is below 128. -/
theorem headerOffset_eq_iff (charSigned : Bool) (lo hi : UInt8) :
    (headerOffset charSigned [lo, hi]).toInt = (lo.toNat + 256 * hi.toNat : Nat) ↔
      hi.toNat < 128 ∧ (charSigned = true → lo.toNat < 128) := by
  have hlo := lo.toNat_lt
  have hhi := hi.toNat_lt
  rw [headerOffset_toInt, Int.bmod_def]
  cases charSigned <;> simp only [charValue, Bool.false_eq_true, false_and, true_and, ↓reduceIte,
    false_implies, true_implies, and_true] <;> (repeat' split) <;> omega

end Mlonmcu.Mlifio
