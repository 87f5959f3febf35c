import Mlonmcu.McEliece.Sorts

/-! The masks of `crypto_uint16.h`, `crypto_uint32.h`, `crypto_uint64.h` and `crypto_int16.h`, which
compare two words without a branch.  The functions for the widths are the same. -/

namespace Mlonmcu.McEliece

section

variable {w : Nat}

def negativeMask (x : BitVec w) : BitVec w := x.sshiftRight (w - 1)

def nonzeroMask (x : BitVec w) : BitVec w := negativeMask x ||| negativeMask (-x)

def zeroMask (x : BitVec w) : BitVec w := ~~~nonzeroMask x

def unequalMask (x y : BitVec w) : BitVec w :=
  let xy := x ^^^ y
  nonzeroMask xy

def equalMask (x y : BitVec w) : BitVec w := ~~~unequalMask x y

/-- `smaller_mask` of the unsigned words. -/
def smallerMask (x y : BitVec w) : BitVec w :=
  let xy := x ^^^ y
  let z := x - y
  let z := z ^^^ (xy &&& (z ^^^ x ^^^ 1#w <<< (w - 1)))
  negativeMask z

/-- A mask of ones or of zeros. -/
def maskOf (w : Nat) (p : Bool) : BitVec w := if p then BitVec.allOnes w else 0#w

theorem negativeMask_eq (x : BitVec w) : negativeMask x = maskOf w x.msb := sshiftRight_eq x

theorem not_maskOf (p : Bool) : ~~~maskOf w p = maskOf w !p := by
  cases p <;> simp [maskOf]

theorem maskOf_eq_zero (p : Bool) : maskOf (w + 1) p = 0 ↔ p = false := by
  cases p with
  | false => simp [maskOf]
  | true =>
    have hpow := Nat.two_pow_pos w
    simp only [maskOf, if_true, reduceCtorEq, iff_false]
    intro h
    have hval := congrArg BitVec.toNat h
    rw [BitVec.toNat_allOnes, Nat.pow_succ] at hval
    simp only [BitVec.ofNat_eq_ofNat, BitVec.toNat_ofNat, Nat.zero_mod] at hval
    omega

theorem nonzeroMask_eq (x : BitVec (w + 1)) : nonzeroMask x = maskOf (w + 1) (x ≠ 0) := by
  have hsign : (x.msb || (-x).msb) = decide (x ≠ 0) := by
    have hlt := x.isLt
    have hzero : x = 0 ↔ x.toNat = 0 := by simp [← BitVec.toNat_inj]
    simp only [BitVec.msb_eq_decide, BitVec.toNat_neg, Nat.add_sub_cancel, ne_eq, hzero]
    rw [Nat.pow_succ] at hlt ⊢
    rcases Nat.eq_zero_or_pos x.toNat with h | h
    · simp [h]
    · rw [Nat.mod_eq_of_lt (by omega), ← Bool.decide_or]
      exact decide_eq_decide.mpr (by omega)
  rw [nonzeroMask, negativeMask_eq, negativeMask_eq, ← hsign]
  cases x.msb <;> cases (-x).msb <;> simp [maskOf]

theorem zeroMask_eq (x : BitVec (w + 1)) : zeroMask x = maskOf (w + 1) (x = 0) := by
  rw [zeroMask, nonzeroMask_eq, not_maskOf]
  simp

theorem equalMask_eq (x y : BitVec (w + 1)) : equalMask x y = maskOf (w + 1) (x = y) := by
  rw [equalMask, unequalMask, nonzeroMask_eq, not_maskOf]
  simp

theorem smallerMask_eq (x y : BitVec (w + 1)) :
    smallerMask x y = maskOf (w + 1) (x.toNat < y.toNat) := by
  have hone : (1#(w + 1) <<< w).msb = true := by
    simp [BitVec.msb_eq_getLsbD_last]
  have hx := x.isLt
  have hy := y.isLt
  have hsub : (x - y).msb = decide (2 ^ w ≤ (x - y).toNat) := BitVec.msb_eq_decide _
  have hxm : x.msb = decide (2 ^ w ≤ x.toNat) := BitVec.msb_eq_decide _
  have hym : y.msb = decide (2 ^ w ≤ y.toNat) := BitVec.msb_eq_decide _
  have hdiff : (x - y).toNat =
      if y.toNat ≤ x.toNat then x.toNat - y.toNat else 2 ^ (w + 1) - y.toNat + x.toNat := by
    rw [BitVec.toNat_sub]
    split
    · rw [Nat.mod_eq_sub_mod (by omega), Nat.mod_eq_of_lt (by omega)]
      omega
    · exact Nat.mod_eq_of_lt (by omega)
  rw [smallerMask]
  simp only [Nat.add_sub_cancel]
  rw [negativeMask_eq]
  congr 1
  rw [BitVec.msb_xor, BitVec.msb_and, BitVec.msb_xor, BitVec.msb_xor, BitVec.msb_xor, hone, hsub,
    hxm, hym, hdiff]
  rw [Nat.pow_succ] at hx hy ⊢
  by_cases h : y.toNat ≤ x.toNat <;> by_cases hhx : 2 ^ w ≤ x.toNat <;>
    by_cases hhy : 2 ^ w ≤ y.toNat <;> simp [h, hhx, hhy] <;> omega

end

end Mlonmcu.McEliece
