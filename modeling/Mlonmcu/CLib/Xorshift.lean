import Mathlib.Data.FinEnum

/-! Sums of a word of 64 bits with its own shifts lose nothing of the word. -/

namespace CLib

variable {x y z k : UInt64}

theorem eq_zero_of_shiftRight (hk : 0 < k.toNat % 64) (h : z = z >>> k) : z = 0 := by
  have hnat : z.toNat = z.toNat / 2 ^ (k.toNat % 64) := by
    conv_lhs => rw [h]
    rw [UInt64.toNat_shiftRight, Nat.shiftRight_eq_div_pow]
  by_contra hne
  have hpos : 0 < z.toNat := Nat.pos_of_ne_zero fun h0 => hne (UInt64.toNat_inj.mp h0)
  have hlt := Nat.div_lt_self hpos (Nat.one_lt_two_pow (Nat.pos_iff_ne_zero.mp hk))
  omega

theorem eq_zero_of_shiftLeft (hk : 0 < k.toNat % 64) (h : z = z <<< k) : z = 0 := by
  have hnat : z.toNat = z.toNat * 2 ^ (k.toNat % 64) % 2 ^ 64 := by
    conv_lhs => rw [h]
    rw [UInt64.toNat_shiftLeft, Nat.shiftLeft_eq]
  -- One more bit is 0 with each shift.
  have hdvd : ∀ j ≤ 64, 2 ^ j ∣ z.toNat := by
    intro j hj
    induction j with
    | zero => exact Nat.one_dvd _
    | succ j ih =>
      rw [hnat]
      refine (Nat.dvd_mod_iff (Nat.pow_dvd_pow 2 hj)).mpr ?_
      rw [pow_succ]
      exact Nat.mul_dvd_mul (ih (by omega)) (Nat.pow_dvd_pow 2 hk)
  exact UInt64.toNat_inj.mp (Nat.eq_zero_of_dvd_of_lt (hdvd 64 (Nat.le_refl 64)) z.toNat_lt)

theorem xor_eq_of_xor_eq {a b : UInt64} (h : x ^^^ a = y ^^^ b) : x ^^^ y = a ^^^ b := by
  have hx : x = y ^^^ b ^^^ a := by rw [← h, UInt64.xor_assoc, UInt64.xor_self, UInt64.xor_zero]
  rw [hx, UInt64.xor_comm, UInt64.xor_assoc, ← UInt64.xor_assoc y, UInt64.xor_self,
    UInt64.zero_xor, UInt64.xor_comm]

theorem xor_shiftRight_injective (hk : 0 < k.toNat % 64) :
    Function.Injective fun x : UInt64 => x ^^^ x >>> k := by
  intro x y h
  have hsum := xor_eq_of_xor_eq h
  rw [← UInt64.shiftRight_xor] at hsum
  exact UInt64.xor_eq_zero_iff.mp (eq_zero_of_shiftRight hk hsum)

theorem xor_shiftLeft_injective (hk : 0 < k.toNat % 64) :
    Function.Injective fun x : UInt64 => x ^^^ x <<< k := by
  intro x y h
  have hsum := xor_eq_of_xor_eq h
  rw [← UInt64.shiftLeft_xor] at hsum
  exact UInt64.xor_eq_zero_iff.mp (eq_zero_of_shiftLeft hk hsum)

end CLib
