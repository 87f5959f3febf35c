import Mathlib.Tactic.Ring
import Mlonmcu.CLib.Pairs
import Mlonmcu.McEliece.Masks

/-! Words that hold a key and a value.  To sort such words by keys that are a permutation is to
apply the inverse of the permutation to the values. -/

namespace Mlonmcu.McEliece

open CLib Equiv Equiv.Perm

/-! ### Fields of words -/

section Fields

variable {w s : Nat} {a b : BitVec w}

theorem toNat_shiftLeft_of_le (hs : s ≤ w) (a : BitVec w) :
    (a <<< s).toNat = a.toNat % 2 ^ (w - s) * 2 ^ s := by
  have hpow : 2 ^ w = 2 ^ (w - s) * 2 ^ s := by rw [← Nat.pow_add, Nat.sub_add_cancel hs]
  rw [BitVec.toNat_shiftLeft, Nat.shiftLeft_eq, hpow, Nat.mul_mod_mul_right]

/-- `(a << s) | b`. -/
theorem toNat_shiftLeft_or (hs : s ≤ w) (hb : b.toNat < 2 ^ s) :
    (a <<< s ||| b).toNat = a.toNat % 2 ^ (w - s) * 2 ^ s + b.toNat := by
  rw [BitVec.toNat_or, toNat_shiftLeft_of_le hs, ← Nat.shiftLeft_eq,
    ← Nat.shiftLeft_add_eq_or_of_lt hb]

/-- `(a << s) + b`. -/
theorem toNat_shiftLeft_add (hs : s ≤ w) (hb : b.toNat < 2 ^ s) :
    (a <<< s + b).toNat = a.toNat % 2 ^ (w - s) * 2 ^ s + b.toNat := by
  have hpow : 2 ^ w = 2 ^ (w - s) * 2 ^ s := by rw [← Nat.pow_add, Nat.sub_add_cancel hs]
  have hlt : a.toNat % 2 ^ (w - s) < 2 ^ (w - s) := Nat.mod_lt _ (Nat.two_pow_pos _)
  have hle : (a.toNat % 2 ^ (w - s) + 1) * 2 ^ s ≤ 2 ^ w := hpow ▸ Nat.mul_le_mul_right _ hlt
  rw [Nat.add_mul, Nat.one_mul] at hle
  rw [BitVec.toNat_add, toNat_shiftLeft_of_le hs, Nat.mod_eq_of_lt (by omega)]

theorem toNat_and_low (hs : s ≤ w) (a : BitVec w) :
    (a &&& BitVec.ofNat w (2 ^ s - 1)).toNat = a.toNat % 2 ^ s := by
  have hle : 2 ^ s ≤ 2 ^ w := Nat.pow_le_pow_right (by decide) hs
  have hpos := Nat.two_pow_pos s
  rw [BitVec.toNat_and, BitVec.toNat_ofNat, Nat.mod_eq_of_lt (by omega),
    Nat.and_two_pow_sub_one_eq_mod]

theorem toNat_and_high (hs : s ≤ w) (a : BitVec w) :
    (a &&& ~~~BitVec.ofNat w (2 ^ s - 1)).toNat = a.toNat / 2 ^ s * 2 ^ s := by
  have hle : 2 ^ s ≤ 2 ^ w := Nat.pow_le_pow_right (by decide) hs
  have hpos := Nat.two_pow_pos s
  have hmask : (BitVec.ofNat w (2 ^ s - 1)).toNat = 2 ^ s - 1 := by
    rw [BitVec.toNat_ofNat, Nat.mod_eq_of_lt (by omega)]
  refine Nat.eq_of_testBit_eq fun i => ?_
  rw [BitVec.toNat_and, Nat.testBit_and, ← BitVec.getLsbD, ← BitVec.getLsbD, BitVec.getLsbD_not,
    BitVec.getLsbD, BitVec.getLsbD, hmask, Nat.testBit_two_pow_sub_one, ← Nat.shiftLeft_eq,
    Nat.testBit_shiftLeft, Nat.testBit_div_two_pow]
  rcases Nat.lt_or_ge i w with hi | hi
  · by_cases his : i < s
    · simp [his, Nat.not_le.mpr his]
    · simp [hi, his, Nat.le_of_not_lt his]
  · have hzero : a.toNat.testBit i = false :=
      Nat.testBit_lt_two_pow (a.isLt.trans_le (Nat.pow_le_pow_right (by decide) hi))
    by_cases his : s ≤ i
    · simp [hzero, his]
    · simp [hzero, his]

/-- `a | b` for fields that do not overlap. -/
theorem toNat_or_of_high {k : Nat} (ha : a.toNat = k * 2 ^ s) (hb : b.toNat < 2 ^ s) :
    (a ||| b).toNat = k * 2 ^ s + b.toNat := by
  rw [BitVec.toNat_or, ha, ← Nat.shiftLeft_eq, ← Nat.shiftLeft_add_eq_or_of_lt hb]

theorem toNat_sshiftRight_of_lt (h : 2 * a.toNat < 2 ^ w) (s : Nat) :
    (a.sshiftRight s).toNat = a.toNat / 2 ^ s := by
  have hmsb : a.msb = false := by
    rw [BitVec.msb_eq_false_iff_two_mul_lt]
    exact h
  rw [BitVec.sshiftRight_eq_of_msb_false hmsb, BitVec.toNat_ushiftRight, Nat.shiftRight_eq_div_pow]

end Fields

/-- `crypto_int32_min`. -/
def int32Min (x y : BitVec 32) : BitVec 32 :=
  let xy := y ^^^ x
  let z := y - x
  let z := z ^^^ (xy &&& (z ^^^ y))
  let z := negativeMask z
  let z := z &&& xy
  x ^^^ z

theorem toInt_of_lt {a : BitVec 32} (ha : a.toNat < 2 ^ 31) : a.toInt = a.toNat :=
  BitVec.toInt_eq_toNat_of_lt (by omega)

theorem toNat_int32Min {x y : BitVec 32} (hx : x.toNat < 2 ^ 31) (hy : y.toNat < 2 ^ 31) :
    (int32Min x y).toNat = min x.toNat y.toNat := by
  have hpair : int32Min x y = (int32MinMax x y).1 := rfl
  rw [hpair, int32MinMax_eq, toInt_of_lt hx, toInt_of_lt hy]
  split
  · rw [Nat.min_eq_right (by omega)]
  · rw [Nat.min_eq_left (by omega)]

/-! ### Sorts by keys -/

/-- A permutation of the places below `n` that keeps their order. -/
theorem eq_of_monotone {n : Nat} {ρ : Perm Nat} (hρ : Below n ρ)
    (hmono : ∀ i j, i ≤ j → j < n → ρ i ≤ ρ j) {i : Nat} (hi : i < n) : ρ i = i := by
  have hle (τ : Perm Nat) (hτ : Below n τ) (hmono : ∀ i j, i < j → j < n → τ i < τ j) (i : Nat)
      (hi : i < n) : i ≤ τ i := by
    induction i with
    | zero => exact Nat.zero_le _
    | succ i ih =>
      have hstep := hmono i (i + 1) (Nat.lt_succ_self i) hi
      have hbefore := ih (by omega)
      omega
  have hstrict (i j : Nat) (hij : i < j) (hj : j < n) : ρ i < ρ j :=
    lt_of_le_of_ne (hmono i j hij.le hj) fun h => hij.ne (ρ.injective h)
  have hback (i j : Nat) (hij : i < j) (hj : j < n) : ρ⁻¹ i < ρ⁻¹ j := by
    by_contra hge
    have h := hmono (ρ⁻¹ j) (ρ⁻¹ i) (Nat.le_of_not_lt hge) (hρ.inv.lt (hij.trans hj))
    rw [show ρ (ρ⁻¹ j) = j from ρ.apply_symm_apply j,
      show ρ (ρ⁻¹ i) = i from ρ.apply_symm_apply i] at h
    omega
  have hinv := hle ρ⁻¹ hρ.inv hback (ρ i) (hρ.lt hi)
  rw [show ρ⁻¹ (ρ i) = i from ρ.symm_apply_apply i] at hinv
  exact Nat.le_antisymm hinv (hle ρ hρ hstrict i hi)

/-- The words of an array hold keys, and values of `s` bits. -/
def Packed (s n : Nat) (A : Nat → BitVec 32) (key value : Nat → Nat) : Prop :=
  ∀ x < n, (A x).toNat = key x * 2 ^ s + value x

section Packed

variable {s n : Nat} {A b : Nat → BitVec 32} {key value u : Nat → Nat}

theorem Packed.congr (hA : Packed s n A key value) (h : ∀ x < n, value x = u x) :
    Packed s n A key u := fun x hx => by rw [hA x hx, h x hx]

/-- The value is the key of `(A[x] << 16) | b[x]`. -/
theorem Packed.rekey (hA : Packed 16 n A key value) (hvalue : ∀ x < n, value x < 2 ^ 16)
    (hb : ∀ x < n, (b x).toNat = u x) (hu : ∀ x < n, u x < 2 ^ 16) :
    Packed 16 n (fun x => A x <<< 16 ||| b x) value u := fun x hx => by
  have hlow := hvalue x hx
  have hub := hu x hx
  rw [toNat_shiftLeft_or (by decide) (by rw [hb x hx]; exact hub), hA x hx, hb x hx]
  omega

theorem Packed.low (hs : s ≤ 32) (hA : Packed s n A key value) (hvalue : ∀ x < n, value x < 2 ^ s)
    {x : Nat} (hx : x < n) : (A x &&& BitVec.ofNat 32 (2 ^ s - 1)).toNat = value x := by
  rw [toNat_and_low hs, hA x hx, Nat.mul_add_mod_of_lt (hvalue x hx)]

theorem Packed.high (hs : s ≤ 32) (hA : Packed s n A key value) (hvalue : ∀ x < n, value x < 2 ^ s)
    {x : Nat} (hx : x < n) : (A x &&& ~~~BitVec.ofNat 32 (2 ^ s - 1)).toNat = key x * 2 ^ s := by
  rw [toNat_and_high hs, hA x hx, Nat.mul_comm (key x), Nat.mul_add_div (Nat.two_pow_pos s),
    Nat.div_eq_of_lt (hvalue x hx), Nat.add_zero, Nat.mul_comm]

end Packed

/-- `int32_sort` puts the value with the key `x` at the place `x`. -/
theorem Packed.sort {s n : Nat} {A : Nat → BitVec 32} {σ : Perm Nat} {value : Nat → Nat}
    (hA : Packed s n A σ value) (hσ : Below n σ) (hvalue : ∀ x < n, value x < 2 ^ s)
    (hn : n * 2 ^ s ≤ 2 ^ 31) : Packed s n (int32Sort A n) id fun x => value (σ⁻¹ x) := by
  have hbound (x : Nat) (hx : x < n) : (A x).toNat < 2 ^ 31 := by
    have hkey : (σ x + 1) * 2 ^ s ≤ n * 2 ^ s := Nat.mul_le_mul_right _ (hσ.lt hx)
    have hlow := hvalue x hx
    rw [Nat.add_mul, Nat.one_mul] at hkey
    rw [hA x hx]
    omega
  have hsort : Sorted BitVec.toInt n A (int32Sort A n) :=
    sortLoops_sorted (P := fun _ => True) (fun a b _ _ => int32MinMax_eq a b) fun _ _ => trivial
  obtain ⟨⟨τ, heq, hτ⟩, hsorted⟩ := hsort
  rw [heq] at hsorted ⊢
  have hτ : Below n τ := hτ
  have hkeys {x : Nat} (hx : x < n) : σ (τ x) = x := by
    refine eq_of_monotone (ρ := σ * τ) (hσ.mul hτ) (fun i j hij hj => ?_) hx
    have hi : i < n := hij.trans_lt hj
    have hle := hsorted i j hij hj
    rw [Function.comp_apply, Function.comp_apply, toInt_of_lt (hbound _ (hτ.lt hi)),
      toInt_of_lt (hbound _ (hτ.lt hj)), hA _ (hτ.lt hi), hA _ (hτ.lt hj)] at hle
    have hlow := hvalue _ (hτ.lt hj)
    by_contra hlt
    have hmul : (σ (τ j) + 1) * 2 ^ s ≤ σ (τ i) * 2 ^ s :=
      Nat.mul_le_mul_right _ (Nat.lt_of_not_le hlt)
    rw [Nat.add_mul, Nat.one_mul] at hmul
    omega
  intro x hx
  have hback : σ⁻¹ x = τ x := inv_eq_iff_eq.mpr (hkeys hx).symm
  rw [Function.comp_apply, hA _ (hτ.lt hx), hkeys hx, ← hback]
  rfl

end Mlonmcu.McEliece
