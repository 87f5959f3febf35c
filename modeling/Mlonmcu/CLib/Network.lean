import Mathlib.Algebra.BigOperators.Group.List.Basic
import Mathlib.Tactic.Ring
import Mlonmcu.CLib.Pairs

/-! Beneš networks: layers of exchanges at distances that are powers of two.  A network for `2 * n`
places is a layer, two networks for the places with even and odd numbers, and a layer. -/

namespace CLib

open Equiv Equiv.Perm

/-! ### Layers -/

/-- The place at the distance `2 ^ s` that `k` is exchanged with. -/
def mateAt (s k : Nat) : Nat := 2 ^ s * mate (k / 2 ^ s) + k % 2 ^ s

/-- The number of the pair of a place, when the pairs are numbered in the order of their first
places. -/
def pairIndex (s k : Nat) : Nat := 2 ^ s * (k / 2 ^ s / 2) + k % 2 ^ s

theorem mateAt_div (s k : Nat) : mateAt s k / 2 ^ s = mate (k / 2 ^ s) := by
  have hpow := Nat.two_pow_pos s
  rw [mateAt, Nat.mul_add_div hpow, Nat.div_eq_of_lt (Nat.mod_lt k hpow), Nat.add_zero]

theorem mateAt_mod (s k : Nat) : mateAt s k % 2 ^ s = k % 2 ^ s := by
  rw [mateAt, Nat.mul_add_mod, Nat.mod_mod]

theorem mateAt_mateAt (s k : Nat) : mateAt s (mateAt s k) = k := by
  rw [mateAt, mateAt_div, mateAt_mod, mate_mate, Nat.div_add_mod]

theorem pairIndex_mateAt (s k : Nat) : pairIndex s (mateAt s k) = pairIndex s k := by
  rw [pairIndex, mateAt_div, mateAt_mod, mate_div, pairIndex]

/-- The exchanges of the pairs at the distance `2 ^ s` whose bit is set. -/
def layerPerm (s : Nat) (b : Nat → Bool) : Perm Nat :=
  Function.Involutive.toPerm (fun k => if b (pairIndex s k) then mateAt s k else k) fun k => by
    by_cases h : b (pairIndex s k)
    · simp [h, pairIndex_mateAt, mateAt_mateAt]
    · simp [h]

theorem layerPerm_apply (s : Nat) (b : Nat → Bool) (k : Nat) :
    layerPerm s b k = if b (pairIndex s k) then mateAt s k else k := rfl

@[simp] theorem layerPerm_inv (s : Nat) (b : Nat → Bool) : (layerPerm s b)⁻¹ = layerPerm s b := rfl

theorem layerPerm_zero (b : Nat → Bool) : layerPerm 0 b = swapPairs b := by
  ext k
  simp [layerPerm_apply, swapPairs_apply, pairIndex, mateAt, Nat.mod_one]

/-! ### Even and odd places -/

/-- One permutation of the even places, and one of the odd places. -/
def interleave (a b : Perm Nat) : Perm Nat where
  toFun k := if k % 2 = 0 then 2 * a (k / 2) else 2 * b (k / 2) + 1
  invFun k := if k % 2 = 0 then 2 * a⁻¹ (k / 2) else 2 * b⁻¹ (k / 2) + 1
  left_inv k := by
    by_cases h : k % 2 = 0
    · simp [h]
      omega
    · simp [h, Nat.mul_add_div]
      omega
  right_inv k := by
    by_cases h : k % 2 = 0
    · simp [h]
      omega
    · simp [h, Nat.mul_add_div]
      omega

theorem interleave_even (a b : Perm Nat) (k : Nat) : interleave a b (2 * k) = 2 * a k := by
  simp [interleave]

theorem interleave_odd (a b : Perm Nat) (k : Nat) : interleave a b (2 * k + 1) = 2 * b k + 1 := by
  simp [interleave, Nat.mul_add_div]

/-- Permutations agree when they agree on the even and on the odd places. -/
theorem perm_ext_parity {a b : Perm Nat} (heven : ∀ k, a (2 * k) = b (2 * k))
    (hodd : ∀ k, a (2 * k + 1) = b (2 * k + 1)) : a = b := by
  ext k
  obtain ⟨m, rfl | rfl⟩ : ∃ m, k = 2 * m ∨ k = 2 * m + 1 := ⟨k / 2, by omega⟩
  · exact heven m
  · exact hodd m

theorem interleave_mul (a b c d : Perm Nat) :
    interleave a b * interleave c d = interleave (a * c) (b * d) :=
  perm_ext_parity (fun k => by simp only [mul_apply, interleave_even])
    (fun k => by simp only [mul_apply, interleave_odd])

theorem interleave_one : interleave 1 1 = 1 :=
  perm_ext_parity (fun k => by simp only [interleave_even, one_apply])
    (fun k => by simp only [interleave_odd, one_apply])

section Halves

variable {m : Perm Nat}

theorem inv_mod (hm : ∀ k, m k % 2 = k % 2) (k : Nat) : m⁻¹ k % 2 = k % 2 := by
  have h := hm (m⁻¹ k)
  rw [show m (m⁻¹ k) = k from m.apply_symm_apply k] at h
  exact h.symm

/-- What a permutation that keeps parities does with the even places. -/
def evenHalf (m : Perm Nat) (hm : ∀ k, m k % 2 = k % 2) : Perm Nat where
  toFun k := m (2 * k) / 2
  invFun k := m⁻¹ (2 * k) / 2
  left_inv k := by
    have h := hm (2 * k)
    have hback : m⁻¹ (m (2 * k)) = 2 * k := m.symm_apply_apply _
    dsimp only
    rw [show 2 * (m (2 * k) / 2) = m (2 * k) by omega, hback]
    omega
  right_inv k := by
    have h := inv_mod hm (2 * k)
    have hback : m (m⁻¹ (2 * k)) = 2 * k := m.apply_symm_apply _
    dsimp only
    rw [show 2 * (m⁻¹ (2 * k) / 2) = m⁻¹ (2 * k) by omega, hback]
    omega

/-- What it does with the odd places. -/
def oddHalf (m : Perm Nat) (hm : ∀ k, m k % 2 = k % 2) : Perm Nat where
  toFun k := m (2 * k + 1) / 2
  invFun k := m⁻¹ (2 * k + 1) / 2
  left_inv k := by
    have h := hm (2 * k + 1)
    have hback : m⁻¹ (m (2 * k + 1)) = 2 * k + 1 := m.symm_apply_apply _
    dsimp only
    rw [show 2 * (m (2 * k + 1) / 2) + 1 = m (2 * k + 1) by omega, hback]
    omega
  right_inv k := by
    have h := inv_mod hm (2 * k + 1)
    have hback : m (m⁻¹ (2 * k + 1)) = 2 * k + 1 := m.apply_symm_apply _
    dsimp only
    rw [show 2 * (m⁻¹ (2 * k + 1) / 2) + 1 = m⁻¹ (2 * k + 1) by omega, hback]
    omega

variable (hm : ∀ k, m k % 2 = k % 2)

theorem evenHalf_apply (k : Nat) : evenHalf m hm k = m (2 * k) / 2 := rfl

theorem oddHalf_apply (k : Nat) : oddHalf m hm k = m (2 * k + 1) / 2 := rfl

theorem interleave_halves : interleave (evenHalf m hm) (oddHalf m hm) = m :=
  perm_ext_parity
    (fun k => by
      have h := hm (2 * k)
      rw [interleave_even, evenHalf_apply]
      omega)
    (fun k => by
      have h := hm (2 * k + 1)
      rw [interleave_odd, oddHalf_apply]
      omega)

theorem below_halves {n : Nat} (hbelow : Below (2 * n) m) :
    Below n (evenHalf m hm) ∧ Below n (oddHalf m hm) := by
  refine ⟨fun k hk => ?_, fun k hk => ?_⟩
  · rw [evenHalf_apply, hbelow _ (by omega)]
    omega
  · rw [oddHalf_apply, hbelow _ (by omega)]
    omega

end Halves

theorem mateAt_succ (s k e : Nat) (he : e < 2) :
    mateAt (s + 1) (2 * k + e) = 2 * mateAt s k + e := by
  have hdiv : (2 * k + e) / 2 ^ (s + 1) = k / 2 ^ s := by
    rw [Nat.pow_succ', ← Nat.div_div_eq_div_mul, show (2 * k + e) / 2 = k by omega]
  have hmod : (2 * k + e) % 2 ^ (s + 1) = 2 * (k % 2 ^ s) + e := by
    rw [Nat.pow_succ', Nat.mod_mul, show (2 * k + e) % 2 = e by omega,
      show (2 * k + e) / 2 = k by omega, Nat.add_comm]
  rw [mateAt, hdiv, hmod, mateAt, Nat.pow_succ']
  ring

theorem pairIndex_succ (s k e : Nat) (he : e < 2) :
    pairIndex (s + 1) (2 * k + e) = 2 * pairIndex s k + e := by
  have hdiv : (2 * k + e) / 2 ^ (s + 1) = k / 2 ^ s := by
    rw [Nat.pow_succ', ← Nat.div_div_eq_div_mul, show (2 * k + e) / 2 = k by omega]
  have hmod : (2 * k + e) % 2 ^ (s + 1) = 2 * (k % 2 ^ s) + e := by
    rw [Nat.pow_succ', Nat.mod_mul, show (2 * k + e) % 2 = e by omega,
      show (2 * k + e) / 2 = k by omega, Nat.add_comm]
  rw [pairIndex, hdiv, hmod, pairIndex, Nat.pow_succ']
  ring

/-- Layers of the even and of the odd places are one layer at twice the distance. -/
theorem interleave_layers (s : Nat) (b c : Nat → Bool) :
    interleave (layerPerm s b) (layerPerm s c) =
      layerPerm (s + 1) fun i => if i % 2 = 0 then b (i / 2) else c (i / 2) := by
  refine perm_ext_parity (fun k => ?_) (fun k => ?_)
  · have hmate := mateAt_succ s k 0 (by decide)
    have hindex := pairIndex_succ s k 0 (by decide)
    simp only [Nat.add_zero] at hmate hindex
    rw [interleave_even, layerPerm_apply, layerPerm_apply, hindex, hmate]
    simp only [Nat.mul_mod_right, if_true, Nat.mul_div_right _ (show 0 < 2 by decide)]
    split <;> rfl
  · rw [interleave_odd, layerPerm_apply, layerPerm_apply, pairIndex_succ s k 1 (by decide),
      mateAt_succ s k 1 (by decide)]
    simp only [show (2 * pairIndex s k + 1) % 2 = 1 by omega,
      show (2 * pairIndex s k + 1) / 2 = pairIndex s k by omega, one_ne_zero, if_false]
    split <;> rfl

/-! ### Networks -/

section Networks

variable {w m : Nat} {b c : Nat → Bool} {π : Perm Nat}

/-- The bits of the first `m` pairs. -/
def firstBits (m : Nat) (b : Nat → Bool) (i : Nat) : Bool := i < m && b i

/-- The network of `2 ^ w` places for the bits `b`. -/
def network : Nat → (Nat → Bool) → Perm Nat
  | 0, _ => 1
  | 1, b => layerPerm 0 (firstBits 1 b)
  | w + 2, b =>
    let h := 2 ^ (w + 1)
    layerPerm 0 (firstBits h b) *
      interleave (network (w + 1) fun i => b (h + 2 * i))
        (network (w + 1) fun i => b (h + 2 * i + 1)) *
      layerPerm 0 (firstBits h fun i => b ((2 * w + 2) * h + i))

theorem firstBits_congr (h : ∀ i < m, b i = c i) : firstBits m b = firstBits m c := by
  funext i
  by_cases hi : i < m
  · simp [firstBits, hi, h i hi]
  · simp [firstBits, hi]

theorem firstBits_eq (h : ∀ i, m ≤ i → b i = false) : firstBits m b = b := by
  funext i
  by_cases hi : i < m
  · simp [firstBits, hi]
  · simp [firstBits, hi, h i (by omega)]

/-- A network has `2 * w - 1` layers of `2 ^ (w - 1)` bits. -/
theorem network_congr (h : ∀ i < (2 * w - 1) * 2 ^ (w - 1), b i = c i) :
    network w b = network w c := by
  induction w generalizing b c with
  | zero => rfl
  | succ w ih =>
    cases w with
    | zero => exact congrArg (layerPerm 0) (firstBits_congr (m := 1) h)
    | succ w =>
      obtain ⟨m, hm⟩ : ∃ m, 2 ^ w = m := ⟨_, rfl⟩
      have htwo : 2 ^ (w + 1) = 2 * m := by rw [pow_succ, hm, Nat.mul_comm]
      have hbits : (2 * (w + 2) - 1) * 2 ^ (w + 1) = 4 * (w * m) + 6 * m := by
        rw [htwo, show 2 * (w + 2) - 1 = 2 * w + 3 by omega]
        ring
      have hhalf : (2 * (w + 1) - 1) * 2 ^ w = 2 * (w * m) + m := by
        rw [hm, show 2 * (w + 1) - 1 = 2 * w + 1 by omega]
        ring
      have hlast : (2 * w + 2) * (2 * m) = 4 * (w * m) + 4 * m := by ring
      rw [Nat.add_sub_cancel] at ih
      simp only [network, htwo, hlast]
      rw [Nat.add_sub_cancel, hbits] at h
      rw [firstBits_congr fun i hi => h i (by omega),
        ih fun i hi => h (2 * m + 2 * i) (by omega),
        ih fun i hi => h (2 * m + 2 * i + 1) (by omega),
        firstBits_congr fun i hi => h (4 * (w * m) + 4 * m + i) (by omega)]

/-! ### Layers one after the other -/

/-- The distances of the layers of a network. -/
def stages (w : Nat) : List Nat := List.range w ++ (List.range (w - 1)).reverse

/-- Layers of `m` bits each, of which the first one starts at the bit `p`. -/
def layers (m : Nat) (b : Nat → Bool) : List Nat → Nat → Perm Nat
  | [], _ => 1
  | s :: ss, p => layerPerm s (firstBits m fun i => b (p + i)) * layers m b ss (p + m)

theorem layers_append (ss ts : List Nat) (p : Nat) :
    layers m b (ss ++ ts) p = layers m b ss p * layers m b ts (p + m * ss.length) := by
  induction ss generalizing p with
  | nil => rw [List.nil_append, layers, one_mul, List.length_nil, Nat.mul_zero, Nat.add_zero]
  | cons s ss ih =>
    rw [List.cons_append, layers, ih, layers, mul_assoc, List.length_cons, Nat.mul_succ,
      Nat.add_assoc, Nat.add_comm m]

theorem interleave_firstBits (s : Nat) (b : Nat → Bool) :
    interleave (layerPerm s (firstBits m fun i => b (2 * i)))
        (layerPerm s (firstBits m fun i => b (2 * i + 1))) =
      layerPerm (s + 1) (firstBits (2 * m) b) := by
  rw [interleave_layers]
  congr 1
  funext i
  obtain ⟨k, rfl | rfl⟩ : ∃ k, i = 2 * k ∨ i = 2 * k + 1 := ⟨i / 2, by omega⟩
  · simp [firstBits]
  · have hlt : 2 * k + 1 < 2 * m ↔ k < m := by omega
    simp [firstBits, Nat.mul_add_div, hlt]

theorem interleave_layers_eq (ss : List Nat) (q p : Nat) :
    interleave (layers m (fun i => b (q + 2 * i)) ss p)
        (layers m (fun i => b (q + 2 * i + 1)) ss p) =
      layers (2 * m) b (ss.map (· + 1)) (q + 2 * p) := by
  induction ss generalizing p with
  | nil => exact interleave_one
  | cons s ss ih =>
    have hlayer := interleave_firstBits (m := m) s fun i => b (q + 2 * p + i)
    have hsum (i : Nat) : q + 2 * (p + i) = q + 2 * p + 2 * i := by omega
    rw [layers, layers, ← interleave_mul, ih, List.map_cons, layers, ← hlayer, hsum]
    simp only [hsum, Nat.add_assoc]

theorem stages_succ (w : Nat) : stages (w + 2) = 0 :: (stages (w + 1)).map (· + 1) ++ [0] := by
  simp only [stages, Nat.add_sub_cancel, List.map_append, List.map_reverse, Nat.add_succ_sub_one]
  rw [List.range_succ_eq_map (n := w + 1), List.range_succ_eq_map (n := w)]
  simp

theorem length_stages (w : Nat) : (stages (w + 1)).length = 2 * w + 1 := by
  simp [stages]
  omega

/-- A network is the layers of its stages, whose bits are one after the other. -/
theorem network_eq_layers (w : Nat) (b : Nat → Bool) :
    network (w + 1) b = layers (2 ^ w) b (stages (w + 1)) 0 := by
  induction w generalizing b with
  | zero =>
    change layerPerm 0 _ = layerPerm 0 _ * 1
    rw [mul_one]
    simp only [Nat.zero_add, Nat.pow_zero]
  | succ w ih =>
    have hmid : 2 ^ (w + 1) + 2 ^ (w + 1) * (2 * w + 1) = (2 * w + 2) * 2 ^ (w + 1) := by ring
    rw [network, ih, ih, interleave_layers_eq, stages_succ, List.cons_append, layers,
      layers_append, List.length_map, length_stages, mul_assoc]
    simp only [layers, mul_one, Nat.zero_add, Nat.mul_zero, Nat.add_zero, hmid, ← Nat.pow_succ']

/-! ### Control bits -/

/-- The bits of the layers that make a permutation. -/
noncomputable def controlBit : Nat → Perm Nat → Nat → Bool
  | 0, _, _ => false
  | 1, π, _ => π 0 = 1
  | w + 2, π, i =>
    let h := 2 ^ (w + 1)
    if i < h then cycleMin (around π) (2 * i) % 2 = 1
    else if i < (2 * w + 2) * h then
      controlBit (w + 1) (if (i - h) % 2 = 0 then evenHalf (middle π) middle_mod
        else oddHalf (middle π) middle_mod) ((i - h) / 2)
    else outer π (π (2 * (i - (2 * w + 2) * h))) % 2 = 1

theorem controlBit_outer {i : Nat} (hi : i < 2 ^ (w + 1)) :
    controlBit (w + 2) π i = decide (cycleMin (around π) (2 * i) % 2 = 1) := by
  rw [controlBit]
  exact if_pos hi

theorem controlBit_inner (i : Nat) : controlBit (w + 2) π ((2 * w + 2) * 2 ^ (w + 1) + i) =
    decide (outer π (π (2 * i)) % 2 = 1) := by
  have hle : 2 ^ (w + 1) ≤ (2 * w + 2) * 2 ^ (w + 1) := Nat.le_mul_of_pos_left _ (by omega)
  rw [controlBit]
  rw [if_neg (by omega), if_neg (by omega), Nat.add_sub_cancel_left]

theorem controlBit_even {i : Nat} (hi : i < (2 * w + 1) * 2 ^ w) :
    controlBit (w + 2) π (2 ^ (w + 1) + 2 * i) =
      controlBit (w + 1) (evenHalf (middle π) middle_mod) i := by
  have hbits : (2 * w + 2) * 2 ^ (w + 1) = 2 ^ (w + 1) + 2 * ((2 * w + 1) * 2 ^ w) := by ring
  rw [controlBit]
  rw [if_neg (by omega), if_pos (by omega), Nat.add_sub_cancel_left, if_pos (by omega),
    Nat.mul_div_cancel_left _ (by decide)]

theorem controlBit_odd {i : Nat} (hi : i < (2 * w + 1) * 2 ^ w) :
    controlBit (w + 2) π (2 ^ (w + 1) + 2 * i + 1) =
      controlBit (w + 1) (oddHalf (middle π) middle_mod) i := by
  have hbits : (2 * w + 2) * 2 ^ (w + 1) = 2 ^ (w + 1) + 2 * ((2 * w + 1) * 2 ^ w) := by ring
  rw [controlBit]
  rw [if_neg (by omega), if_pos (by omega), Nat.add_assoc, Nat.add_sub_cancel_left,
    if_neg (by omega), show (2 * i + 1) / 2 = i by omega]

/-- The network for the control bits of a permutation is the permutation. -/
theorem network_controlBit (hπ : Below (2 ^ w) π) : network w (controlBit w π) = π := by
  induction w generalizing π with
  | zero =>
    refine Equiv.ext fun k => ?_
    rcases Nat.eq_zero_or_pos k with rfl | hk
    · have hzero := hπ.lt Nat.one_pos
      exact (Nat.lt_one_iff.mp hzero).symm
    · exact (hπ k hk).symm
  | succ w ih =>
    cases w with
    | zero =>
      refine Equiv.ext fun k => ?_
      rw [network, layerPerm_zero, swapPairs_apply]
      have hzero : π 0 < 2 := hπ.lt (by decide)
      have hone : π 1 < 2 := hπ.lt (by decide)
      have hne : π 0 ≠ π 1 := fun h => absurd (π.injective h) (by decide)
      rcases Nat.lt_or_ge k 2 with hk | hk
      · rcases show k = 0 ∨ k = 1 by omega with rfl | rfl <;>
          simp [firstBits, controlBit, mate] <;> split <;> omega
      · have hdiv : ¬ k / 2 < 1 := by omega
        simpa [firstBits, hdiv] using (hπ k hk).symm
    | succ w =>
      have hpow : 2 ^ (w + 2) = 2 * 2 ^ (w + 1) := Nat.pow_succ'
      have heven : 2 ^ (w + 2) % 2 = 0 := by omega
      have houter : layerPerm 0 (firstBits (2 ^ (w + 1)) (controlBit (w + 2) π)) = outer π := by
        rw [layerPerm_zero, outer, firstBits_congr fun i hi => controlBit_outer hi,
          firstBits_eq fun i hi => ?_]
        rw [cycleMin_of_fixed (hπ.around heven _ (by omega))]
        exact decide_eq_false (by omega)
      have hinner : layerPerm 0 (firstBits (2 ^ (w + 1)) fun i =>
          controlBit (w + 2) π ((2 * w + 2) * 2 ^ (w + 1) + i)) = inner π := by
        rw [layerPerm_zero, inner, firstBits_congr fun i _ => controlBit_inner i,
          firstBits_eq fun i hi => ?_]
        rw [hπ _ (by omega), below_outer heven hπ _ (by omega)]
        exact decide_eq_false (by omega)
      obtain ⟨hbelowEven, hbelowOdd⟩ := below_halves (n := 2 ^ (w + 1)) middle_mod
        (hpow ▸ below_middle heven hπ)
      have hbits : 2 * (w + 1) - 1 = 2 * w + 1 := by omega
      rw [network]
      rw [houter, hinner, network_congr fun i hi => controlBit_even (by rwa [hbits] at hi),
        network_congr fun i hi => controlBit_odd (by rwa [hbits] at hi), ih hbelowEven,
        ih hbelowOdd, interleave_halves, outer_mul_middle_mul_inner]

end Networks

end CLib
