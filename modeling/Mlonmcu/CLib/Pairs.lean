import Mathlib.Data.Fintype.Pigeonhole
import Mathlib.GroupTheory.Perm.Cycle.Basic
import Mathlib.Order.Lattice.Nat

/-! Permutations as a pairwise exchange, a permutation that keeps parities, and another pairwise
exchange.  The least places of the cycles of a commutator tell which pairs to exchange. -/

namespace CLib

open Equiv Equiv.Perm

/-- The other place of a pair. -/
def mate (k : Nat) : Nat := if k % 2 = 0 then k + 1 else k - 1

theorem mate_mate (k : Nat) : mate (mate k) = k := by
  simp only [mate]
  split <;> split <;> omega

theorem mate_div (k : Nat) : mate k / 2 = k / 2 := by
  rw [mate]
  split <;> omega

theorem mate_mod (k : Nat) : mate k % 2 = 1 - k % 2 := by
  rw [mate]
  split <;> omega

theorem mate_ne (k : Nat) : mate k ≠ k := by
  rw [mate]
  split <;> omega

def mates : Perm Nat := Function.Involutive.toPerm mate mate_mate

@[simp] theorem mates_apply (k : Nat) : mates k = mate k := rfl

@[simp] theorem mates_inv : mates⁻¹ = mates := rfl

/-- The exchanges of the pairs whose bit is set. -/
def swapPairs (f : Nat → Bool) : Perm Nat :=
  Function.Involutive.toPerm (fun k => if f (k / 2) then mate k else k) fun k => by
    by_cases h : f (k / 2)
    · simp [h, mate_div, mate_mate]
    · simp [h]

theorem swapPairs_apply (f : Nat → Bool) (k : Nat) :
    swapPairs f k = if f (k / 2) then mate k else k := rfl

@[simp] theorem swapPairs_inv (f : Nat → Bool) : (swapPairs f)⁻¹ = swapPairs f := rfl

theorem swapPairs_mul_self (f : Nat → Bool) : swapPairs f * swapPairs f = 1 :=
  mul_eq_one_iff_eq_inv.mpr (swapPairs_inv f).symm

/-- A permutation of the places below `n`. -/
def Below (n : Nat) (π : Perm Nat) : Prop := ∀ k, n ≤ k → π k = k

section Below

variable {n k : Nat} {π ρ : Perm Nat}

theorem Below.mul (hπ : Below n π) (hρ : Below n ρ) : Below n (π * ρ) := fun k hk => by
  rw [mul_apply, hρ k hk, hπ k hk]

theorem Below.inv (hπ : Below n π) : Below n π⁻¹ := fun k hk => by
  rw [inv_eq_iff_eq, hπ k hk]

theorem Below.lt (hπ : Below n π) (hk : k < n) : π k < n := by
  by_contra hle
  have heq : π k = k := π.injective (hπ _ (Nat.le_of_not_lt hle))
  omega

end Below

/-! ### Cycles -/

section Cycles

variable {p : Perm Nat} {x y : Nat}

/-- The least place of a cycle. -/
noncomputable def cycleMin (p : Perm Nat) (x : Nat) : Nat := sInf {y | p.SameCycle x y}

theorem sameCycle_cycleMin (p : Perm Nat) (x : Nat) : p.SameCycle x (cycleMin p x) :=
  Nat.sInf_mem (s := {y | p.SameCycle x y}) ⟨x, SameCycle.refl p x⟩

theorem cycleMin_le (h : p.SameCycle x y) : cycleMin p x ≤ y := Nat.sInf_le h

theorem cycleMin_of_fixed (h : p x = x) : cycleMin p x = x := by
  obtain ⟨i, hi⟩ := sameCycle_cycleMin p x
  rw [← hi, zpow_apply_eq_self_of_apply_eq_self h]

theorem cycleMin_congr (h : p.SameCycle x y) : cycleMin p x = cycleMin p y :=
  Nat.le_antisymm (cycleMin_le (h.trans (sameCycle_cycleMin p y)))
    (cycleMin_le (h.symm.trans (sameCycle_cycleMin p x)))

/-- The least of the first `2 ^ i` places from `x` on. -/
def minUpTo (p : Perm Nat) : Nat → Nat → Nat
  | 0, x => x
  | i + 1, x => min (minUpTo p i x) (minUpTo p i ((p ^ 2 ^ i) x))

theorem minUpTo_le {i j : Nat} (hj : j < 2 ^ i) : minUpTo p i x ≤ (p ^ j) x := by
  induction i generalizing j x with
  | zero =>
    obtain rfl : j = 0 := by omega
    exact Nat.le_refl x
  | succ i ih =>
    rw [minUpTo]
    rcases Nat.lt_or_ge j (2 ^ i) with hlt | hge
    · exact (Nat.min_le_left _ _).trans (ih hlt)
    · obtain ⟨l, rfl⟩ := Nat.exists_eq_add_of_le' hge
      rw [Nat.pow_succ] at hj
      rw [pow_add, mul_apply]
      exact (Nat.min_le_right _ _).trans (ih (by omega))

theorem exists_minUpTo (i x : Nat) : ∃ j, minUpTo p i x = (p ^ j) x := by
  induction i generalizing x with
  | zero => exact ⟨0, rfl⟩
  | succ i ih =>
    rw [minUpTo]
    rcases min_choice (minUpTo p i x) (minUpTo p i ((p ^ 2 ^ i) x)) with h | h
    · rw [h]
      exact ih x
    · obtain ⟨j, hj⟩ := ih ((p ^ 2 ^ i) x)
      exact ⟨j + 2 ^ i, by rw [h, hj, pow_add, mul_apply]⟩

/-- A cycle of at most `2 ^ i` places. -/
theorem minUpTo_eq {i m : Nat} (hm : 0 < m) (hle : m ≤ 2 ^ i) (hx : (p ^ m) x = x) :
    minUpTo p i x = cycleMin p x := by
  refine Nat.le_antisymm ?_ ?_
  · obtain ⟨k, hk⟩ := sameCycle_cycleMin p x
    obtain ⟨j, hj⟩ : ∃ j : Nat, (k % m) = j := ⟨(k % m).toNat, by
      rw [Int.toNat_of_nonneg (Int.emod_nonneg _ (by omega))]⟩
    have hpow : (p ^ k) x = (p ^ j) x := by
      rw [← zpow_natCast, ← hj, ← Int.emod_add_mul_ediv k m, zpow_add, mul_apply, zpow_mul,
        zpow_natCast, Int.emod_add_mul_ediv, zpow_apply_eq_self_of_apply_eq_self hx]
    rw [← hk, hpow]
    have hlt := Int.emod_lt_of_pos k (show (0 : ℤ) < m by omega)
    exact minUpTo_le (by omega)
  · obtain ⟨j, hj⟩ := exists_minUpTo (p := p) i x
    exact hj ▸ cycleMin_le ⟨j, by rw [zpow_natCast]⟩

end Cycles

/-! ### The commutator with the exchange of all pairs -/

section Commutator

variable (π : Perm Nat)

/-- `π` and the exchange of all pairs, back and forth. -/
def around : Perm Nat := π * mates * π⁻¹ * mates

variable {π} {n x y : Nat}

theorem mates_conj_around : mates * around π * mates⁻¹ = (around π)⁻¹ := by
  simp only [around, mul_inv_rev, mates_inv, inv_inv, mul_assoc]
  rw [show (mates : Perm Nat) * mates = 1 from mul_eq_one_iff_eq_inv.mpr rfl, mul_one]

/-- The mates go through their cycle backwards. -/
theorem mate_around_zpow (i : ℤ) (x : Nat) :
    mate ((around π ^ i) x) = (around π ^ (-i)) (mate x) := by
  have h := conj_zpow (a := mates) (b := around π) (i := i)
  rw [mates_conj_around, inv_zpow, ← zpow_neg] at h
  rw [h, mul_apply, mul_apply, mates_inv, mates_apply, mates_apply, mate_mate]

/-- The mates are in different cycles. -/
theorem not_sameCycle_mate (x : Nat) : ¬(around π).SameCycle x (mate x) := by
  rintro ⟨i, hi⟩
  rcases Int.even_or_odd' i with ⟨m, rfl | rfl⟩
  · -- Half of the way there is its own mate.
    refine mate_ne ((around π ^ m) x) ?_
    rw [mate_around_zpow, ← hi, ← mul_apply, ← zpow_add]
    congr 2
    omega
  · -- One step more than half of the way is the mate of half of the way.
    obtain ⟨y, hy⟩ : ∃ y, (around π ^ m) x = y := ⟨_, rfl⟩
    have hstep : around π y = mate y := by
      rw [← hy, mate_around_zpow, ← hi, ← mul_apply, ← mul_apply, ← zpow_add, ← zpow_one_add]
      congr 2
      omega
    have hfixed : mate (π⁻¹ (mate y)) = π⁻¹ (mate y) := π.injective (by
      rw [show π (π⁻¹ (mate y)) = mate y from π.apply_symm_apply _]
      exact hstep)
    exact mate_ne _ hfixed

theorem sameCycle_mate_iff : (around π).SameCycle (mate x) (mate y) ↔
    (around π).SameCycle x y := by
  have hone {x y : Nat} (h : (around π).SameCycle x y) :
      (around π).SameCycle (mate x) (mate y) := by
    obtain ⟨i, rfl⟩ := h
    exact ⟨-i, (mate_around_zpow i x).symm⟩
  refine ⟨fun h => ?_, hone⟩
  have hback := hone h
  rwa [mate_mate, mate_mate] at hback

/-- The least places of the cycles of mates are mates. -/
theorem cycleMin_mate (x : Nat) : cycleMin (around π) (mate x) = mate (cycleMin (around π) x) := by
  obtain ⟨a, ha⟩ : ∃ a, cycleMin (around π) x = a := ⟨_, rfl⟩
  have hxa : (around π).SameCycle x a := ha ▸ sameCycle_cycleMin _ _
  rw [ha]
  refine Nat.le_antisymm (cycleMin_le (sameCycle_mate_iff.mpr hxa)) ?_
  obtain ⟨b, hb⟩ : ∃ b, cycleMin (around π) (mate x) = b := ⟨_, rfl⟩
  have hxb : (around π).SameCycle x (mate b) := by
    rw [← sameCycle_mate_iff, mate_mate, ← hb]
    exact sameCycle_cycleMin _ _
  have hle : a ≤ mate b := ha ▸ cycleMin_le hxb
  have hne : mate b ≠ mate a := fun h =>
    not_sameCycle_mate a (hxa.symm.trans (h ▸ hxb))
  rw [hb]
  rcases Nat.mod_two_eq_zero_or_one a with ha2 | ha2 <;>
    rcases Nat.mod_two_eq_zero_or_one b with hb2 | hb2 <;>
    simp only [mate, ha2, hb2, one_ne_zero, if_true, if_false] at hle hne ⊢ <;> omega

theorem Below.around (hn : n % 2 = 0) (hπ : Below n π) : Below n (around π) := by
  intro k hk
  have hmate : n ≤ mate k := by
    rw [mate]
    split <;> omega
  simp only [CLib.around, mul_apply, mates_apply]
  rw [hπ.inv _ hmate, mate_mate, hπ k hk]

theorem Below.pow_lt {p : Perm Nat} (hp : Below n p) (hx : x < n) (i : Nat) : (p ^ i) x < n := by
  induction i with
  | zero => exact hx
  | succ i ih =>
    rw [pow_succ', mul_apply]
    exact hp.lt ih

/-- A cycle has at most half of the places, as its mates are the places of another one. -/
theorem exists_pow_around (hn : n % 2 = 0) (hπ : Below n π) (hx : x < n) :
    ∃ m, 0 < m ∧ m ≤ n / 2 ∧ (CLib.around π ^ m) x = x := by
  obtain ⟨p, hp⟩ : ∃ p, CLib.around π = p := ⟨_, rfl⟩
  have hbelow : Below n p := hp ▸ hπ.around hn
  have hmate {k : Nat} (hk : k < n) : mate k < n := by
    rw [mate]
    split <;> omega
  -- The places and their mates, of which one more than `n / 2` each do not fit.
  let place (i : Fin (n / 2 + 1) × Bool) : Fin n :=
    if i.2 then ⟨mate ((p ^ i.1.val) x), hmate (hbelow.pow_lt hx _)⟩
    else ⟨(p ^ i.1.val) x, hbelow.pow_lt hx _⟩
  obtain ⟨⟨i, b⟩, ⟨j, c⟩, hne, heq⟩ := Fintype.exists_ne_map_eq_of_card_lt place (by
    simp only [Fintype.card_prod, Fintype.card_fin, Fintype.card_bool]
    omega)
  have hval := congrArg Fin.val heq
  have hpow {i j : Nat} (hij : i < j) (hj : j < n / 2 + 1) (h : (p ^ i) x = (p ^ j) x) :
      ∃ m, 0 < m ∧ m ≤ n / 2 ∧ (p ^ m) x = x := by
    refine ⟨j - i, by omega, by omega, (p ^ i).injective ?_⟩
    rw [← mul_apply, ← pow_add, Nat.add_sub_of_le hij.le, h]
  have hone (h : (p ^ i.val) x = (p ^ j.val) x) (hij : i ≠ j) :
      ∃ m, 0 < m ∧ m ≤ n / 2 ∧ (p ^ m) x = x := by
    rcases Nat.lt_or_gt_of_ne (Fin.val_ne_of_ne hij) with hlt | hlt
    · exact hpow hlt j.isLt h
    · exact hpow hlt i.isLt h.symm
  have hnone (i j : Nat) : (p ^ i) x ≠ mate ((p ^ j) x) := by
    intro h
    refine not_sameCycle_mate (π := π) ((p ^ j) x) ?_
    rw [hp, ← h]
    exact ⟨(i : ℤ) - j, by rw [← zpow_natCast, ← mul_apply, ← zpow_add, Int.sub_add_cancel,
      zpow_natCast]⟩
  rw [hp]
  cases b <;> cases c
  · exact hone hval fun h => hne (h ▸ rfl)
  · exact absurd hval (hnone _ _)
  · exact absurd hval.symm (hnone _ _)
  · exact hone (mates.injective hval) fun h => hne (h ▸ rfl)

/-- The least places, as they are found in `w - 1` steps. -/
theorem minUpTo_around {w : Nat} (hn : n = 2 ^ (w + 1)) (hπ : Below n π) (hx : x < n) :
    minUpTo (CLib.around π) w x = cycleMin (CLib.around π) x := by
  have hhalf : n / 2 = 2 ^ w := by rw [hn, Nat.pow_succ, Nat.mul_div_cancel _ (by decide)]
  have heven : n % 2 = 0 := by rw [hn, Nat.pow_succ, Nat.mul_mod_left]
  obtain ⟨m, hm, hle, hfix⟩ := exists_pow_around heven hπ hx
  exact minUpTo_eq hm (hhalf ▸ hle) hfix

end Commutator

/-! ### The factors -/

section Factors

variable (π : Perm Nat)

/-- The exchanges after the middle, of the pairs whose first place has an odd least place. -/
noncomputable def outer : Perm Nat :=
  swapPairs fun j => cycleMin (around π) (2 * j) % 2 = 1

/-- The exchanges before the middle, of the pairs whose first place would go to an odd one. -/
noncomputable def inner : Perm Nat :=
  swapPairs fun j => outer π (π (2 * j)) % 2 = 1

/-- What is left of the permutation. -/
noncomputable def middle : Perm Nat := outer π * π * inner π

variable {π} {n : Nat}

theorem swapPairs_mod (f : Nat → Bool) (k : Nat) :
    swapPairs f k % 2 = if f (k / 2) then 1 - k % 2 else k % 2 := by
  rw [swapPairs_apply]
  split
  · exact mate_mod k
  · rfl

theorem eq_or_eq_mate (k : Nat) : k = 2 * (k / 2) ∨ k = mate (2 * (k / 2)) := by
  rw [mate]
  split <;> omega

theorem outer_mod (k : Nat) : outer π k % 2 = cycleMin (around π) k % 2 := by
  rw [outer, swapPairs_mod]
  simp only [decide_eq_true_eq]
  rcases eq_or_eq_mate k with h | h
  · rw [← h]
    split <;> omega
  · have hmin := cycleMin_mate (π := π) (2 * (k / 2))
    have hmod := mate_mod (cycleMin (around π) (2 * (k / 2)))
    rw [← h] at hmin
    rw [← hmin] at hmod
    have hk : k % 2 = 1 := by
      rw [h, mate_mod]
      omega
    split <;> omega

/-- The places of a pair go to one even and one odd place. -/
theorem outer_mate (k : Nat) : outer π (π (mate k)) % 2 = 1 - outer π (π k) % 2 := by
  have hstep : around π (mate (π k)) = π (mate k) := by
    change π (mate (π.symm (mate (mate (π k))))) = π (mate k)
    rw [mate_mate, π.symm_apply_apply]
  have hcycle : (around π).SameCycle (mate (π k)) (π (mate k)) := ⟨1, by rw [zpow_one, hstep]⟩
  rw [outer_mod, outer_mod, ← cycleMin_congr hcycle, cycleMin_mate, mate_mod]

theorem middle_mod (k : Nat) : middle π k % 2 = k % 2 := by
  have hmid : middle π k = outer π (π (inner π k)) := rfl
  rw [hmid, inner, swapPairs_apply]
  simp only [decide_eq_true_eq]
  have hpair := outer_mate (π := π) (2 * (k / 2))
  rcases eq_or_eq_mate k with h | h
  · rw [← h] at hpair ⊢
    split <;> omega
  · have hk : k % 2 = 1 := by
      rw [h, mate_mod]
      omega
    rw [← h] at hpair
    have hmate : mate k = 2 * (k / 2) := by
      rw [mate]
      split <;> omega
    rw [hmate]
    split <;> omega

/-- Every permutation is a middle that keeps parities between two exchanges of pairs. -/
theorem outer_mul_middle_mul_inner : outer π * middle π * inner π = π := by
  have houter : outer π * outer π = 1 := swapPairs_mul_self _
  have hinner : inner π * inner π = 1 := swapPairs_mul_self _
  rw [middle, mul_assoc, mul_assoc, hinner, mul_one, ← mul_assoc, houter, one_mul]

theorem below_swapPairs {f : Nat → Bool} (hn : n % 2 = 0) (hf : ∀ j, n ≤ 2 * j → f j = false) :
    Below n (swapPairs f) := fun k hk => by
  rw [swapPairs_apply, hf (k / 2) (by omega)]
  rfl

theorem below_outer (hn : n % 2 = 0) (hπ : Below n π) : Below n (outer π) := by
  refine below_swapPairs hn fun j hj => ?_
  rw [cycleMin_of_fixed (hπ.around hn _ hj)]
  exact decide_eq_false (by omega)

theorem below_inner (hn : n % 2 = 0) (hπ : Below n π) : Below n (inner π) := by
  refine below_swapPairs hn fun j hj => ?_
  rw [hπ _ hj, below_outer hn hπ _ hj]
  exact decide_eq_false (by omega)

theorem below_middle (hn : n % 2 = 0) (hπ : Below n π) : Below n (middle π) :=
  ((below_outer hn hπ).mul hπ).mul (below_inner hn hπ)

end Factors

end CLib
