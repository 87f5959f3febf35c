import Mathlib.Data.List.Basic
import Mlonmcu.CLib.MergeExchange

/-! The sorts of `int32_sort.h`, `uint64_sort.h` and `uint16_sort.h`, which have the same loops and
differ in what they do with a pair.  An array is a function of the index. -/

namespace Mlonmcu.McEliece

open CLib Function

/-- `int32_MINMAX`, where `b - a` wraps around. -/
def int32MinMax (a b : BitVec 32) : BitVec 32 × BitVec 32 :=
  let ab := b ^^^ a
  let c := b - a
  let c := c ^^^ (ab &&& (c ^^^ b))
  let c := c.sshiftRight 31
  let c := c &&& ab
  (a ^^^ c, b ^^^ c)

/-- `uint64_MINMAX` and `uint16_MINMAX`. -/
def uintMinMax {w : Nat} (a b : BitVec w) : BitVec w × BitVec w :=
  let c := b - a
  let c := c >>> (w - 1)
  let c := -c
  let c := c &&& (a ^^^ b)
  (a ^^^ c, b ^^^ c)

section Loops

variable {α : Type} (minMax : α → α → α × α)

/-- `MINMAX(x[i], x[j])`. -/
def minMaxAt (i j : Nat) (x : Nat → α) : Nat → α :=
  update (update x i (minMax (x i) (x j)).1) j (minMax (x i) (x j)).2

/-- `while (top < n - top) top += top`. -/
def growTop (n : Nat) : Nat → Nat → Nat
  | 0, top => top
  | fuel + 1, top => if top < n - top then growTop n fuel (top + top) else top

/-- The loop over `r`, which has `x[i + p]` in the variable `a`. -/
def carry (p q i : Nat) (x : Nat → α) : Nat → α :=
  let (a, x) := (halvings p q).foldl (fun (a, x) r =>
    let (a, b) := minMax a (x (i + r))
    (a, update x (i + r) b)) (x (i + p), x)
  update x (i + p) a

/-- The loop over `i` for one `q`.  It goes on where the loop for the last `q` has ended. -/
def carries (n p q i : Nat) (x : Nat → α) : Nat × (Nat → α) :=
  (max i (n - q), (List.range' i (n - q - i)).foldl
    (fun x i => if i &&& p = 0 then carry minMax p q i x else x) x)

/-- The body of the loop over `p`. -/
def sortStage (n top p : Nat) (x : Nat → α) : Nat → α :=
  let x := (List.range (n - p)).foldl
    (fun x i => if i &&& p = 0 then minMaxAt minMax i (i + p) x else x) x
  ((halvings p top).foldl (fun (i, x) q => carries minMax n p q i x) (0, x)).2

/-- The body of each of the sorts. -/
def sortLoops (x : Nat → α) (n : Nat) : Nat → α :=
  if n < 2 then x
  else
    let top := growTop n n 1
    (halvings 0 top).foldl (fun x p => sortStage minMax n top p x) x

end Loops

/-- `int32_sort`. -/
def int32Sort (x : Nat → BitVec 32) (n : Nat) : Nat → BitVec 32 := sortLoops int32MinMax x n

/-- `uint64_sort`. -/
def uint64Sort (x : Nat → BitVec 64) (n : Nat) : Nat → BitVec 64 := sortLoops uintMinMax x n

/-- `uint16_sort`.  The variable `a` has the type `int16_t`, which holds the same bits. -/
def uint16Sort (x : Nat → BitVec 16) (n : Nat) : Nat → BitVec 16 := sortLoops uintMinMax x n

/-! ### Pairs -/

theorem growTop_spec {n fuel k : Nat} (h : n ≤ 2 ^ k + fuel) :
    ∃ m, growTop n fuel (2 ^ k) = 2 ^ m ∧ n ≤ 2 * 2 ^ m := by
  induction fuel generalizing k with
  | zero => exact ⟨k, rfl, by omega⟩
  | succ fuel ih =>
    rw [growTop]
    split
    · have hpow := Nat.two_pow_pos k
      have hdouble : 2 ^ k + 2 ^ k = 2 ^ (k + 1) := by rw [Nat.pow_succ]; omega
      rw [hdouble]
      exact ih (by omega)
    · exact ⟨k, rfl, by omega⟩

/-- The mask of a sign. -/
theorem sshiftRight_eq {w : Nat} (c : BitVec w) :
    c.sshiftRight (w - 1) = if c.msb then BitVec.allOnes w else 0#w := by
  ext i hi
  rw [BitVec.getElem_sshiftRight]
  have hmsb : c.msb = c.getLsbD (w - 1) := by rw [BitVec.msb_eq_getLsbD_last]
  split
  · have hzero : w - 1 + i = w - 1 := by omega
    simp only [hzero]
    rw [← BitVec.getLsbD_eq_getElem, ← hmsb]
    split <;> simp_all
  · split <;> simp_all

/-- The sign of the difference, set right when the subtraction has wrapped around. -/
theorem msb_difference (a b : BitVec 32) :
    (b - a ^^^ ((b ^^^ a) &&& (b - a ^^^ b))).msb = decide (b.toInt < a.toInt) := by
  have ha := BitVec.toInt_lt (x := a)
  have ha' := BitVec.le_toInt (x := a)
  have hb := BitVec.toInt_lt (x := b)
  have hb' := BitVec.le_toInt (x := b)
  have hd : (b - a).toInt = b.toInt - a.toInt ∨ (b - a).toInt = b.toInt - a.toInt + 2 ^ 32 ∨
      (b - a).toInt = b.toInt - a.toInt - 2 ^ 32 := by
    rw [BitVec.toInt_sub, Int.bmod_def]
    split <;> omega
  have hlt := BitVec.toInt_lt (x := b - a)
  have hle := BitVec.le_toInt (x := b - a)
  rw [BitVec.msb_xor, BitVec.msb_and, BitVec.msb_xor, BitVec.msb_xor, BitVec.msb_eq_toInt,
    BitVec.msb_eq_toInt, BitVec.msb_eq_toInt]
  generalize (b - a).toInt = d at *
  generalize a.toInt = x at *
  generalize b.toInt = y at *
  clear a b
  by_cases hx : x < 0 <;> by_cases hy : y < 0 <;> by_cases hz : d < 0 <;>
    by_cases hxy : y < x <;> simp only [hx, hy, hz, hxy] <;> first | decide | (exfalso; omega)

/-- The values trade places under a mask of ones. -/
theorem xor_masked {w : Nat} (a b : BitVec w) (swap : Bool) :
    let c := (if swap then BitVec.allOnes w else 0#w) &&& (a ^^^ b)
    (a ^^^ c, b ^^^ c) = if swap then (b, a) else (a, b) := by
  cases swap with
  | false => simp
  | true =>
    have hleft : a ^^^ (a ^^^ b) = b := by rw [← BitVec.xor_assoc, BitVec.xor_self, BitVec.zero_xor]
    have hright : b ^^^ (a ^^^ b) = a := by
      rw [BitVec.xor_comm a b, ← BitVec.xor_assoc, BitVec.xor_self, BitVec.zero_xor]
    simp [hleft, hright]

theorem int32MinMax_eq (a b : BitVec 32) :
    int32MinMax a b = if b.toInt < a.toInt then (b, a) else (a, b) := by
  have h := xor_masked a b (decide (b.toInt < a.toInt))
  rw [BitVec.xor_comm a b] at h
  simp only [decide_eq_true_eq] at h
  rw [← h, int32MinMax]
  simp only [sshiftRight_eq (w := 32), msb_difference, decide_eq_true_eq]

theorem uintMinMax_eq {w : Nat} {a b : BitVec (w + 1)} (ha : a.toNat < 2 ^ w)
    (hb : b.toNat < 2 ^ w) :
    uintMinMax a b = if b.toNat < a.toNat then (b, a) else (a, b) := by
  have hpow : 2 ^ (w + 1) = 2 ^ w + 2 ^ w := by rw [Nat.pow_succ, Nat.mul_two]
  have hsub : (b - a).toNat / 2 ^ w = if b.toNat < a.toNat then 1 else 0 := by
    rw [BitVec.toNat_sub]
    split
    · rw [Nat.mod_eq_of_lt (by omega)]
      exact Nat.div_eq_of_lt_le (by omega) (by omega)
    · rw [Nat.mod_eq_sub_mod (by omega), Nat.mod_eq_of_lt (by omega)]
      exact Nat.div_eq_of_lt (by omega)
  have hshift : (b - a) >>> w = if b.toNat < a.toNat then 1#(w + 1) else 0#(w + 1) := by
    refine BitVec.eq_of_toNat_eq ?_
    rw [BitVec.toNat_ushiftRight, Nat.shiftRight_eq_div_pow, hsub]
    split <;> simp
  have hmask : -((b - a) >>> w) =
      if decide (b.toNat < a.toNat) then BitVec.allOnes (w + 1) else 0#(w + 1) := by
    rw [hshift]
    split <;> simp_all [BitVec.neg_one_eq_allOnes]
  have h := xor_masked a b (decide (b.toNat < a.toNat))
  rw [← hmask] at h
  simp only [decide_eq_true_eq] at h
  exact h

/-! ### The order of the exchanges -/

section

variable {α : Type} {minMax : α → α → α × α} {n p q i m k : Nat}

theorem minMaxAt_of_ne {i j k : Nat} {x : Nat → α} (hi : k ≠ i) (hj : k ≠ j) :
    minMaxAt minMax i j x k = x k := by
  rw [minMaxAt, update_of_ne hj, update_of_ne hi]

theorem minMaxAt_comm {i j i' j' : Nat} (hi : i ≠ i') (hij : i ≠ j') (hji : j ≠ i') (hj : j ≠ j')
    (x : Nat → α) :
    minMaxAt minMax i j (minMaxAt minMax i' j' x) =
      minMaxAt minMax i' j' (minMaxAt minMax i j x) := by
  rw [minMaxAt, minMaxAt_of_ne hi hij, minMaxAt_of_ne hji hj,
    minMaxAt.eq_1 minMax i' j' (minMaxAt _ _ _ _), minMaxAt_of_ne hi.symm hji.symm,
    minMaxAt_of_ne hij.symm hj.symm]
  ext l
  simp only [minMaxAt, update_apply]
  grind

/-- The variable `a` stands for `x[i + p]`. -/
theorem carry_eq (x : Nat → α) : carry minMax p q i x =
    (halvings p q).foldl (fun x r => minMaxAt minMax (i + p) (i + r) x) x := by
  have hloop (rs : List Nat) (hrs : ∀ r ∈ rs, p < r) (a : α) (x : Nat → α) :
      (let s := rs.foldl (fun (a, x) r =>
        ((minMax a (x (i + r))).1, update x (i + r) (minMax a (x (i + r))).2)) (a, x)
      update s.2 (i + p) s.1) =
      rs.foldl (fun x r => minMaxAt minMax (i + p) (i + r) x) (update x (i + p) a) := by
    induction rs generalizing a x with
    | nil => rfl
    | cons r rs ih =>
      have hne : i + r ≠ i + p := by
        have hlt := hrs r List.mem_cons_self
        omega
      rw [List.foldl_cons, List.foldl_cons]
      refine (ih (fun q hq => hrs q (List.mem_cons_of_mem r hq)) _ _).trans ?_
      rw [minMaxAt, update_self, update_of_ne hne, update_idem, update_comm hne]
  have h := hloop (halvings p q) (fun r hr => (le_of_mem_halvings hr).1) (x (i + p)) x
  rw [update_eq_self] at h
  exact h

/-- The body of the two loops over `i` and `r` for one pair of them. -/
def pairStep (minMax : α → α → α × α) (n p i r : Nat) (x : Nat → α) : Nat → α :=
  if i + r < n ∧ i &&& p = 0 then minMaxAt minMax (i + p) (i + r) x else x

/-- One place after the other, with every `r` that keeps inside the array. -/
theorem carries_eq (x : Nat → α) :
    ((halvings p q).foldl (fun (i, x) q => carries minMax n p q i x) (i, x)).2 =
      (List.range' i (n - i)).foldl
        (fun x i => (halvings p q).foldl (fun x r => pairStep minMax n p i r x) x) x := by
  induction q using Nat.strong_induction_on generalizing i x with
  | _ q ih =>
    rcases Nat.lt_or_ge p q with hlt | hle
    · rw [halvings_of_lt hlt]
      have hsplit : List.range' i (n - i) =
          List.range' i (n - q - i) ++ List.range' (max i (n - q)) (n - max i (n - q)) := by
        rw [show n - i = n - q - i + (n - max i (n - q)) by omega, ← List.range'_append_1]
        congr 1
        rcases Nat.lt_or_ge i (n - q) with h | h
        · rw [show i + (n - q - i) = max i (n - q) by omega]
        · rw [show n - q - i = 0 by omega, show max i (n - q) = i by omega, Nat.add_zero]
      rw [hsplit, List.foldl_append, List.foldl_cons]
      refine (ih (q / 2) (by omega) _).trans ?_
      -- The places below `n - q` use every `r`, and the others no longer use `q`.
      have hfirst : (List.range' i (n - q - i)).foldl
            (fun x i => if i &&& p = 0 then carry minMax p q i x else x) x =
          (List.range' i (n - q - i)).foldl (fun x i => (q :: halvings p (q / 2)).foldl
            (fun x r => pairStep minMax n p i r x) x) x := by
        refine List.foldl_ext _ _ x fun x j hj => ?_
        rw [List.mem_range'_1] at hj
        rw [carry_eq, halvings_of_lt hlt]
        have hin (r : Nat) (hr : r ∈ q :: halvings p (q / 2)) : j + r < n := by
          rcases List.mem_cons.mp hr with rfl | hr
          · omega
          · have hrq := (le_of_mem_halvings hr).2
            omega
        split
        · case isTrue hj0 => exact List.foldl_ext _ _ x fun x r hr => (if_pos ⟨hin r hr, hj0⟩).symm
        · case isFalse hj0 =>
          exact (foldl_of_fixed _ (fun r _ x => if_neg fun h => hj0 h.2) x).symm
      rw [← hfirst]
      refine List.foldl_ext _ _ _ fun x j hj => ?_
      rw [List.mem_range'_1] at hj
      rw [List.foldl_cons, pairStep, if_neg fun h => by omega]
    · rw [halvings_of_le hle]
      exact (foldl_of_fixed _ (fun _ _ _ => rfl) x).symm

theorem sortStage_eq (x : Nat → α) : sortStage minMax n (2 ^ k) (2 ^ m) x =
    stage (minMaxAt minMax) n (2 ^ k) (2 ^ m) x := by
  have hparts : (halvings (2 ^ m) (2 ^ k)).Pairwise fun r q =>
      q < r ∧ 2 * 2 ^ m ∣ r ∧ 2 * 2 ^ m ∣ q := by
    refine (halvings_sorted _ _).imp_of_mem fun hr hq hlt => ⟨hlt, ?_⟩
    have hdvd {r : Nat} (hr : r ∈ halvings (2 ^ m) (2 ^ k)) : 2 * 2 ^ m ∣ r := by
      obtain ⟨l, -, rfl⟩ := exists_two_pow rfl hr
      have hml : m < l := (Nat.pow_lt_pow_iff_right (by decide)).mp (le_of_mem_halvings hr).1
      rw [Nat.mul_comm, ← Nat.pow_succ]
      exact Nat.pow_dvd_pow 2 hml
    exact ⟨hdvd hr, hdvd hq⟩
  rw [sortStage, stage, carries_eq, Nat.sub_zero, ← List.range_eq_range',
    foldl_interchange (R := (· < ·)) List.pairwise_lt_range hparts fun i j r q hij hrq x => ?_]
  · refine List.foldl_ext _ _ _ fun x r hr => ?_
    have hrange : List.range n =
        List.range (n - r) ++ (List.range (n - (n - r))).map (n - r + ·) := by
      rw [← List.range_add, show n - r + (n - (n - r)) = n by omega]
    rw [substage, hrange, List.foldl_append]
    refine (foldl_of_fixed _ (fun i hi x => ?_) _).trans
      (List.foldl_ext _ _ x fun x i hi => ?_)
    · obtain ⟨l, -, rfl⟩ := List.mem_map.mp hi
      exact if_neg fun h => by omega
    · rw [List.mem_range] at hi
      exact if_congr (and_iff_right (by omega)) rfl rfl
  · obtain ⟨hlt, hr, hq⟩ := hrq
    rw [pairStep, pairStep, pairStep, pairStep]
    split <;> split <;> try rfl
    case isTrue.isTrue hi hj =>
      have hodd {a b c : Nat} (ha : a &&& 2 ^ m = 0) (hb : b &&& 2 ^ m = 0) (hc : 2 * 2 ^ m ∣ c) :
          a + 2 ^ m ≠ b + c := fun h =>
        add_self_and_two_pow.mp (h ▸ (add_and_two_pow hc).mpr hb) ha
      exact minMaxAt_comm (by omega) (hodd hi.2 hj.2 hq) (hodd hj.2 hi.2 hr).symm (by omega) x

variable (minMax) in
theorem sortLoops_eq (hn : 2 ≤ n) (x : Nat → α) : ∃ k, n ≤ 2 * 2 ^ k ∧
    sortLoops minMax x n = mergeExchange (minMaxAt minMax) n (2 ^ k) x := by
  obtain ⟨k, htop, hk⟩ := growTop_spec (show n ≤ 2 ^ 0 + n by omega)
  refine ⟨k, hk, ?_⟩
  rw [sortLoops, if_neg (by omega), show (1 : Nat) = 2 ^ 0 from rfl, htop]
  refine List.foldl_ext _ _ x fun x p hp => ?_
  obtain ⟨m, -, rfl⟩ := exists_two_pow rfl hp
  exact sortStage_eq x

end

/-! ### The sorted arrays -/

/-- A `MINMAX` that puts two values in the order of their keys exchanges two places. -/
theorem minMaxAt_eq {α κ : Type} [LinearOrder κ] {key : α → κ} {minMax : α → α → α × α} {i j : Nat}
    {x : Nat → α}
    (h : minMax (x i) (x j) = if key (x j) < key (x i) then (x j, x i) else (x i, x j)) :
    minMaxAt minMax i j x = exchange key i j x := by
  rw [minMaxAt, h, exchange]
  split
  · rw [Equiv.swap_comm]
    exact (Equiv.comp_swap_eq_update j i x).symm
  · rw [update_eq_self, update_eq_self]

/-- The values of an array are in ascending order, and they are the values that it had. -/
structure Sorted {α κ : Type} [LinearOrder κ] (key : α → κ) (n : Nat) (x y : Nat → α) : Prop where
  rearranged : Rearranged n x y
  sorted : ∀ i j, i ≤ j → j < n → key (y i) ≤ key (y j)

theorem sortLoops_sorted {α κ : Type} [LinearOrder κ] {key : α → κ} {P : α → Prop}
    {minMax : α → α → α × α} {n : Nat} {x : Nat → α}
    (h : ∀ a b, P a → P b → minMax a b = if key b < key a then (b, a) else (a, b))
    (hx : ∀ i < n, P (x i)) : Sorted key n x (sortLoops minMax x n) := by
  rcases Nat.lt_or_ge n 2 with hlt | hge
  · rw [sortLoops, if_pos hlt]
    refine ⟨.refl n x, fun i j hij hj => ?_⟩
    obtain rfl : i = j := by omega
    exact le_refl _
  · obtain ⟨k, hk, heq⟩ := sortLoops_eq minMax hge x
    have hnet : mergeExchange (minMaxAt minMax) n (2 ^ k) x =
        mergeExchange (exchange key) n (2 ^ k) x := by
      refine (mergeExchange_rel (R := fun y z => y = z ∧ Rearranged n x z)
        (fun i j y z hij hj hyz => ?_) (2 ^ k) ⟨rfl, .refl n x⟩).1
      obtain ⟨rfl, hrear⟩ := hyz
      have hP := hrear.forall hx
      exact ⟨minMaxAt_eq (h _ _ (hP i (hij.trans hj)) (hP j hj)),
        hrear.trans (rearranged_exchange (hij.trans hj) hj y)⟩
    rw [heq, hnet]
    exact ⟨rearranged_mergeExchange n _ x, fun i j => mergeExchange_sorted hk x⟩

/-- `int32_sort` sorts every array. -/
theorem int32Sort_sorted (x : Nat → BitVec 32) (n : Nat) :
    Sorted BitVec.toInt n x (int32Sort x n) :=
  sortLoops_sorted (P := fun _ => True) (fun a b _ _ => int32MinMax_eq a b) fun _ _ => trivial

/-- `uint64_sort` and `uint16_sort` sort the arrays whose values do not have the high bit, and
change nothing else. -/
theorem uintSorts_sorted (n : Nat) :
    (∀ x : Nat → BitVec 64, (∀ i < n, (x i).toNat < 2 ^ 63) →
      Sorted BitVec.toNat n x (uint64Sort x n)) ∧
    ∀ x : Nat → BitVec 16, (∀ i < n, (x i).toNat < 2 ^ 15) →
      Sorted BitVec.toNat n x (uint16Sort x n) :=
  ⟨fun _ hx => sortLoops_sorted (P := fun a => a.toNat < 2 ^ 63) (fun _ _ => uintMinMax_eq) hx,
    fun _ hx => sortLoops_sorted (P := fun a => a.toNat < 2 ^ 15) (fun _ _ => uintMinMax_eq) hx⟩

theorem uintSorts_sorted_three : Sorted BitVec.toNat 3 (fun i => BitVec.ofNat 64 (9 - i))
    (uint64Sort (fun i => BitVec.ofNat 64 (9 - i)) 3) :=
  (uintSorts_sorted 3).1 _ (by decide)

end Mlonmcu.McEliece
