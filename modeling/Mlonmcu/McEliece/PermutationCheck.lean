import Mathlib.Data.Nat.Bitwise
import Mlonmcu.McEliece.NassimiSahni

/-! The layers of `controlbits.c` and `benes.c`, and the loop of `controlbitsfrompermutation`, which
ends when the layers of the bits that it has stored make the permutation. -/

namespace Mlonmcu.McEliece

open CLib Function Equiv.Perm

/-- The loops of both functions `layer`, which count the pairs of places at the distance `2 ^ s` and
give each pair new values. -/
def layerLoops {α : Type} (pair : Nat → α → α → α × α) (s n : Nat) (p : Nat → α) : Nat → α :=
  let stride := 1 <<< s
  ((List.range' 0 ((n + stride * 2 - 1) / (stride * 2)) (stride * 2)).foldl (fun (p, index) i =>
    (List.range stride).foldl (fun (p, index) j =>
      let (x, y) := pair index (p (i + j)) (p (i + j + stride))
      (update (update p (i + j) x) (i + j + stride) y, index + 1)) (p, index)) (p, 0)).1

section Layers

variable {α : Type} {pair : Nat → α → α → α × α} {s n k : Nat} {p : Nat → α}

/-- What a place holds after its pair. -/
def paired (pair : Nat → α → α → α × α) (s : Nat) (p : Nat → α) (k : Nat) : α :=
  if k / 2 ^ s % 2 = 0 then (pair (pairIndex s k) (p k) (p (k + 2 ^ s))).1
  else (pair (pairIndex s k) (p (k - 2 ^ s)) (p k)).2

/-- The array when the first pairs have been visited. -/
def pairedUpTo (pair : Nat → α → α → α × α) (s : Nat) (p : Nat → α) (index k : Nat) : α :=
  if pairIndex s k < index then paired pair s p k else p k

/-- The places of a pair. -/
theorem pairIndex_eq {b j : Nat} (hj : j < 2 ^ s) :
    pairIndex s k = b * 2 ^ s + j ↔ k = b * (2 ^ s * 2) + j ∨ k = b * (2 ^ s * 2) + j + 2 ^ s := by
  have hpow := Nat.two_pow_pos s
  have hsplit := Nat.div_add_mod k (2 ^ s)
  have hmod := Nat.mod_lt k hpow
  obtain ⟨q, hq⟩ : ∃ q, k / 2 ^ s = q := ⟨_, rfl⟩
  obtain ⟨r, hr⟩ : ∃ r, k % 2 ^ s = r := ⟨_, rfl⟩
  rw [hq, hr] at hsplit
  rw [hr] at hmod
  obtain ⟨h, hh⟩ : ∃ h, 2 ^ s = h := ⟨_, rfl⟩
  rw [pairIndex, hq, hr, hh]
  rw [hh] at hsplit hmod hj hpow
  have hunique {a c x y : Nat} (hx : x < h) (hy : y < h) (heq : h * a + x = h * c + y) :
      a = c ∧ x = y := by
    have hdiv := congrArg (· / h) heq
    have hmod := congrArg (· % h) heq
    simp only [Nat.mul_add_div hpow, Nat.mul_add_mod, Nat.div_eq_of_lt hx, Nat.div_eq_of_lt hy,
      Nat.mod_eq_of_lt hx, Nat.mod_eq_of_lt hy, Nat.add_zero] at hdiv hmod
    exact ⟨hdiv, hmod⟩
  constructor
  · intro heq
    obtain ⟨hb, rfl⟩ := hunique hmod hj (heq.trans (by rw [Nat.mul_comm b]))
    rcases Nat.mod_two_eq_zero_or_one q with h2 | h2
    · left
      rw [← hsplit, ← hb, show q = q / 2 * 2 by omega, Nat.mul_div_cancel _ (by decide)]
      ring
    · right
      rw [← hsplit, ← hb, show q = q / 2 * 2 + 1 by omega,
        show (q / 2 * 2 + 1) / 2 = q / 2 by omega]
      ring
  · rintro (rfl | rfl)
    · obtain ⟨rfl, rfl⟩ := hunique (c := 2 * b) hmod hj (hsplit.trans (by ring))
      rw [Nat.mul_div_cancel_left _ (by decide), Nat.mul_comm]
    · obtain ⟨rfl, rfl⟩ := hunique (c := 2 * b + 1) hmod hj (hsplit.trans (by ring))
      rw [show (2 * b + 1) / 2 = b by omega, Nat.mul_comm]

theorem pairedUpTo_step {b j : Nat} (hj : j < 2 ^ s) (index : Nat)
    (hindex : index = b * 2 ^ s + j) :
    let i := b * (2 ^ s * 2)
    let g := pairedUpTo pair s p index
    let xy := pair index (g (i + j)) (g (i + j + 2 ^ s))
    update (update g (i + j) xy.1) (i + j + 2 ^ s) xy.2 = pairedUpTo pair s p (index + 1) := by
  intro i g xy
  have hpow := Nat.two_pow_pos s
  have hlow : pairIndex s (i + j) = index := hindex ▸ (pairIndex_eq hj).mpr (.inl rfl)
  have hhigh : pairIndex s (i + j + 2 ^ s) = index := hindex ▸ (pairIndex_eq hj).mpr (.inr rfl)
  have hxy : xy = pair index (p (i + j)) (p (i + j + 2 ^ s)) := by
    simp only [xy, g, pairedUpTo, hlow, hhigh, Nat.lt_irrefl, if_false]
  have hdiv : (i + j) / 2 ^ s = 2 * b := by
    rw [show i + j = 2 ^ s * (2 * b) + j by simp only [i]; ring, Nat.mul_add_div hpow,
      Nat.div_eq_of_lt hj, Nat.add_zero]
  funext k
  by_cases hk : k = i + j + 2 ^ s
  · have hodd : (i + j + 2 ^ s) / 2 ^ s % 2 = 1 := by
      rw [Nat.add_div_right _ hpow, hdiv]
      omega
    rw [hk, update_self, pairedUpTo, hhigh, if_pos (Nat.lt_succ_self _), paired, hhigh,
      if_neg (by omega), Nat.add_sub_cancel, hxy]
  · rw [update_of_ne hk]
    by_cases hk' : k = i + j
    · rw [hk', update_self, pairedUpTo, hlow, if_pos (Nat.lt_succ_self _), paired, hlow, hdiv,
        if_pos (by omega), hxy]
    · have hne : pairIndex s k ≠ index := fun h =>
        ((pairIndex_eq hj).mp (h.trans hindex)).elim hk' hk
      have hiff : pairIndex s k < index + 1 ↔ pairIndex s k < index := by omega
      rw [update_of_ne hk', pairedUpTo, if_congr hiff rfl rfl]
      rfl

theorem layerLoops_eq (m : Nat) : layerLoops pair s (m * (2 ^ s * 2)) p =
    pairedUpTo pair s p (m * 2 ^ s) := by
  have hpow := Nat.two_pow_pos s
  have hinner (b c : Nat) (hc : c ≤ 2 ^ s) :
      (List.range c).foldl (fun (p, index) j =>
        ((update (update p (b * (2 ^ s * 2) + j)
          (pair index (p (b * (2 ^ s * 2) + j)) (p (b * (2 ^ s * 2) + j + 2 ^ s))).1)
          (b * (2 ^ s * 2) + j + 2 ^ s)
          (pair index (p (b * (2 ^ s * 2) + j)) (p (b * (2 ^ s * 2) + j + 2 ^ s))).2, index + 1) :
            (Nat → α) × Nat)) (pairedUpTo pair s p (b * 2 ^ s), b * 2 ^ s) =
      (pairedUpTo pair s p (b * 2 ^ s + c), b * 2 ^ s + c) := by
    induction c with
    | zero => rfl
    | succ c ih =>
      rw [List.range_succ, List.foldl_append, ih (by omega), List.foldl_cons, List.foldl_nil]
      exact Prod.ext (pairedUpTo_step (by omega) _ rfl) rfl
  have houter (b : Nat) : (List.range' 0 b (2 ^ s * 2)).foldl (fun (p, index) i =>
      (List.range (2 ^ s)).foldl (fun (p, index) j =>
        ((update (update p (i + j) (pair index (p (i + j)) (p (i + j + 2 ^ s))).1)
          (i + j + 2 ^ s) (pair index (p (i + j)) (p (i + j + 2 ^ s))).2, index + 1) :
            (Nat → α) × Nat)) (p, index)) (p, 0) =
      (pairedUpTo pair s p (b * 2 ^ s), b * 2 ^ s) := by
    induction b with
    | zero => exact Prod.ext (funext fun k => (if_neg (by omega)).symm) (Nat.zero_mul _).symm
    | succ b ih =>
      rw [List.range'_concat, List.foldl_append, ih, List.foldl_cons, List.foldl_nil, Nat.zero_add,
        Nat.mul_comm (2 ^ s * 2)]
      refine (hinner b (2 ^ s) (Nat.le_refl _)).trans ?_
      rw [← Nat.succ_mul]
  have hcount : (m * (2 ^ s * 2) + 2 ^ s * 2 - 1) / (2 ^ s * 2) = m := by
    rw [Nat.add_sub_assoc (by omega), Nat.mul_comm, Nat.mul_add_div (by omega),
      Nat.div_eq_of_lt (by omega), Nat.add_zero]
  rw [layerLoops]
  simp only [Nat.one_shiftLeft, hcount]
  exact congrArg Prod.fst (houter m)

theorem mateAt_eq (s k : Nat) :
    mateAt s k = if k / 2 ^ s % 2 = 0 then k + 2 ^ s else k - 2 ^ s := by
  have hsplit := Nat.div_add_mod k (2 ^ s)
  rw [mateAt, mate]
  split
  · rw [Nat.mul_add, Nat.mul_one]
    omega
  · case isFalse hodd =>
    obtain ⟨q, hq⟩ : ∃ q, k / 2 ^ s = q + 1 :=
      Nat.exists_eq_succ_of_ne_zero fun h => hodd (by rw [h])
    rw [hq, Nat.mul_add, Nat.mul_one] at hsplit
    rw [hq, Nat.add_sub_cancel]
    omega

/-- The places trade their values where the bit of the pair is set. -/
theorem layerLoops_exchange {b : Nat → Bool}
    (hpair : ∀ i x y, pair i x y = if b i then (y, x) else (x, y)) (m : Nat) :
    layerLoops pair s (m * (2 ^ s * 2)) p = p ∘ layerPerm s (firstBits (m * 2 ^ s) b) := by
  rw [layerLoops_eq]
  funext k
  rw [comp_apply, layerPerm_apply, firstBits, pairedUpTo]
  by_cases hk : pairIndex s k < m * 2 ^ s
  · rw [if_pos hk, decide_eq_true hk, Bool.true_and, mateAt_eq, paired]
    by_cases heven : k / 2 ^ s % 2 = 0
    · rw [if_pos heven, if_pos heven, hpair]
      split <;> rfl
    · rw [if_neg heven, if_neg heven, hpair]
      split <;> rfl
  · rw [if_neg hk, decide_eq_false hk, Bool.false_and]
    rfl

end Layers

/-! ### The stored bits -/

/-- The bit at a position of `out`. -/
def bitAt (m : Memory) (out pos : Nat) : Bool := (m (out + pos / 8)).toNat.testBit (pos % 8)

section Stored

variable {out : Nat} {b : Nat → Bool} {S T : Nat → Prop} {c c' c'' : Cells}

/-- The bits at some positions have been changed by the bits `b`, and no others. -/
def Flipped (out : Nat) (b : Nat → Bool) (S : Nat → Prop) (c c' : Cells) : Prop :=
  ∀ q, (S q → bitAt c'.mem out q = (bitAt c.mem out q ^^ b q)) ∧
    (¬S q → bitAt c'.mem out q = bitAt c.mem out q)

theorem Flipped.trans (h : Flipped out b S c c') (h' : Flipped out b T c' c'')
    (hdisjoint : ∀ q, S q → ¬T q) : Flipped out b (fun q => S q ∨ T q) c c'' := by
  intro q
  obtain ⟨hin, hout⟩ := h q
  obtain ⟨hin', hout'⟩ := h' q
  refine ⟨fun hST => ?_, fun hST => ?_⟩
  · rcases hST with hS | hT
    · rw [hout' (hdisjoint q hS), hin hS]
    · rw [hin' hT, hout fun hS => hdisjoint q hS hT]
  · rw [hout' fun hT => hST (.inr hT), hout fun hS => hST (.inl hS)]

theorem Flipped.congr (h : Flipped out b S c c') (hST : ∀ q, T q ↔ S q) : Flipped out b T c c' :=
  fun q => ⟨fun hT => (h q).1 ((hST q).mp hT), fun hT => (h q).2 fun hS => hT ((hST q).mpr hS)⟩

theorem testBit_flip (x : UInt8) (v : Bool) {i j : Nat} (hi : i < 8) (hj : j < 8) :
    (x ^^^ NassimiSahni.bitByte v <<< UInt8.ofNat i).toNat.testBit j =
      (x.toNat.testBit j ^^ (v && decide (j = i))) := by
  have hbit : ∀ v : Bool, ∀ i < 8, ∀ j < 8,
      (NassimiSahni.bitByte v <<< UInt8.ofNat i).toNat.testBit j = (v && decide (j = i)) := by
    decide
  rw [UInt8.toNat_xor, Nat.testBit_xor, hbit v i hi j hj]

theorem flipped_flipBit (b : Nat → Bool) (pos : Nat) (c : Cells) :
    Flipped out b (· = pos) c (flipBit out pos (NassimiSahni.bitByte (b pos)) c) := by
  have hmem : (flipBit out pos (NassimiSahni.bitByte (b pos)) c).mem = update c.mem (out + pos / 8)
      (c.mem (out + pos / 8) ^^^ NassimiSahni.bitByte (b pos) <<< UInt8.ofNat (pos % 8)) := rfl
  intro q
  by_cases hbyte : q / 8 = pos / 8
  · have hbit : bitAt (flipBit out pos (NassimiSahni.bitByte (b pos)) c).mem out q =
        (bitAt c.mem out q ^^ (b pos && decide (q % 8 = pos % 8))) := by
      rw [bitAt, hmem, hbyte, update_self, testBit_flip _ _ (by omega) (by omega), bitAt, hbyte]
    refine ⟨fun h => ?_, fun h => ?_⟩
    · rw [hbit, h, decide_eq_true rfl, Bool.and_true]
    · rw [hbit, decide_eq_false (by omega), Bool.and_false, Bool.xor_false]
  · have hbit : bitAt (flipBit out pos (NassimiSahni.bitByte (b pos)) c).mem out q =
        bitAt c.mem out q := by
      rw [bitAt, hmem, update_of_ne (by omega), bitAt]
    exact ⟨fun h => absurd (h ▸ rfl) hbyte, fun _ => hbit⟩

/-- The positions at some numbers of steps. -/
def atSteps (P : Nat → Prop) (pos step q : Nat) : Prop := ∃ i, P i ∧ q = pos + step * i

theorem Flipped.steps {P P' : Nat → Prop} {pos step : Nat} (hstep : 0 < step)
    (h : Flipped out b (atSteps P pos step) c c') (h' : Flipped out b (atSteps P' pos step) c' c'')
    (hdisjoint : ∀ i, P i → ¬P' i) :
    Flipped out b (atSteps (fun i => P i ∨ P' i) pos step) c c'' := by
  refine (h.trans h' ?_).congr fun q => ?_
  · rintro q ⟨i, hi, rfl⟩ ⟨j, hj, heq⟩
    rw [Nat.add_left_cancel_iff, Nat.mul_right_inj hstep.ne'] at heq
    exact hdisjoint i hi (heq ▸ hj)
  · simp only [atSteps, or_and_right, exists_or]

theorem atSteps_iff {P : Nat → Prop} {a d q : Nat} (pos step : Nat) :
    atSteps P (pos + step * a) (step * d) q ↔
      atSteps (fun i => ∃ k, P k ∧ i = a + d * k) pos step q := by
  constructor
  · rintro ⟨k, hk, rfl⟩
    exact ⟨a + d * k, ⟨k, hk, rfl⟩, by ring⟩
  · rintro ⟨i, ⟨k, hk, rfl⟩, rfl⟩
    exact ⟨k, hk, by ring⟩

variable (out b) in
theorem flipped_flipBits {step : Nat} (hstep : 0 < step) (m pos : Nat) (c : Cells) :
    Flipped out b (atSteps (· < m) pos step) c
      (flipBits out (fun q => NassimiSahni.bitByte (b q)) step m pos c).1 := by
  induction m generalizing pos c with
  | zero => exact fun q => ⟨fun ⟨_, hi, _⟩ => absurd hi (Nat.not_lt_zero _), fun _ => rfl⟩
  | succ m ih =>
    rw [flipBits]
    refine ((flipped_flipBit b pos c).trans (ih (pos + step) _) ?_).congr fun q => ⟨?_, ?_⟩
    · rintro q rfl ⟨i, -, hi⟩
      omega
    · rintro ⟨i, hi, rfl⟩
      cases i with
      | zero => exact .inl rfl
      | succ i => exact .inr ⟨i, by omega, by rw [Nat.mul_succ]; omega⟩
    · rintro (rfl | ⟨i, hi, rfl⟩)
      · exact ⟨0, Nat.succ_pos m, rfl⟩
      · exact ⟨i + 1, by omega, by rw [Nat.mul_succ]; omega⟩

variable (out b) in
/-- `cbrecursion` changes each of its `(2 * w - 1) * 2 ^ (w - 1)` bits once. -/
theorem flipped_storeCbrecursion {w step : Nat} (hw : 0 < w) (hstep : 0 < step) (pos : Nat)
    (c : Cells) :
    Flipped out b (atSteps (· < (2 * w - 1) * 2 ^ (w - 1)) pos step) c
      (storeCbrecursion out (fun q => NassimiSahni.bitByte (b q)) w pos step (2 ^ w) c) := by
  induction w generalizing pos step c with
  | zero => exact absurd hw (Nat.lt_irrefl 0)
  | succ w ih =>
    cases w with
    | zero =>
      refine (flipped_flipBit b pos c).congr fun q => ⟨?_, ?_⟩
      · rintro ⟨i, hi, rfl⟩
        obtain rfl : i = 0 := by omega
        rfl
      · rintro rfl
        exact ⟨0, by decide, rfl⟩
    | succ w =>
      obtain ⟨m, hm⟩ : ∃ m, 2 ^ (w + 1) = m := ⟨_, rfl⟩
      obtain ⟨r, hr⟩ : ∃ r, (2 * w + 1) * 2 ^ w = r := ⟨_, rfl⟩
      have hhalf : 2 ^ (w + 2) / 2 = m := by
        rw [pow_succ, Nat.mul_div_cancel _ (by decide), hm]
      have hlast : (2 * w + 2) * m = m + 2 * r := by
        rw [← hm, ← hr]
        ring
      have hbits : (2 * (w + 1 + 1) - 1) * 2 ^ (w + 1) = 2 * m + 2 * r := by
        rw [hm, show 2 * (w + 1 + 1) - 1 = 2 * w + 2 + 1 by omega, Nat.add_mul, hlast]
        omega
      have hrest : (2 * (w + 1) - 1) * 2 ^ (w + 1 - 1) = r := by
        rw [Nat.add_sub_cancel, show 2 * (w + 1) - 1 = 2 * w + 1 by omega, hr]
      obtain ⟨c₁, c₂, hc₁, hc₂, heq⟩ := storeCbrecursion_eq out
        (fun q => NassimiSahni.bitByte (b q)) w pos step (2 ^ (w + 2)) c
      rw [hhalf] at hc₁ hc₂ heq
      rw [hlast] at hc₂
      rw [hrest, hm] at ih
      have hfirst := flipped_flipBits out b hstep m pos c
      have hsecond : Flipped out b (atSteps (fun i => ∃ k, k < m ∧ i = m + 2 * r + 1 * k) pos step)
          c₁ c₂ := by
        rw [hc₂]
        refine (flipped_flipBits out b hstep m (pos + step * (m + 2 * r)) c₁).congr fun q => ?_
        have h := atSteps_iff (P := (· < m)) (a := m + 2 * r) (d := 1) (q := q) pos step
        rw [Nat.mul_one] at h
        exact h.symm
      rw [← hc₁] at hfirst
      have hthird := (ih (Nat.succ_pos w) (show 0 < step * 2 by omega) (pos + step * m) c₂).congr
        fun q => (atSteps_iff pos step).symm
      have hfourth := (ih (Nat.succ_pos w) (show 0 < step * 2 by omega) (pos + step * (m + 1))
        (storeCbrecursion out (fun q => NassimiSahni.bitByte (b q)) (w + 1) (pos + step * m)
          (step * 2) m c₂)).congr fun q => (atSteps_iff pos step).symm
      rw [Nat.add_sub_cancel, hbits, show w + 1 + 1 = w + 2 from rfl, heq, Nat.add_assoc pos,
        ← Nat.mul_succ]
      refine (((hfirst.steps hstep hsecond ?_).steps hstep hthird ?_).steps hstep hfourth ?_).congr
        fun q => exists_congr fun i => and_congr_left fun _ => ⟨fun hi => ?_, ?_⟩
      · rintro i hi ⟨k, hk, rfl⟩
        omega
      · rintro i (hi | ⟨k, hk, rfl⟩) ⟨l, hl, heq⟩ <;> omega
      · rintro i ((hi | ⟨k, hk, rfl⟩) | ⟨k, hk, rfl⟩) ⟨l, hl, heq⟩ <;> omega
      · rcases Nat.lt_or_ge i m with h | h
        · exact .inl (.inl (.inl h))
        · rcases Nat.lt_or_ge i (m + 2 * r) with h' | h'
          · rcases Nat.mod_two_eq_zero_or_one (i - m) with h2 | h2
            · exact .inl (.inr ⟨(i - m) / 2, by omega, by omega⟩)
            · exact .inr ⟨(i - m) / 2, by omega, by omega⟩
          · exact .inl (.inl (.inr ⟨i - (m + 2 * r), by omega, by omega⟩))
      · rintro (((hi | ⟨k, hk, rfl⟩) | ⟨k, hk, rfl⟩) | ⟨k, hk, rfl⟩) <;> omega

end Stored

/-! ### The check -/

namespace NassimiSahni

/-- `layer` of `controlbits.c`. -/
def layer (m : Memory) (cb s n : Nat) (p : Nat → BitVec 16) : Nat → BitVec 16 :=
  layerLoops (fun index x y =>
    let d := x ^^^ y
    let bit := BitVec.ofNat 16 (m (cb + index / 8) >>> UInt8.ofNat (index % 8) &&& 1).toNat
    let mask := -bit
    let d := d &&& mask
    (x ^^^ d, y ^^^ d)) s n p

/-- `pi_test`, the layers of the bits that are stored. -/
def piTest (m : Memory) (out w n : Nat) : Nat → BitVec 16 :=
  let next := fun (p, ptr) i => (layer m ptr i n p, ptr + (n >>> 4))
  let (p, ptr) := (List.range w).foldl next (fun i => BitVec.ofNat 16 i, out)
  ((List.range (w - 1)).reverse.foldl next (p, ptr)).1

/-- The places where two arrays differ, as `diff`. -/
def difference (pi test : Nat → BitVec 16) (n : Nat) : BitVec 16 :=
  (List.range n).foldl (fun diff i => diff ||| (pi i ^^^ test i)) 0

/-- `controlbitsfrompermutation`, with a bound on the rounds of its loop. -/
def controlbitsfrompermutation (out : Nat) (pi : Nat → BitVec 16) (w n : Nat) :
    Nat → Cells → Option Cells
  | 0, _ => none
  | rounds + 1, c =>
    let c := c.write out (List.replicate (controlBytes w n) 0)
    let c := cbrecursion out w 0 1 pi n c
    let diff := difference pi (piTest c.mem out w n) n
    let diff := nonzeroMask diff
    if diff = 0 then some c else controlbitsfrompermutation out pi w n rounds c

variable {out w n : Nat} {m : Memory} {pi : Nat → BitVec 16} {π : Equiv.Perm Nat}

theorem bit_eq (x : UInt8) {i : Nat} (hi : i < 8) :
    (x >>> UInt8.ofNat i &&& 1).toNat = (x.toNat.testBit i).toNat := by
  have hshift : (UInt8.ofNat i).toNat % 8 = i := by
    rw [UInt8.toNat_ofNat']
    omega
  rw [UInt8.toNat_and, UInt8.toNat_shiftRight, hshift, Nat.toNat_testBit, Nat.shiftRight_eq_div_pow]
  exact Nat.and_one_is_mod _

theorem layer_eq {s : Nat} (hs : s < w) (hw : 4 ≤ w) (t : Nat) (p : Nat → BitVec 16) :
    layer m (out + t * (2 ^ w >>> 4)) s (2 ^ w) p =
      p ∘ layerPerm s (firstBits (2 ^ (w - 1)) fun i => bitAt m out (2 ^ (w - 1) * t + i)) := by
  obtain ⟨k, hk⟩ : ∃ k, w = k + 4 := ⟨w - 4, by omega⟩
  have hbytes : 2 ^ w >>> 4 = 2 ^ k := by
    rw [Nat.shiftRight_eq_div_pow, hk, Nat.pow_add, Nat.mul_div_cancel _ (by decide)]
  have hbits : 2 ^ (w - 1) = 8 * 2 ^ k := by
    rw [hk, show k + 4 - 1 = k + 3 by omega, Nat.pow_add, Nat.mul_comm]
  have hpairs : 2 ^ (w - 1 - s) * 2 ^ s = 2 ^ (w - 1) := by rw [← Nat.pow_add]; congr 1; omega
  have hn : 2 ^ w = 2 ^ (w - 1 - s) * (2 ^ s * 2) := by
    rw [← Nat.mul_assoc, hpairs, ← Nat.pow_succ]
    congr 1
    omega
  rw [layer, hbytes]
  nth_rewrite 1 [hn]
  rw [← hpairs]
  refine layerLoops_exchange (fun i x y => ?_) _
  have hbyte : bitAt m out (2 ^ (w - 1 - s) * 2 ^ s * t + i) =
      (m (out + t * 2 ^ k + i / 8)).toNat.testBit (i % 8) := by
    rw [bitAt, hpairs, hbits, show (8 * 2 ^ k * t + i) / 8 = t * 2 ^ k + i / 8 by
      rw [Nat.mul_assoc, Nat.mul_add_div (by decide), Nat.mul_comm t],
      show (8 * 2 ^ k * t + i) % 8 = i % 8 by rw [Nat.mul_assoc, Nat.mul_add_mod], Nat.add_assoc]
  have hmask (b : Bool) : -BitVec.ofNat 16 b.toNat = if b then BitVec.allOnes 16 else 0#16 := by
    cases b <;> rfl
  have h := xor_masked x y (bitAt m out (2 ^ (w - 1 - s) * 2 ^ s * t + i))
  rw [hbyte] at h ⊢
  simp only [bit_eq _ (Nat.mod_lt i (show 0 < 8 by decide)), hmask]
  rw [BitVec.and_comm]
  exact h

/-- The layers one after the other are the permutation that they make. -/
theorem layers_foldl (m : Memory) (out : Nat) (hw : 4 ≤ w) (ss : List Nat) (hss : ∀ s ∈ ss, s < w)
    (t : Nat) (p : Nat → BitVec 16) :
    ss.foldl (fun (p, ptr) i => (layer m ptr i (2 ^ w) p, ptr + (2 ^ w >>> 4)))
        (p, out + t * (2 ^ w >>> 4)) =
      (p ∘ layers (2 ^ (w - 1)) (bitAt m out) ss (2 ^ (w - 1) * t),
        out + (t + ss.length) * (2 ^ w >>> 4)) := by
  induction ss generalizing t p with
  | nil => rfl
  | cons s ss ih =>
    rw [List.foldl_cons]
    dsimp only
    rw [layer_eq (hss s List.mem_cons_self) hw, Nat.add_assoc, ← Nat.succ_mul,
      ih (fun r hr => hss r (List.mem_cons_of_mem s hr)), List.length_cons, layers, Nat.mul_succ]
    refine Prod.ext rfl ?_
    dsimp only
    rw [Nat.succ_add, Nat.add_succ]

theorem piTest_eq (hw : 4 ≤ w) (i : Nat) : piTest m out w (2 ^ w) i =
    BitVec.ofNat 16 (layers (2 ^ (w - 1)) (bitAt m out) (stages w) 0 i) := by
  have hup := layers_foldl m out hw (List.range w)
    (fun s hs => List.mem_range.mp hs) 0 fun i => BitVec.ofNat 16 i
  have hdown := layers_foldl m out hw (List.range (w - 1)).reverse
    (fun s hs => by
      have h := List.mem_range.mp (List.mem_reverse.mp hs)
      omega) w ((fun i => BitVec.ofNat 16 i) ∘ layers (2 ^ (w - 1)) (bitAt m out) (List.range w) 0)
  rw [Nat.zero_mul, Nat.add_zero, Nat.mul_zero, List.length_range, Nat.zero_add] at hup
  rw [piTest]
  simp only [hup, hdown]
  rw [stages, layers_append, List.length_range, Nat.zero_add]
  rfl

theorem difference_eq_zero (pi test : Nat → BitVec 16) (n : Nat) :
    difference pi test n = 0 ↔ ∀ i < n, pi i = test i := by
  induction n with
  | zero => exact ⟨fun _ i hi => absurd hi (Nat.not_lt_zero i), fun _ => rfl⟩
  | succ n ih =>
    have hsucc : difference pi test (n + 1) = difference pi test n ||| (pi n ^^^ test n) := by
      rw [difference, List.range_succ, List.foldl_append]
      rfl
    have hor {x y : BitVec 16} : x ||| y = 0 ↔ x = 0 ∧ y = 0 := BitVec.or_eq_zero_iff
    have hxor : pi n ^^^ test n = 0 ↔ pi n = test n := BitVec.xor_eq_zero_iff
    rw [hsucc, hor, ih, hxor]
    exact Nat.forall_lt_succ_right.symm

theorem bitAt_zeros {pos len : Nat} (hpos : pos < 8 * len) (c : Cells) :
    bitAt (c.write out (List.replicate len 0)).mem out pos = false := by
  have hlt : pos / 8 < len := by omega
  rw [bitAt, Cells.write_mem, if_pos (Nat.le_add_right _ _), Nat.add_sub_cancel_left,
    List.getElem?_replicate, if_pos hlt]
  exact Nat.zero_testBit _

variable (out) in
/-- The layers of the bits of a round make the permutation. -/
theorem round_makes (hw : 0 < w) (hw' : w ≤ 14) (hπ : Below (2 ^ w) π) (hpi : Holds (2 ^ w) pi π)
    (c : Cells) :
    ∃ c', cbrecursion out w 0 1 pi (2 ^ w)
        (c.write out (List.replicate (controlBytes w (2 ^ w)) 0)) =
        c' ∧
      Cells.StoredIn c c' out (out + controlBytes w (2 ^ w)) ∧
      layers (2 ^ (w - 1)) (bitAt c'.mem out) (stages w) 0 = π := by
  obtain ⟨v, rfl⟩ : ∃ v, w = v + 1 := ⟨w - 1, by omega⟩
  have hround : cbrecursion out (v + 1) 0 1 pi (2 ^ (v + 1))
        (c.write out (List.replicate (controlBytes (v + 1) (2 ^ (v + 1))) 0)) =
      controlbitsRound out (fun q => bitByte (controlBit (v + 1) π q)) (v + 1) (2 ^ (v + 1)) c :=
    cbrecursion_stores hw' hπ hpi (fun i _ => by rw [Nat.zero_add, Nat.one_mul]) _
  have hstored := storedIn_storeControlbits out (fun q => bitByte (controlBit (v + 1) π q)) hw 0 c
  refine ⟨_, hround, hstored, ?_⟩
  have hflipped := flipped_storeCbrecursion out (controlBit (v + 1) π) hw Nat.one_pos 0
    (c.write out (List.replicate (controlBytes (v + 1) (2 ^ (v + 1))) 0))
  rw [Nat.add_sub_cancel] at hflipped ⊢
  have hbits {i : Nat} (hi : i < (2 * (v + 1) - 1) * 2 ^ v) :
      i < 8 * controlBytes (v + 1) (2 ^ (v + 1)) := by
    rw [controlBytes, Nat.pow_succ, ← Nat.mul_assoc, Nat.mul_div_cancel _ (by decide)]
    omega
  rw [← network_eq_layers, network_congr fun i hi => ?_, network_controlBit hπ]
  rw [controlbitsRound, (hflipped i).1 ⟨i, hi, by rw [Nat.zero_add, Nat.one_mul]⟩,
    bitAt_zeros (hbits hi), Bool.false_xor]

/-- `controlbitsfrompermutation` ends with a round whose layers make the permutation. -/
theorem controlbits_of_round (hw : 4 ≤ w) (hw' : w ≤ 14) (hπ : Below (2 ^ w) π)
    (hpi : Holds (2 ^ w) pi π) {c c' : Cells}
    (hround : cbrecursion out w 0 1 pi (2 ^ w)
      (c.write out (List.replicate (controlBytes w (2 ^ w)) 0)) = c')
    (hmade : layers (2 ^ (w - 1)) (bitAt c'.mem out) (stages w) 0 = π) (rounds : Nat) :
    controlbitsfrompermutation out pi w (2 ^ w) (rounds + 1) c = some c' := by
  have hle : 2 ^ w ≤ 2 ^ 14 := Nat.pow_le_pow_right (by decide) hw'
  have hsame : difference pi (piTest c'.mem out w (2 ^ w)) (2 ^ w) = 0 := by
    refine (difference_eq_zero _ _ _).mpr fun i hi => BitVec.eq_of_toNat_eq ?_
    have hlt := hπ.lt hi
    rw [piTest_eq hw, hmade, hpi i hi, BitVec.toNat_ofNat, Nat.mod_eq_of_lt (by omega)]
  rw [controlbitsfrompermutation, hround]
  simp only [hsame, nonzeroMask_eq]
  exact if_pos (by decide)

variable (out) in
/-- `controlbitsfrompermutation` ends after its first round, and the layers of the bits that it has
stored make the permutation. -/
theorem controlbits_make (hw : 4 ≤ w) (hw' : w ≤ 14) (hπ : Below (2 ^ w) π)
    (hpi : Holds (2 ^ w) pi π) (rounds : Nat) (c : Cells) :
    ∃ c', controlbitsfrompermutation out pi w (2 ^ w) (rounds + 1) c = some c' ∧
      Cells.StoredIn c c' out (out + controlBytes w (2 ^ w)) ∧
      layers (2 ^ (w - 1)) (bitAt c'.mem out) (stages w) 0 = π := by
  obtain ⟨c', hround, hstored, hmade⟩ := round_makes out (by omega) hw' hπ hpi c
  exact ⟨c', controlbits_of_round hw hw' hπ hpi hround hmade rounds, hstored, hmade⟩

theorem controlbits_make_mates :
    ∃ c', controlbitsfrompermutation 3 (fun x => BitVec.ofNat 16 (x ^^^ 1)) 4 (2 ^ 4) 1
        ⟨fun _ => 0, []⟩ = some c' ∧
      Cells.StoredIn ⟨fun _ => 0, []⟩ c' 3 (3 + controlBytes 4 (2 ^ 4)) ∧
      layers (2 ^ (4 - 1)) (bitAt c'.mem 3) (stages 4) 0 = matesBelow 16 :=
  controlbits_make 3 (by decide) (by decide) (below_matesBelow (by decide))
    (by unfold Holds; decide) 0 _

end NassimiSahni

end Mlonmcu.McEliece
