import Mathlib.Tactic.IntervalCases
import Mlonmcu.McEliece.Keypair
import Mlonmcu.McEliece.PermutationCheck

/-! `benes` with `transpose_64x64`: the 4096 bits of `r` go through the layers of the condition
bits, forwards or backwards. -/

namespace Mlonmcu.McEliece.Benes

open CLib Function Equiv.Perm

/-- `masks` of `transpose_64x64`. -/
def masks : List (BitVec 64 × BitVec 64) :=
  [(0x5555555555555555, 0xAAAAAAAAAAAAAAAA), (0x3333333333333333, 0xCCCCCCCCCCCCCCCC),
    (0x0F0F0F0F0F0F0F0F, 0xF0F0F0F0F0F0F0F0), (0x00FF00FF00FF00FF, 0xFF00FF00FF00FF00),
    (0x0000FFFF0000FFFF, 0xFFFF0000FFFF0000), (0x00000000FFFFFFFF, 0xFFFFFFFF00000000)]

/-- The body of the loop over `d`. -/
def transposeStep (out : Nat → BitVec 64) (d : Nat) : Nat → BitVec 64 :=
  let (mask0, mask1) := masks.getD d (0, 0)
  layerLoops (fun _ a b =>
    let s := 1 <<< d
    let x := (a &&& mask0) ||| ((b &&& mask0) <<< s)
    let y := ((a &&& mask1) >>> s) ||| (b &&& mask1)
    (x, y)) d 64 out

/-- `transpose_64x64`, whose loop over `d` goes down. -/
def transpose64x64 (input : Nat → BitVec 64) : Nat → BitVec 64 :=
  (List.range 6).reverse.foldl transposeStep input

/-- `layer` of `benes.c`. -/
def layer (data bits : Nat → BitVec 64) (lgs : Nat) : Nat → BitVec 64 :=
  layerLoops (fun index x y =>
    let d := x ^^^ y
    let d := d &&& bits index
    (x ^^^ d, y ^^^ d)) lgs 64 data

def load8 (src : Memory) : BitVec 64 :=
  (List.range 7).reverse.foldl (fun ret i => ret <<< 8 ||| (src i).toBitVec.setWidth 64)
    ((src 7).toBitVec.setWidth 64)

/-- A round of the loops whose layers have their condition bits in words of 32 bits. -/
def lowLayer (m : Memory) (inc : Int) (s : (Nat → BitVec 64) × Int) (low : Nat) :
    (Nat → BitVec 64) × Int :=
  let (r, condPtr) := s
  let cond := fun i : Nat => (load4 (m.drop (condPtr + i * 4).toNat)).toBitVec.setWidth 64
  let cond := transpose64x64 cond
  (layer r cond low, condPtr + inc)

/-- A round of the loops whose layers have them in words of 64 bits. -/
def highLayer (m : Memory) (inc : Int) (s : (Nat → BitVec 64) × Int) (low : Nat) :
    (Nat → BitVec 64) × Int :=
  let (r, condPtr) := s
  let cond := fun i : Nat => load8 (m.drop (condPtr + i * 8).toNat)
  (layer r cond low, condPtr + inc)

/-- `benes`.  Backwards, the last step of `cond_ptr` goes in front of the bits. -/
def benes (r : Nat → BitVec 64) (m : Memory) (bits : Nat) (rev : Bool) : Nat → BitVec 64 :=
  let (inc, condPtr) : Int × Int :=
    if rev then (-256, bits + (2 * gfbits - 2 : Nat) * 256) else (256, bits)
  let r := transpose64x64 r
  let (r, condPtr) := (List.range 6).foldl (lowLayer m inc) (r, condPtr)
  let r := transpose64x64 r
  let (r, condPtr) := (List.range 6).foldl (highLayer m inc) (r, condPtr)
  let (r, condPtr) := (List.range 5).reverse.foldl (highLayer m inc) (r, condPtr)
  let r := transpose64x64 r
  let (r, _) := (List.range 6).reverse.foldl (lowLayer m inc) (r, condPtr)
  transpose64x64 r

/-! ### The transposition -/

theorem masks_bit {d l : Nat} (hd : d < 6) (hl : l < 64) :
    ((masks.getD d (0, 0)).1.getLsbD l = decide (l / 2 ^ d % 2 = 0)) ∧
      (masks.getD d (0, 0)).2.getLsbD l = decide (l / 2 ^ d % 2 = 1) := by
  have hall : ∀ d < 6, ∀ l < 64, ((masks.getD d (0, 0)).1.getLsbD l = decide (l / 2 ^ d % 2 = 0)) ∧
      (masks.getD d (0, 0)).2.getLsbD l = decide (l / 2 ^ d % 2 = 1) := by decide +kernel
  exact hall d hd l hl

theorem layerLoops_paired {α : Type} {pair : Nat → α → α → α × α} {p : Nat → α} {d k : Nat}
    (hd : d < 6) (hk : k < 64) : layerLoops pair d 64 p k = paired pair d p k := by
  have hsize : 2 ^ (5 - d) * (2 ^ d * 2) = 64 := by
    rw [← Nat.pow_succ, ← Nat.pow_add]
    exact congrArg (2 ^ ·) (show 5 - d + (d + 1) = 6 by omega)
  have hindex : pairIndex d k < 2 ^ (5 - d) * 2 ^ d := by
    rw [pairIndex]
    interval_cases d <;> omega
  have h : layerLoops pair d (2 ^ (5 - d) * (2 ^ d * 2)) p = _ := layerLoops_eq _
  rw [hsize] at h
  rw [h, pairedUpTo, if_pos hindex]

/-- A step exchanges one bit of the number of the word with the bit of the place in the word. -/
theorem transposeStep_bit {out : Nat → BitVec 64} {d k l : Nat} (hd : d < 6) (hk : k < 64)
    (hl : l < 64) : (transposeStep out d k).getLsbD l =
      if k / 2 ^ d % 2 = l / 2 ^ d % 2 then (out k).getLsbD l
      else if k / 2 ^ d % 2 = 0 then (out (k + 2 ^ d)).getLsbD (l - 2 ^ d)
      else (out (k - 2 ^ d)).getLsbD (l + 2 ^ d) := by
  obtain ⟨hmask0, hmask1⟩ := masks_bit hd hl
  have hshift : 1 <<< d = 2 ^ d := Nat.one_shiftLeft d
  have hfield (x : Nat) : x / 2 ^ d % 2 = 0 ∨ x / 2 ^ d % 2 = 1 := Nat.mod_two_eq_zero_or_one _
  rw [transposeStep]
  dsimp only
  rw [layerLoops_paired hd hk, paired, hshift]
  rcases hfield k with hk2 | hk2
  · -- The lower word takes its places with the bit from the higher one.
    rw [if_pos hk2, BitVec.getLsbD_or, BitVec.getLsbD_and, BitVec.getLsbD_shiftLeft,
      BitVec.getLsbD_and, hmask0, decide_eq_true hl]
    rcases hfield l with hl2 | hl2
    · have hrest :
          (!decide (l < 2 ^ d) && (masks.getD d (0, 0)).1.getLsbD (l - 2 ^ d)) = false := by
        by_cases hlt : l < 2 ^ d
        · simp [hlt]
        · have hodd : (l - 2 ^ d) / 2 ^ d % 2 = 1 := by interval_cases d <;> omega
          rw [(masks_bit hd ((Nat.sub_le _ _).trans_lt hl)).1, hodd]
          simp
      rw [if_pos (by rw [hk2, hl2]), hl2, Bool.true_and, Bool.and_left_comm, hrest]
      simp
    · have heven : (l - 2 ^ d) / 2 ^ d % 2 = 0 ∧ ¬l < 2 ^ d := by interval_cases d <;> omega
      rw [if_neg (by omega), if_pos hk2, (masks_bit hd ((Nat.sub_le _ _).trans_lt hl)).1,
        heven.1, hl2, decide_eq_false heven.2]
      simp
  · rw [if_neg (by omega), BitVec.getLsbD_or, BitVec.getLsbD_ushiftRight, BitVec.getLsbD_and,
      BitVec.getLsbD_and, hmask1]
    rcases hfield l with hl2 | hl2
    · have hodd : (2 ^ d + l) / 2 ^ d % 2 = 1 ∧ 2 ^ d + l < 64 := by interval_cases d <;> omega
      rw [if_neg (by omega), if_neg (by omega), (masks_bit hd hodd.2).2, hodd.1, hl2,
        Nat.add_comm l]
      simp
    · have hrest : (masks.getD d (0, 0)).2.getLsbD (2 ^ d + l) = false := by
        by_cases hlt : 2 ^ d + l < 64
        · have heven : (2 ^ d + l) / 2 ^ d % 2 = 0 := by interval_cases d <;> omega
          rw [(masks_bit hd hlt).2, heven]
          rfl
        · exact BitVec.getLsbD_of_ge _ _ (by omega)
      rw [if_pos (by rw [hk2, hl2]), hrest, hl2]
      simp

/-- What a place holds when the steps down to `d` have been made. -/
theorem transposeSteps_bit (input : Nat → BitVec 64) {d k l : Nat} (hd : d ≤ 6) (hk : k < 64)
    (hl : l < 64) : ((List.range' d (6 - d)).reverse.foldl transposeStep input k).getLsbD l =
      (input (l / 2 ^ d * 2 ^ d + k % 2 ^ d)).getLsbD (k / 2 ^ d * 2 ^ d + l % 2 ^ d) := by
  obtain ⟨e, he⟩ : ∃ e, d + e = 6 := ⟨6 - d, by omega⟩
  induction e generalizing d k l with
  | zero =>
    obtain rfl : d = 6 := by omega
    change (input k).getLsbD l = _
    rw [show l / 2 ^ 6 * 2 ^ 6 + k % 2 ^ 6 = k by omega,
      show k / 2 ^ 6 * 2 ^ 6 + l % 2 ^ 6 = l by omega]
  | succ e ih =>
    have hsteps : (List.range' d (6 - d)).reverse = (List.range' (d + 1) (6 - (d + 1))).reverse ++
        [d] := by
      rw [show 6 - d = 6 - (d + 1) + 1 by omega, List.range'_succ, List.reverse_cons]
    have hsame {a a' b b' : Nat} (ha : a = a') (hb : b = b') :
        (input a).getLsbD b = (input a').getLsbD b' := by rw [ha, hb]
    have hd' : d < 6 := by omega
    rw [hsteps, List.foldl_append, List.foldl_cons, List.foldl_nil, transposeStep_bit hd' hk hl]
    split
    · rw [ih (by omega) hk hl (by omega)]
      refine hsame ?_ ?_ <;> clear he ih hsteps <;> interval_cases d <;> omega
    · split
      · have hplaces : k + 2 ^ d < 64 ∧ l - 2 ^ d < 64 := by
          clear he ih hsteps
          interval_cases d <;> omega
        rw [ih (by omega) hplaces.1 hplaces.2 (by omega)]
        refine hsame ?_ ?_ <;> clear he ih hsteps <;> interval_cases d <;> omega
      · have hplaces : k - 2 ^ d < 64 ∧ l + 2 ^ d < 64 := by
          clear he ih hsteps
          interval_cases d <;> omega
        rw [ih (by omega) hplaces.1 hplaces.2 (by omega)]
        refine hsame ?_ ?_ <;> clear he ih hsteps <;> interval_cases d <;> omega

theorem transpose64x64_bit (input : Nat → BitVec 64) {k l : Nat} (hk : k < 64) (hl : l < 64) :
    (transpose64x64 input k).getLsbD l = (input l).getLsbD k := by
  have h := transposeSteps_bit input (Nat.zero_le 6) hk hl
  rw [transpose64x64, List.range_eq_range']
  simpa [Nat.mod_one] using h

/-! ### The condition bits -/

theorem load8_bit (src : Memory) {j : Nat} (hj : j < 64) :
    (load8 src).getLsbD j = (src (j / 8)).toNat.testBit (j % 8) := by
  have hbyte (i t : Nat) : (src i).toBitVec.getLsbD t = (src i).toNat.testBit t := rfl
  have hloop (n a j : Nat) (hj : j < 64) :
      ((List.range' a n).reverse.foldl (fun (ret : BitVec 64) i =>
      ret <<< 8 ||| (src i).toBitVec.setWidth 64) ((src 7).toBitVec.setWidth 64)).getLsbD j =
        if j < 8 * n then (src (a + j / 8)).toNat.testBit (j % 8)
        else (src 7).toNat.testBit (j - 8 * n) := by
    induction n generalizing a j with
    | zero =>
      rw [if_neg (by omega)]
      change ((src 7).toBitVec.setWidth 64).getLsbD j = _
      rw [BitVec.getLsbD_setWidth, decide_eq_true hj, hbyte]
      rfl
    | succ n ih =>
      rw [List.range'_succ, List.reverse_cons, List.foldl_append, List.foldl_cons, List.foldl_nil,
        BitVec.getLsbD_or, BitVec.getLsbD_shiftLeft, BitVec.getLsbD_setWidth, decide_eq_true hj,
        hbyte, ih _ _ (by omega)]
      by_cases hlow : j < 8
      · rw [if_pos (show j < 8 * (n + 1) by omega), decide_eq_true hlow,
          show j / 8 = 0 by omega, show j % 8 = j by omega]
        rfl
      · have hzero : (src a).toNat.testBit j = false := Nat.testBit_lt_two_pow
          ((src a).toNat_lt.trans_le (Nat.pow_le_pow_right (by decide) (by omega)))
        rw [decide_eq_false hlow, hzero, show a + 1 + (j - 8) / 8 = a + j / 8 by omega,
          show (j - 8) % 8 = j % 8 by omega, show j - 8 - 8 * n = j - 8 * (n + 1) by omega]
        simp only [show (j - 8 < 8 * n) = (j < 8 * (n + 1)) from propext (by omega)]
        simp
  rw [load8, List.range_eq_range', hloop 7 0 j hj, Nat.zero_add]
  split
  · rfl
  · rw [show j / 8 = 7 by omega, show j - 8 * 7 = j % 8 by omega]

theorem shiftIn_bit (x : UInt32) (b : UInt8) {j : Nat} (hj : j < 32) :
    (x <<< 8 ||| b.toUInt32).toBitVec.getLsbD j =
      if j < 8 then b.toNat.testBit j else x.toBitVec.getLsbD (j - 8) := by
  have hbyte : b.toUInt32.toBitVec.getLsbD j = b.toNat.testBit j := by
    change b.toUInt32.toNat.testBit j = _
    rw [UInt8.toNat_toUInt32]
  have hshift : (x <<< 8).toBitVec = x.toBitVec <<< 8 := rfl
  rw [UInt32.toBitVec_or, BitVec.getLsbD_or, hbyte, hshift, BitVec.getLsbD_shiftLeft,
    decide_eq_true hj]
  split
  · case isTrue hlow =>
    rw [decide_eq_true hlow]
    rfl
  · case isFalse hlow =>
    have hzero : b.toNat.testBit j = false := Nat.testBit_lt_two_pow
      (b.toNat_lt.trans_le (Nat.pow_le_pow_right (by decide) (by omega)))
    rw [decide_eq_false hlow, hzero, Bool.or_false]
    rfl

theorem load4_bit (src : Memory) {j : Nat} (hj : j < 32) :
    (load4 src).toBitVec.getLsbD j = (src (j / 8)).toNat.testBit (j % 8) := by
  have hfirst (t : Nat) : (src 3).toUInt32.toBitVec.getLsbD t = (src 3).toNat.testBit t := by
    change (src 3).toUInt32.toNat.testBit t = _
    rw [UInt8.toNat_toUInt32]
  rw [load4, shiftIn_bit _ _ hj]
  split
  · rw [show j / 8 = 0 by omega, show j % 8 = j by omega]
  · rw [shiftIn_bit _ _ (by omega)]
    split
    · rw [show j / 8 = 1 by omega, show j % 8 = j - 8 by omega]
    · rw [shiftIn_bit _ _ (by omega)]
      split
      · rw [show j / 8 = 2 by omega, show j % 8 = j - 8 - 8 by omega]
      · rw [hfirst, show j / 8 = 3 by omega, show j % 8 = j - 8 - 8 - 8 by omega]

/-! ### The layers -/

section Layers

variable {m : Memory} {bits : Nat} {r cond : Nat → BitVec 64} {v : Nat → Bool} {s t : Nat}

/-- The exchanges of the layer whose bits are the block `t` of the condition bits. -/
def layerAt (m : Memory) (bits s t : Nat) : Equiv.Perm Nat :=
  layerPerm s (firstBits 2048 fun i => bitAt m bits (2048 * t + i))

/-- The words hold the bits `v` one word after the other. -/
def Plain (r : Nat → BitVec 64) (v : Nat → Bool) : Prop :=
  ∀ k < 4096, (r (k / 64)).getLsbD (k % 64) = v k

/-- The words hold the bits `v` as the transposed matrix. -/
def Turned (r : Nat → BitVec 64) (v : Nat → Bool) : Prop :=
  ∀ k < 4096, (r (k % 64)).getLsbD (k / 64) = v k

theorem Plain.turned (h : Plain r v) : Turned (transpose64x64 r) v := fun k hk => by
  rw [transpose64x64_bit r (by omega) (by omega), h k hk]

theorem Turned.plain (h : Turned r v) : Plain (transpose64x64 r) v := fun k hk => by
  rw [transpose64x64_bit r (by omega) (by omega), h k hk]

theorem layer_bit (hs : s < 6) {j l : Nat} (hj : j < 64) : (layer r cond s j).getLsbD l =
    if (cond (pairIndex s j)).getLsbD l then (r (mateAt s j)).getLsbD l else (r j).getLsbD l := by
  have hexchange (x y b : Bool) : (x ^^ ((x ^^ y) && b)) = if b then y else x := by
    cases x <;> cases y <;> cases b <;> rfl
  have hexchange' (x y b : Bool) : (y ^^ ((x ^^ y) && b)) = if b then x else y := by
    cases x <;> cases y <;> cases b <;> rfl
  rw [layer, layerLoops_paired hs hj, paired, mateAt_eq]
  split
  · rw [BitVec.getLsbD_xor, BitVec.getLsbD_and, BitVec.getLsbD_xor, hexchange]
  · rw [BitVec.getLsbD_xor, BitVec.getLsbD_and, BitVec.getLsbD_xor, hexchange']

theorem Turned.layer (hs : s < 6) (hr : Turned r v)
    (hcond : ∀ i < 32, ∀ l < 64, (cond i).getLsbD l = bitAt m bits (2048 * t + (32 * l + i))) :
    Turned (Benes.layer r cond s) (v ∘ layerAt m bits s t) := by
  intro k hk
  have hindex : pairIndex s k = 32 * (k / 64) + pairIndex s (k % 64) ∧
      pairIndex s (k % 64) < 32 := by
    simp only [pairIndex]
    interval_cases s <;> omega
  have hmate : mateAt s k = 64 * (k / 64) + mateAt s (k % 64) ∧ mateAt s (k % 64) < 64 := by
    simp only [mateAt_eq]
    interval_cases s <;> split <;> split <;> omega
  obtain ⟨j, hj⟩ : ∃ j, mateAt s (k % 64) = j := ⟨_, rfl⟩
  obtain ⟨i, hi⟩ : ∃ i, pairIndex s (k % 64) = i := ⟨_, rfl⟩
  rw [hi] at hindex
  rw [hj] at hmate
  have hvalue := hr (mateAt s k) (by omega)
  rw [show mateAt s k % 64 = j by omega, show mateAt s k / 64 = k / 64 by omega] at hvalue
  rw [layer_bit hs (by omega), hi, hj, hcond i hindex.2 _ (by omega), hvalue, hr k hk, comp_apply,
    layerAt, layerPerm_apply, firstBits, hindex.1, decide_eq_true (by omega), Bool.true_and]
  split <;> rfl

theorem Plain.layer (hs : s < 6) (hr : Plain r v)
    (hcond : ∀ i < 32, ∀ l < 64, (cond i).getLsbD l = bitAt m bits (2048 * t + (64 * i + l))) :
    Plain (Benes.layer r cond s) (v ∘ layerAt m bits (s + 6) t) := by
  intro k hk
  have hindex : pairIndex (s + 6) k = 64 * pairIndex s (k / 64) + k % 64 ∧
      pairIndex s (k / 64) < 32 := by
    simp only [pairIndex]
    interval_cases s <;> omega
  have hmate : mateAt (s + 6) k = 64 * mateAt s (k / 64) + k % 64 ∧ mateAt s (k / 64) < 64 := by
    simp only [mateAt_eq]
    interval_cases s <;> split <;> split <;> omega
  obtain ⟨j, hj⟩ : ∃ j, mateAt s (k / 64) = j := ⟨_, rfl⟩
  obtain ⟨i, hi⟩ : ∃ i, pairIndex s (k / 64) = i := ⟨_, rfl⟩
  rw [hi] at hindex
  rw [hj] at hmate
  have hvalue := hr (mateAt (s + 6) k) (by omega)
  rw [show mateAt (s + 6) k / 64 = j by omega, show mateAt (s + 6) k % 64 = k % 64 by omega]
    at hvalue
  rw [layer_bit hs (by omega), hi, hj, hcond i hindex.2 _ (by omega), hvalue, hr k hk, comp_apply,
    layerAt, layerPerm_apply, firstBits, hindex.1, decide_eq_true (by omega), Bool.true_and]
  split <;> rfl

end Layers

/-! ### The loops -/

section Loops

variable {m : Memory} {bits : Nat} {r : Nat → BitVec 64} {v : Nat → Bool} {inc ptr start : Int}
  {τ : Nat → Nat}

theorem lowLayer_turned {s t : Nat} (hs : s < 6) (hptr : ptr = bits + 256 * t) (hr : Turned r v) :
    Turned (lowLayer m inc (r, ptr) s).1 (v ∘ layerAt m bits s t) := by
  have hrun : (lowLayer m inc (r, ptr) s).1 = layer r (transpose64x64 fun i : Nat =>
      (load4 (m.drop (ptr + i * 4).toNat)).toBitVec.setWidth 64) s := rfl
  rw [hrun]
  refine hr.layer hs fun i hi l hl => ?_
  have hplace : (ptr + (l : Nat) * 4).toNat = bits + 256 * t + 4 * l := by omega
  rw [transpose64x64_bit _ (by omega) hl, BitVec.getLsbD_setWidth, decide_eq_true (by omega),
    Bool.true_and, load4_bit _ hi, Memory.drop, bitAt, hplace,
    show (2048 * t + (32 * l + i)) / 8 = 256 * t + 4 * l + i / 8 by omega,
    show (2048 * t + (32 * l + i)) % 8 = i % 8 by omega]
  simp only [Nat.add_assoc]

theorem highLayer_plain {s t : Nat} (hs : s < 6) (hptr : ptr = bits + 256 * t) (hr : Plain r v) :
    Plain (highLayer m inc (r, ptr) s).1 (v ∘ layerAt m bits (s + 6) t) := by
  have hrun : (highLayer m inc (r, ptr) s).1 = layer r (fun i : Nat =>
      load8 (m.drop (ptr + i * 8).toNat)) s := rfl
  rw [hrun]
  refine hr.layer hs fun i hi l hl => ?_
  have hplace : (ptr + (i : Nat) * 8).toNat = bits + 256 * t + 8 * i := by omega
  rw [load8_bit _ hl, Memory.drop, bitAt, hplace,
    show (2048 * t + (64 * i + l)) / 8 = 256 * t + 8 * i + l / 8 by omega,
    show (2048 * t + (64 * i + l)) % 8 = l % 8 by omega]
  simp only [Nat.add_assoc]

/-- The layers of some stages from the layer `i` on, where `τ` gives the blocks of bits. -/
def through (m : Memory) (bits : Nat) (τ : Nat → Nat) (ss : List Nat) (i : Nat) : Equiv.Perm Nat :=
  ((ss.zipIdx i).map fun sj => layerAt m bits sj.1 (τ sj.2)).prod

theorem through_append (ss ts : List Nat) (i : Nat) : through m bits τ (ss ++ ts) i =
    through m bits τ ss i * through m bits τ ts (i + ss.length) := by
  rw [through, List.zipIdx_append, List.map_append, List.prod_append]
  rfl

/-- A loop over layers keeps how the words hold the bits. -/
theorem foldl_layers (up : Nat) {Held : (Nat → BitVec 64) → (Nat → Bool) → Prop}
    {step : (Nat → BitVec 64) × Int → Nat → (Nat → BitVec 64) × Int}
    (hτ : ∀ i < 23, start + inc * i = bits + 256 * (τ i : Int))
    (hstep : ∀ r v s (t : Nat) ptr, s < 6 → ptr = bits + 256 * (t : Int) → Held r v →
      Held (step (r, ptr) s).1 (v ∘ layerAt m bits (s + up) t))
    (hptr : ∀ r ptr s, (step (r, ptr) s).2 = ptr + inc) (ss : List Nat) (hss : ∀ s ∈ ss, s < 6)
    (i : Nat) (hi : i + ss.length ≤ 23) (hr : Held r v) :
    ∃ r', ss.foldl step (r, start + inc * i) = (r', start + inc * (i + ss.length : Nat)) ∧
      Held r' (v ∘ through m bits τ (ss.map (· + up)) i) := by
  induction ss generalizing i r v with
  | nil => exact ⟨r, rfl, hr⟩
  | cons s ss ih =>
    rw [List.length_cons] at hi
    obtain ⟨⟨r₁, ptr⟩, hrun⟩ : ∃ q, step (r, start + inc * i) s = q := ⟨_, rfl⟩
    have hfirst := hstep r v s (τ i) _ (hss s List.mem_cons_self) (hτ i (by omega)) hr
    have hnext := hptr r (start + inc * i) s
    rw [hrun] at hfirst hnext
    obtain ⟨r', hrest, hheld⟩ := ih (fun x hx => hss x (List.mem_cons_of_mem s hx)) (i + 1)
      (by omega) hfirst
    refine ⟨r', ?_, hheld⟩
    have hsum : ptr = start + inc * (i + 1 : Nat) := by
      rw [show ptr = _ from hnext, Nat.cast_add, Nat.cast_one, mul_add, mul_one, add_assoc]
    rw [List.foldl_cons, hrun, hsum, hrest, List.length_cons, Nat.add_assoc, Nat.add_comm 1]

/-- The layers of `benes` in the order of its loops. -/
theorem benes_through {rev : Bool}
    (hstart : start = if rev then (bits : Int) + (2 * gfbits - 2 : Nat) * 256 else bits)
    (hinc : inc = if rev then -256 else 256)
    (hτ : ∀ i < 23, start + inc * i = bits + 256 * (τ i : Int)) (hr : Plain r v) :
    Plain (benes r m bits rev) (v ∘ through m bits τ (stages 12) 0) := by
  have hlow (ss : List Nat) (hss : ∀ s ∈ ss, s < 6) (i : Nat) (hi : i + ss.length ≤ 23) {r v}
      (hr : Turned r v) := foldl_layers (m := m) 0 hτ
    (fun _ _ _ _ _ hs hptr hr => lowLayer_turned hs hptr hr) (fun _ _ _ => rfl) ss hss i hi hr
  have hhigh (ss : List Nat) (hss : ∀ s ∈ ss, s < 6) (i : Nat) (hi : i + ss.length ≤ 23) {r v}
      (hr : Plain r v) := foldl_layers (m := m) 6 hτ
    (fun _ _ _ _ _ hs hptr hr => highLayer_plain hs hptr hr) (fun _ _ _ => rfl) ss hss i hi hr
  obtain ⟨r₁, hrun₁, h₁⟩ := hlow (List.range 6) (by decide) 0 (by decide) hr.turned
  obtain ⟨r₂, hrun₂, h₂⟩ := hhigh (List.range 6) (by decide) 6 (by decide) h₁.plain
  obtain ⟨r₃, hrun₃, h₃⟩ := hhigh (List.range 5).reverse (by decide) 12 (by decide) h₂
  obtain ⟨r₄, hrun₄, h₄⟩ := hlow (List.range 6).reverse (by decide) 17 (by decide) h₃.turned
  rw [Nat.cast_zero, mul_zero, add_zero] at hrun₁
  have hpair : (if rev then (-256, (bits : Int) + (2 * gfbits - 2 : Nat) * 256) else (256, bits)) =
      (inc, start) := by
    rw [hstart, hinc]
    cases rev <;> rfl
  have hrun : benes r m bits rev = transpose64x64 r₄ := by
    rw [benes, hpair]
    dsimp only
    rw [hrun₁]
    dsimp only
    rw [show 0 + (List.range 6).length = 6 from rfl, hrun₂]
    dsimp only
    rw [show 6 + (List.range 6).length = 12 from rfl, hrun₃]
    dsimp only
    rw [show 12 + (List.range 5).reverse.length = 17 from rfl, hrun₄]
  have hstages : stages 12 = (List.range 6).map (· + 0) ++ (List.range 6).map (· + 6) ++
      (List.range 5).reverse.map (· + 6) ++ (List.range 6).reverse.map (· + 0) := by decide
  rw [hrun, hstages, through_append, through_append, through_append]
  simp only [coe_mul, ← comp_assoc, List.length_append, List.length_map, List.length_reverse,
    List.length_range]
  exact h₄.plain

theorem through_eq_layers (ss : List Nat) (i : Nat) :
    through m bits id ss i = layers 2048 (bitAt m bits) ss (2048 * i) := by
  induction ss generalizing i with
  | nil => rfl
  | cons s ss ih =>
    rw [layers, ← Nat.mul_succ, ← ih (i + 1), through, List.zipIdx_cons, List.map_cons,
      List.prod_cons]
    rfl

/-- Backwards, the layers are undone one after the other. -/
theorem through_backwards :
    through m bits (fun i => 22 - i) (stages 12) 0 = (through m bits id (stages 12) 0)⁻¹ := by
  have hinv (sj : Nat × Nat) : (layerAt m bits sj.1 sj.2)⁻¹ = layerAt m bits sj.1 sj.2 := rfl
  have hback : (stages 12).zipIdx.map (fun sj => (sj.1, 22 - sj.2)) =
      (stages 12).zipIdx.reverse := by
    decide
  rw [through, through, List.prod_inv_reverse, List.map_map]
  have hleft : ((stages 12).zipIdx.map fun sj => layerAt m bits sj.1 (22 - sj.2)) =
      ((stages 12).zipIdx.map fun sj => (sj.1, 22 - sj.2)).map fun sj =>
        layerAt m bits sj.1 sj.2 := by
    rw [List.map_map]
    rfl
  rw [hleft, hback, List.map_reverse]
  rfl

/-- `benes` puts the bit of the place that the layers of the condition bits give to each place, and
backwards, it undoes that. -/
theorem benes_permutes (r : Nat → BitVec 64) (m : Memory) (bits : Nat) (v : Nat → Bool)
    (hr : Plain r v) :
    Plain (benes r m bits false) (v ∘ layers 2048 (bitAt m bits) (stages 12) 0) ∧
      Plain (benes r m bits true)
        (v ∘ ((layers 2048 (bitAt m bits) (stages 12) 0)⁻¹ : Equiv.Perm Nat)) := by
  have hlayers : through m bits id (stages 12) 0 = layers 2048 (bitAt m bits) (stages 12) 0 :=
    through_eq_layers (stages 12) 0
  refine ⟨?_, ?_⟩
  · rw [← hlayers]
    refine benes_through rfl rfl (fun i _ => ?_) hr
    rw [if_neg (by decide), if_neg (by decide), id]
  · rw [← hlayers, ← through_backwards]
    refine benes_through rfl rfl (fun i hi => ?_) hr
    rw [if_pos rfl, if_pos rfl, show 2 * gfbits - 2 = 22 from rfl]
    omega

theorem plain_self (r : Nat → BitVec 64) : Plain r fun k => (r (k / 64)).getLsbD (k % 64) :=
  fun _ _ => rfl

theorem Plain.word_eq {r' : Nat → BitVec 64} (h : Plain r v) (h' : Plain r' v) {k : Nat}
    (hk : k < 64) : r k = r' k := by
  refine BitVec.eq_of_getLsbD_eq fun l hl => ?_
  have hbit := (h (64 * k + l) (by omega)).trans (h' (64 * k + l) (by omega)).symm
  rwa [show (64 * k + l) / 64 = k by omega, show (64 * k + l) % 64 = l by omega] at hbit

/-- For all condition bits, the two directions of `benes` undo each other. -/
theorem benes_cancel (r : Nat → BitVec 64) (m : Memory) (bits : Nat) (k : Nat) (hk : k < 64) :
    benes (benes r m bits false) m bits true k = r k ∧
      benes (benes r m bits true) m bits false k = r k := by
  obtain ⟨hforth, hback⟩ := benes_permutes r m bits _ (plain_self r)
  obtain ⟨-, hforthback⟩ := benes_permutes _ m bits _ hforth
  obtain ⟨hbackforth, -⟩ := benes_permutes _ m bits _ hback
  rw [comp_assoc, ← coe_mul, mul_inv_cancel, coe_one, comp_id] at hforthback
  rw [comp_assoc, ← coe_mul, inv_mul_cancel, coe_one, comp_id] at hbackforth
  exact ⟨hforthback.word_eq (plain_self r) hk, hbackforth.word_eq (plain_self r) hk⟩

theorem benes_cancel_first :
    benes (benes (fun i => BitVec.ofNat 64 (i + 1)) (fun _ => 7) 0 false) (fun _ => 7) 0 true 3 =
        4#64 ∧
      benes (benes (fun i => BitVec.ofNat 64 (i + 1)) (fun _ => 7) 0 true) (fun _ => 7) 0 false 3 =
        4#64 :=
  benes_cancel (fun i => BitVec.ofNat 64 (i + 1)) (fun _ => 7) 0 3 (by decide)

end Loops

section Permutations

variable {pi : Nat → BitVec 16} {π : Equiv.Perm Nat} {r : Nat → BitVec 64} {v : Nat → Bool}

open NassimiSahni

/-- With the bits that `controlbitsfrompermutation` stores for a permutation, `benes` applies the
permutation, and backwards its inverse. -/
theorem benes_controlbits (hπ : Below (2 ^ gfbits) π) (hpi : Holds (2 ^ gfbits) pi π)
    (hr : Plain r v) (out rounds : Nat) (c : Cells) :
    ∃ c', NassimiSahni.controlbitsfrompermutation out pi gfbits (2 ^ gfbits) (rounds + 1) c =
        some c' ∧
      Plain (benes r c'.mem out false) (v ∘ π) ∧
      Plain (benes r c'.mem out true) (v ∘ (π⁻¹ : Equiv.Perm Nat)) := by
  obtain ⟨c', hround, -, hmade⟩ := round_makes out (by decide) (by decide) hπ hpi c
  have hends := controlbits_of_round (by decide) (by decide) hπ hpi hround hmade rounds
  have hmade : layers 2048 (bitAt c'.mem out) (stages 12) 0 = π := hmade
  have hpermutes := benes_permutes r c'.mem out v hr
  rw [hmade] at hpermutes
  exact ⟨c', hends, hpermutes⟩

theorem benes_controlbits_mates : ∃ c', NassimiSahni.controlbitsfrompermutation 0
      (fun x => BitVec.ofNat 16 (x ^^^ 1)) gfbits (2 ^ gfbits) 1 ⟨fun _ => 0, []⟩ = some c' ∧
    Plain (benes (fun _ => 1) c'.mem 0 false)
      ((fun k => (1#64).getLsbD (k % 64)) ∘ matesBelow (2 ^ gfbits)) ∧
    Plain (benes (fun _ => 1) c'.mem 0 true) ((fun k => (1#64).getLsbD (k % 64)) ∘
      ((matesBelow (2 ^ gfbits))⁻¹ : Equiv.Perm Nat)) :=
  benes_controlbits (below_matesBelow (by decide)) (fun x hx => by
    have hlt : x ^^^ 1 < 2 ^ 16 := Nat.xor_lt_two_pow (hx.trans (by decide)) (by decide)
    rw [BitVec.toNat_ofNat, Nat.mod_eq_of_lt hlt, matesBelow_apply hx, xor_one_eq])
    (fun _ _ => rfl) 0 0 _

end Permutations

end Mlonmcu.McEliece.Benes
