import Mlonmcu.McEliece.Keypair
import Mlonmcu.McEliece.Masks
import Mlonmcu.McEliece.Randombytes

/-! `gen_e` of `encrypt.c`, which draws an error vector. -/

namespace Mlonmcu.McEliece

open CLib

/-- `buf.nums[i]`, which has been loaded from the bytes of `buf`. -/
def nums (bytes : Memory) (i : Nat) : BitVec 16 := (loadGf (bytes.drop (i * 2))).toBitVec

/-- The loop that moves the indices in the correct range to `ind`, and their number. -/
def moveIndices (nums ind : Nat → BitVec 16) : (Nat → BitVec 16) × Nat :=
  (List.range (sysT * 2)).foldl (fun (ind, count) i =>
    if count < sysT ∧ smallerMask (nums i) (BitVec.ofNat 16 sysN) ≠ 0 then
      (Function.update ind count (nums i), count + 1)
    else (ind, count)) (ind, 0)

/-- The check for repetition. -/
def checkRepetition (ind : Nat → BitVec 16) : Nat :=
  (List.range' 1 (sysT - 1)).foldl (fun eq i =>
    if equalMask ((ind (i - 1)).setWidth 32) ((ind i).setWidth 32) ≠ 0 then 1 else eq) 0

/-- A round of the loop of `gen_e`, with `buf` at the pointer 0.  The result is `ind`, and whether
the loop ends. -/
def genERound (ind : Nat → BitVec 16) : Prog Random ((Nat → BitVec 16) × Bool) := do
  randombytes 0 (sysT * 2 * 2)
  let s ← Prog.get
  let (ind, count) := moveIndices (nums s.cells.mem) ind
  if count < sysT then pure (ind, false)
  else
    let ind := uint16Sort ind sysT
    pure (ind, checkRepetition ind = 0)

def genELoop : Nat → (Nat → BitVec 16) → Prog Random (Nat → BitVec 16)
  | 0, _ => Prog.timeout
  | fuel + 1, ind => do
    let (ind, ends) ← genERound ind
    if ends then pure ind else genELoop fuel ind

/-- `val[j]`. -/
def val (ind : Nat → BitVec 16) (j : Nat) : UInt64 :=
  1 <<< (UInt64.ofNat (ind j).toNat &&& 63)

/-- `mask` for the word `i`. -/
def wordMask (ind : Nat → BitVec 16) (i j : Nat) : UInt64 :=
  let mask := UInt64.ofNat (i ^^^ (ind j).toNat >>> 6)
  let mask := mask - 1
  let mask := mask >>> 63
  let mask := -mask
  mask

/-- `e_int[i]`. -/
def eInt (ind : Nat → BitVec 16) (i : Nat) : UInt64 :=
  (List.range sysT).foldl (fun w j => w ||| val ind j &&& wordMask ind i j) 0

/-- The number of the words. -/
def eWords : Nat := (sysN + 63) / 64

/-- The stores of the words, the last of which is not a whole one. -/
def storeWords (eInt : Nat → UInt64) (e : Cells) : Cells :=
  let (c, e) := (List.range (eWords - 1)).foldl
    (fun (c, e) i => (store8 e (eInt i) c, e + 8)) (e, 0)
  (List.range ((sysN % 64 + 7) / 8)).foldl (fun c k =>
    c.put (e + k) (eInt (eWords - 1) >>> UInt64.ofNat (8 * k) &&& 0xFF).toUInt8) c

/-- `gen_e`, with the contents of `ind` before the first round. -/
def genE (fuel : Nat) (ind : Nat → BitVec 16) (e : Cells) : Prog Random Cells := do
  let ind ← genELoop fuel ind
  pure (storeWords (eInt ind) e)

/-! ### The indices of a draw -/

/-- The numbers of a draw that become indices: the first `t` that are in range. -/
def picked (bytes : Memory) : List (BitVec 16) :=
  (((List.range (sysT * 2)).map (nums bytes)).filter (·.toNat < sysN)).take sysT

/-- There are enough numbers, and none occurs twice. -/
def Accepted (bytes : Memory) : Prop := (picked bytes).length = sysT ∧ (picked bytes).Nodup

instance (bytes : Memory) : Decidable (Accepted bytes) := inferInstanceAs (Decidable (_ ∧ _))

/-- An array with the elements of a list. -/
def Holds {α : Type} (ind : Nat → α) (l : List α) : Prop := ∀ j < l.length, l[j]? = some (ind j)

theorem Holds.eq_map {α : Type} {ind : Nat → α} {l : List α} (h : Holds ind l) :
    l = (List.range l.length).map ind := by
  refine List.ext_getElem? fun j => ?_
  rcases Nat.lt_or_ge j l.length with hlt | hge
  · rw [h j hlt, List.getElem?_map, List.getElem?_range hlt]
    rfl
  · rw [List.getElem?_eq_none hge, List.getElem?_eq_none (by simpa using hge)]

theorem smaller_iff (x : BitVec 16) :
    smallerMask x (BitVec.ofNat 16 sysN) ≠ 0 ↔ x.toNat < sysN := by
  rw [smallerMask_eq, ne_eq, maskOf_eq_zero]
  simp [sysN]

theorem moveIndices_loop {nums : Nat → BitVec 16} {ind : Nat → BitVec 16} {l : List (BitVec 16)}
    (is : List Nat) (hl : l.length ≤ sysT) (h : Holds ind l) :
    let r := is.foldl (fun (ind, count) i =>
      if count < sysT ∧ smallerMask (nums i) (BitVec.ofNat 16 sysN) ≠ 0 then
        (Function.update ind count (nums i), count + 1)
      else (ind, count)) (ind, l.length)
    let all := (l ++ (is.map nums).filter (·.toNat < sysN)).take sysT
    r.2 = all.length ∧ Holds r.1 all := by
  induction is generalizing ind l with
  | nil =>
    rw [List.map_nil, List.filter_nil, List.append_nil, List.take_of_length_le hl]
    exact ⟨rfl, h⟩
  | cons i is ih =>
    rw [List.foldl_cons, List.map_cons, List.filter_cons]
    simp only [smaller_iff, decide_eq_true_eq]
    rcases Nat.lt_or_ge l.length sysT with hlt | hge
    · by_cases hin : (nums i).toNat < sysN
      · rw [if_pos ⟨hlt, hin⟩, if_pos hin]
        have hholds : Holds (Function.update ind l.length (nums i)) (l ++ [nums i]) := by
          intro j hj
          rw [List.length_append, List.length_singleton] at hj
          rcases Nat.lt_or_ge j l.length with hj' | hj'
          · rw [List.getElem?_append_left hj', Function.update_of_ne (by omega), h j hj']
          · obtain rfl : j = l.length := by omega
            rw [List.getElem?_concat_length, Function.update_self]
        have hnext := ih (by rw [List.length_append, List.length_singleton]; exact hlt) hholds
        simp only [smaller_iff, List.length_append, List.length_singleton, List.append_assoc,
          List.singleton_append] at hnext
        exact hnext
      · rw [if_neg fun hand => hin hand.2, if_neg hin]
        have hnext := ih hl h
        simp only [smaller_iff] at hnext
        exact hnext
    · rw [if_neg fun hand => by omega]
      have hnext := ih hl h
      simp only [smaller_iff] at hnext
      rw [List.take_append_of_le_length (by omega)] at hnext ⊢
      exact hnext

theorem moveIndices_eq (bytes : Memory) (ind : Nat → BitVec 16) :
    (moveIndices (nums bytes) ind).2 = (picked bytes).length ∧
      Holds (moveIndices (nums bytes) ind).1 (picked bytes) :=
  moveIndices_loop (l := []) _ (Nat.zero_le _) (by simp [Holds])

theorem checkRepetition_eq_zero (ind : Nat → BitVec 16) :
    checkRepetition ind = 0 ↔ ∀ i, i + 1 < sysT → ind i ≠ ind (i + 1) := by
  have hloop (is : List Nat) (eq : Nat) : is.foldl (fun eq i =>
      if equalMask ((ind (i - 1)).setWidth 32) ((ind i).setWidth 32) ≠ 0 then 1 else eq) eq = 0 ↔
        eq = 0 ∧ ∀ i ∈ is, ind (i - 1) ≠ ind i := by
    induction is generalizing eq with
    | nil => simp
    | cons i is ih =>
      have hmask : equalMask ((ind (i - 1)).setWidth 32) ((ind i).setWidth 32) ≠ 0 ↔
          ind (i - 1) = ind i := by
        rw [equalMask_eq, ne_eq, maskOf_eq_zero]
        simp only [decide_eq_false_iff_not, Decidable.not_not]
        refine ⟨fun h => ?_, fun h => congrArg _ h⟩
        have hval := congrArg BitVec.toNat h
        rw [BitVec.toNat_setWidth_of_le (by decide),
          BitVec.toNat_setWidth_of_le (by decide)] at hval
        exact BitVec.eq_of_toNat_eq hval
      rw [List.foldl_cons, ih, List.forall_mem_cons]
      simp only [hmask]
      split
      · case isTrue h => simp [h]
      · case isFalse h => simp [h]
  rw [checkRepetition, hloop]
  simp only [true_and, List.mem_range'_1]
  constructor
  · intro h i hi
    exact h (i + 1) (by omega)
  · intro h i hi
    obtain ⟨j, rfl⟩ : ∃ j, i = j + 1 := ⟨i - 1, by omega⟩
    exact h j (by omega)

/-- The sorted indices repeat one exactly when the draw does. -/
theorem sorted_distinct {ind y : Nat → BitVec 16} {l : List (BitVec 16)}
    (hl : l.length = sysT) (h : Holds ind l) (hsort : Sorted BitVec.toNat sysT ind y) :
    (∀ i, i + 1 < sysT → y i ≠ y (i + 1)) ↔ l.Nodup := by
  obtain ⟨⟨σ, rfl, hσ⟩, hle⟩ := hsort
  have hmap := h.eq_map
  rw [hl] at hmap
  constructor
  · intro hne
    have hlt {i j : Nat} (hij : i < j) (hj : j < sysT) : (ind (σ i)).toNat < (ind (σ j)).toNat := by
      have hfirst := hle i (i + 1) (Nat.le_succ i) (by omega)
      have hrest := hle (i + 1) j hij hj
      have hdiff : (ind (σ i)).toNat ≠ (ind (σ (i + 1))).toNat :=
        fun heq => hne i (by omega) (BitVec.eq_of_toNat_eq heq)
      simp only [Function.comp_apply] at hfirst hrest
      omega
    rw [hmap]
    refine List.Nodup.map_on (fun a ha b hb heq => ?_) List.nodup_range
    have hinv {a : Nat} (ha : a ∈ List.range sysT) : σ.symm a < sysT := by
      refine perm_lt (σ := σ.symm) (fun k hk => ?_) (List.mem_range.mp ha)
      rw [Equiv.symm_apply_eq, hσ k hk]
    by_contra hab
    have hsymm : σ.symm a ≠ σ.symm b := fun h => hab (σ.symm.injective h)
    rcases Nat.lt_or_gt_of_ne hsymm with hlt' | hlt'
    · have hval := hlt hlt' (hinv hb)
      rw [Equiv.apply_symm_apply, Equiv.apply_symm_apply, heq] at hval
      exact Nat.lt_irrefl _ hval
    · have hval := hlt hlt' (hinv ha)
      rw [Equiv.apply_symm_apply, Equiv.apply_symm_apply, heq] at hval
      exact Nat.lt_irrefl _ hval
  · intro hnodup i hi heq
    rw [hmap] at hnodup
    have hinj := List.inj_on_of_nodup_map hnodup (List.mem_range.mpr (perm_lt hσ (by omega)))
      (List.mem_range.mpr (perm_lt hσ hi)) heq
    have hsucc := σ.injective hinj
    omega

theorem picked_lt {bytes : Memory} {x : BitVec 16} (hx : x ∈ picked bytes) : x.toNat < sysN := by
  have hmem := List.mem_of_mem_take hx
  rw [List.mem_filter] at hmem
  exact of_decide_eq_true hmem.2

/-! ### The rounds -/

/-- The bytes of the draw number `k` of a generator. -/
def draw (rngState : UInt64) (k : Nat) : Memory :=
  fun i => (outputBytes (nextState^[32 * k] rngState) 256)[i]?.getD 0

theorem nums_congr {bytes bytes' : Memory} (h : ∀ i < 256, bytes i = bytes' i) {i : Nat}
    (hi : i < 128) : nums bytes i = nums bytes' i := by
  rw [nums, nums, loadGf, loadGf, Memory.drop, Memory.drop, Memory.drop, Memory.drop,
    h (i * 2 + 1) (by omega), h (i * 2 + 0) (by omega)]

theorem picked_congr {bytes bytes' : Memory} (h : ∀ i < 256, bytes i = bytes' i) :
    picked bytes = picked bytes' := by
  rw [picked, picked]
  congr 2
  exact List.map_congr_left fun i hi => nums_congr h (List.mem_range.mp hi)

/-- What a round leaves in `ind` when it ends the loop. -/
theorem run_genERound (ind : Nat → BitVec 16) (s : Random) : ∃ ind' s',
    (genERound ind).run s = (.done (ind', decide (Accepted (draw s.rngState 0))), s') ∧
      s'.rngState = nextState^[32] s.rngState ∧
      (Accepted (draw s.rngState 0) → ∀ x, x ∈ picked (draw s.rngState 0) ↔
        ∃ j < sysT, ind' j = x) := by
  obtain ⟨s', hs'⟩ : ∃ s', s' = Random.mk (nextState^[32] s.rngState)
    (s.cells.write 0 (outputBytes s.rngState 256)) := ⟨_, rfl⟩
  have hbytes : ∀ i < 256, s'.cells.mem i = draw s.rngState 0 i := by
    intro i hi
    have hlength : i < (outputBytes s.rngState 256).length := by rwa [length_outputBytes]
    rw [hs', draw, Nat.mul_zero, Function.iterate_zero_apply, Cells.write_mem,
      if_pos (Nat.zero_le i), Nat.sub_zero, List.getElem?_eq_getElem hlength]
    rfl
  have hpicked := picked_congr hbytes
  have hrandom : (randombytes 0 (sysT * 2 * 2)).run s = (.done (), s') := by
    rw [hs', show sysT * 2 * 2 = 256 from rfl, run_randombytes]
  obtain ⟨hcount, hholds⟩ := moveIndices_eq s'.cells.mem ind
  rw [hpicked] at hcount hholds
  obtain ⟨⟨ind', count⟩, hmoved⟩ : ∃ r, moveIndices (nums s'.cells.mem) ind = r := ⟨_, rfl⟩
  rw [hmoved] at hcount hholds
  obtain ⟨l, hl⟩ : ∃ l, picked (draw s.rngState 0) = l := ⟨_, rfl⟩
  have hle : l.length ≤ sysT := hl ▸ List.length_take_le _ _
  simp only [Accepted, hl] at hcount hholds ⊢
  obtain rfl : count = l.length := hcount
  rw [genERound, Prog.bind_done hrandom, Prog.run_get_bind, hmoved]
  dsimp only
  by_cases hlt : l.length < sysT
  · rw [if_pos hlt]
    refine ⟨ind', s', ?_, hs' ▸ rfl, fun hacc => absurd hacc.1 (by omega)⟩
    rw [decide_eq_false fun hacc : _ ∧ _ => absurd hacc.1 (by omega)]
    rfl
  · rw [if_neg hlt]
    have hlength : l.length = sysT := by omega
    have hsmall : ∀ i < sysT, (ind' i).toNat < 2 ^ 15 := by
      intro i hi
      have hmem : ind' i ∈ picked (draw s.rngState 0) :=
        hl ▸ List.mem_of_getElem? (hholds i (hlength ▸ hi))
      exact (picked_lt hmem).trans (by decide)
    have hsort : Sorted BitVec.toNat sysT ind' (uint16Sort ind' sysT) :=
      sortLoops_sorted (P := fun a => a.toNat < 2 ^ 15) (fun _ _ => uintMinMax_eq) hsmall
    have hdistinct := (checkRepetition_eq_zero _).trans (sorted_distinct hlength hholds hsort)
    refine ⟨uint16Sort ind' sysT, s', ?_, hs' ▸ rfl, fun hacc x => ?_⟩
    · have hends := hdistinct.trans (and_iff_right hlength).symm
      rw [decide_eq_decide.mpr hends]
      rfl
    · obtain ⟨σ, hσ, hfix⟩ := hsort.rearranged
      rw [hσ, hholds.eq_map, List.mem_map, hlength]
      constructor
      · rintro ⟨a, ha, rfl⟩
        refine ⟨σ.symm a, perm_lt (σ := σ.symm) (fun k hk => ?_) (List.mem_range.mp ha), ?_⟩
        · rw [Equiv.symm_apply_eq, hfix k hk]
        · rw [Function.comp_apply, Equiv.apply_symm_apply]
      · rintro ⟨j, hj, rfl⟩
        exact ⟨σ j, List.mem_range.mpr (perm_lt hfix hj), rfl⟩

theorem draw_add (rngState : UInt64) (k : Nat) :
    draw (nextState^[32] rngState) k = draw rngState (k + 1) := by
  funext i
  simp only [draw, ← Function.iterate_add_apply, Nat.mul_succ]

theorem genELoop_succ (fuel : Nat) (ind : Nat → BitVec 16) : genELoop (fuel + 1) ind =
    genERound ind >>= fun r => if r.2 then pure r.1 else genELoop fuel r.1 := by
  rw [genELoop]

/-- The loop ends with the first draw that is accepted. -/
theorem run_genELoop {fuel k : Nat} {s : Random} (hfuel : k < fuel)
    (hrejected : ∀ i < k, ¬Accepted (draw s.rngState i)) (haccepted : Accepted (draw s.rngState k))
    (ind : Nat → BitVec 16) : ∃ ind' s', (genELoop fuel ind).run s = (.done ind', s') ∧
      ∀ x, x ∈ picked (draw s.rngState k) ↔ ∃ j < sysT, ind' j = x := by
  induction k generalizing fuel ind s with
  | zero =>
    obtain ⟨fuel, rfl⟩ : ∃ m, fuel = m + 1 := ⟨fuel - 1, by omega⟩
    obtain ⟨ind', s', hround, -, hmem⟩ := run_genERound ind s
    rw [decide_eq_true haccepted] at hround
    refine ⟨ind', s', ?_, hmem haccepted⟩
    rw [genELoop_succ, Prog.bind_done hround, if_pos rfl, Prog.run_pure]
  | succ k ih =>
    obtain ⟨fuel, rfl⟩ : ∃ m, fuel = m + 1 := ⟨fuel - 1, by omega⟩
    obtain ⟨ind', s', hround, hstate, -⟩ := run_genERound ind s
    rw [decide_eq_false (hrejected 0 (Nat.succ_pos k))] at hround
    have hdraw (i : Nat) : draw s'.rngState i = draw s.rngState (i + 1) := by
      rw [hstate, draw_add]
    have hrejected' : ∀ i < k, ¬Accepted (draw s'.rngState i) := by
      intro i hi
      rw [hdraw]
      exact hrejected (i + 1) (by omega)
    rw [← hdraw] at haccepted ⊢
    obtain ⟨ind'', s'', hrest, hmem⟩ := ih (Nat.lt_of_succ_lt_succ hfuel) hrejected' haccepted ind'
    refine ⟨ind'', s'', ?_, hmem⟩
    rw [genELoop_succ, Prog.bind_done hround, if_neg Bool.false_ne_true, hrest]

/-! ### The words -/

theorem wordMask_eq (ind : Nat → BitVec 16) {i : Nat} (hi : i < 64) (j : Nat) :
    wordMask ind i j = if (ind j).toNat / 64 = i then UInt64.ofNat (2 ^ 64 - 1) else 0 := by
  have hind := (ind j).isLt
  have hshift : (ind j).toNat >>> 6 = (ind j).toNat / 64 := Nat.shiftRight_eq_div_pow _ 6
  have hlt : i ^^^ (ind j).toNat / 64 < 2 ^ 10 := Nat.xor_lt_two_pow (by omega) (by omega)
  rw [wordMask, hshift]
  split
  · case isTrue h =>
    rw [h, Nat.xor_self]
    rfl
  · case isFalse h =>
    have hne : i ^^^ (ind j).toNat / 64 ≠ 0 := fun hzero => h (Nat.xor_eq_zero_iff.mp hzero).symm
    obtain ⟨x, hx⟩ : ∃ x, i ^^^ (ind j).toNat / 64 = x := ⟨_, rfl⟩
    rw [hx] at hlt hne
    have hzero : (UInt64.ofNat x - 1) >>> 63 = 0 := by
      apply UInt64.toNat_inj.mp
      rw [UInt64.toNat_shiftRight, UInt64.toNat_sub_of_le]
      · rw [UInt64.toNat_ofNat', Nat.mod_eq_of_lt (by omega), Nat.shiftRight_eq_div_pow]
        exact Nat.div_eq_of_lt (by simp; omega)
      · rw [UInt64.le_iff_toNat_le, UInt64.toNat_ofNat', Nat.mod_eq_of_lt (by omega)]
        simp
        omega
    rw [hx]
    simp only [hzero]
    rfl

theorem val_toNat (ind : Nat → BitVec 16) (j : Nat) :
    (val ind j).toNat = 2 ^ ((ind j).toNat % 64) := by
  have hind := (ind j).isLt
  have hand : (UInt64.ofNat (ind j).toNat &&& 63).toNat = (ind j).toNat % 64 := by
    rw [UInt64.toNat_and, UInt64.toNat_ofNat', Nat.mod_eq_of_lt (by omega)]
    exact Nat.and_two_pow_sub_one_eq_mod _ 6
  rw [val, UInt64.toNat_shiftLeft, hand, Nat.mod_mod, UInt64.toNat_one, Nat.one_shiftLeft]
  exact Nat.mod_eq_of_lt (Nat.pow_lt_pow_right (by decide) (Nat.mod_lt _ (by decide)))

/-- The bits of a word are those of its indices. -/
theorem testBit_eInt (ind : Nat → BitVec 16) {i b : Nat} (hi : i < 64) (hb : b < 64) :
    (eInt ind i).toNat.testBit b = decide (∃ j < sysT, (ind j).toNat = 64 * i + b) := by
  have hstep (j : Nat) : (val ind j &&& wordMask ind i j).toNat.testBit b =
      decide ((ind j).toNat = 64 * i + b) := by
    rw [wordMask_eq ind hi, UInt64.toNat_and, Nat.testBit_and, val_toNat, Nat.testBit_two_pow]
    split
    · case isTrue h =>
      have hones : (UInt64.ofNat (2 ^ 64 - 1)).toNat.testBit b = true := by
        rw [UInt64.toNat_ofNat', Nat.mod_eq_of_lt (by decide), Nat.testBit_two_pow_sub_one,
          decide_eq_true hb]
      rw [hones, Bool.and_true]
      exact decide_eq_decide.mpr (by omega)
    · case isFalse h =>
      rw [UInt64.toNat_zero, Nat.zero_testBit, Bool.and_false]
      exact (decide_eq_false (by omega)).symm
  have hloop (js : List Nat) (w : UInt64) :
      (js.foldl (fun w j => w ||| val ind j &&& wordMask ind i j) w).toNat.testBit b =
        (w.toNat.testBit b || js.any fun j => (ind j).toNat = 64 * i + b) := by
    induction js generalizing w with
    | nil => simp
    | cons j js ih =>
      rw [List.foldl_cons, ih, UInt64.toNat_or, Nat.testBit_or, hstep, List.any_cons,
        Bool.or_assoc]
  rw [eInt, hloop, UInt64.toNat_zero, Nat.zero_testBit, Bool.false_or, Bool.eq_iff_iff]
  simp

/-- The byte `k` of a word. -/
def byteOf (x : UInt64) (k : Nat) : UInt8 := (x >>> UInt64.ofNat (8 * k) &&& 0xFF).toUInt8

theorem testBit_byteOf (x : UInt64) {k b : Nat} (hk : k < 8) (hb : b < 8) :
    (byteOf x k).toNat.testBit b = x.toNat.testBit (8 * k + b) := by
  have hshift : (UInt64.ofNat (8 * k)).toNat % 64 = 8 * k := by
    rw [UInt64.toNat_ofNat']
    omega
  have hmask : x.toNat >>> (8 * k) &&& 255 = x.toNat >>> (8 * k) % 2 ^ 8 :=
    Nat.and_two_pow_sub_one_eq_mod _ 8
  rw [byteOf, UInt64.toNat_toUInt8, UInt64.toNat_and, UInt64.toNat_shiftRight, hshift,
    show (0xFF : UInt64).toNat = 255 from rfl, hmask, Nat.mod_mod, Nat.testBit_mod_two_pow,
    Nat.testBit_shiftRight, decide_eq_true hb, Bool.true_and]

theorem store8_mem (out : Nat) (x : UInt64) (c : Cells) (a : Nat) : (store8 out x c).mem a =
    if out ≤ a ∧ a < out + 8 then byteOf x (a - out) else c.mem a := by
  rw [store8, storeI, Cells.write_mem]
  by_cases hle : out ≤ a
  · rw [if_pos hle]
    by_cases hlt : a < out + 8
    · rw [if_pos ⟨hle, hlt⟩, List.getElem?_map, List.getElem?_range (by omega), byteOf,
        Nat.mul_comm]
      rfl
    · rw [if_neg (by omega), List.getElem?_eq_none]
      · rfl
      · rw [List.length_map, List.length_range]
        omega
  · rw [if_neg hle, if_neg (by omega)]

theorem storeWords_loop (words : Nat → UInt64) (e : Cells) (n : Nat) :
    let r := (List.range n).foldl (fun (c, e) i => (store8 e (words i) c, e + 8)) (e, 0)
    r.2 = 8 * n ∧
      ∀ a, r.1.mem a = if a < 8 * n then byteOf (words (a / 8)) (a % 8) else e.mem a := by
  induction n with
  | zero => exact ⟨rfl, fun a => (if_neg (Nat.not_lt_zero a)).symm⟩
  | succ n ih =>
    obtain ⟨⟨c, p⟩, hr⟩ : ∃ r, (List.range n).foldl
      (fun (c, e) i => (store8 e (words i) c, e + 8)) (e, 0) = r := ⟨_, rfl⟩
    rw [hr] at ih
    obtain ⟨rfl, hmem⟩ := ih
    rw [List.range_succ, List.foldl_append, hr]
    refine ⟨rfl, fun a => ?_⟩
    simp only [List.foldl_cons, List.foldl_nil, store8_mem]
    split
    · case isTrue h =>
      rw [if_pos (by omega), show a / 8 = n by omega, show a - 8 * n = a % 8 by omega]
    · case isFalse h =>
      rw [hmem]
      exact if_congr (by omega) rfl rfl

theorem storeWords_mem (words : Nat → UInt64) (e : Cells) (a : Nat) : (storeWords words e).mem a =
    if a < sysN / 8 then byteOf (words (a / 8)) (a % 8) else e.mem a := by
  obtain ⟨⟨c, p⟩, hr⟩ : ∃ r, (List.range (eWords - 1)).foldl
    (fun (c, e) i => (store8 e (words i) c, e + 8)) (e, 0) = r := ⟨_, rfl⟩
  have hloop := storeWords_loop words e (eWords - 1)
  rw [hr] at hloop
  obtain ⟨rfl, hmem⟩ := hloop
  have hlast (c : Cells) (n : Nat) : ((List.range n).foldl (fun c k =>
      c.put (432 + k) (byteOf (words 54) k)) c).mem a =
        if 432 ≤ a ∧ a < 432 + n then byteOf (words 54) (a - 432) else c.mem a := by
    induction n with
    | zero => exact (if_neg (by omega)).symm
    | succ n ih =>
      rw [List.range_succ, List.foldl_append, List.foldl_cons, List.foldl_nil, Cells.put]
      dsimp only
      rcases eq_or_ne a (432 + n) with rfl | hne
      · rw [Function.update_self, if_pos (by omega), Nat.add_sub_cancel_left]
      · rw [Function.update_of_ne hne, ih]
        exact if_congr (by omega) rfl rfl
  rw [storeWords, hr]
  refine (hlast c 4).trans ?_
  rw [hmem, show sysN / 8 = 436 from rfl, show 8 * (eWords - 1) = 432 from rfl]
  rcases Nat.lt_or_ge a 432 with h | h
  · rw [if_neg (by omega), if_pos h, if_pos (by omega)]
  · rcases Nat.lt_or_ge a 436 with h' | h'
    · rw [if_pos (by omega), if_pos (by omega), show a / 8 = 54 by omega,
        show a - 432 = a % 8 by omega]
    · rw [if_neg (by omega), if_neg (by omega), if_neg (by omega)]

/-! ### The error vector -/

/-- The bit `i` of an error vector. -/
def errorBit (e : Memory) (i : Nat) : Bool := (e (i / 8)).toNat.testBit (i % 8)

/-- The number of the bits that are set. -/
def weight (e : Memory) : Nat := ((List.range sysN).filter fun i => errorBit e i).length

theorem errorBit_storeWords (ind : Nat → BitVec 16) (e : Cells) {i : Nat} (hi : i < sysN) :
    errorBit (storeWords (eInt ind) e).mem i = decide (∃ j < sysT, (ind j).toNat = i) := by
  rw [sysN] at hi
  rw [errorBit, storeWords_mem, if_pos (by rw [sysN]; omega),
    testBit_byteOf _ (by omega) (by omega), testBit_eInt ind (by omega) (by omega)]
  refine decide_eq_decide.mpr (exists_congr fun j => and_congr_right fun _ => ?_)
  omega

/-- A set of `t` indices has the weight `t`. -/
theorem weight_eq {e : Memory} {l : List (BitVec 16)} (hlength : l.length = sysT)
    (hnodup : l.Nodup) (hlt : ∀ x ∈ l, x.toNat < sysN)
    (hbit : ∀ i < sysN, errorBit e i = decide (∃ x ∈ l, x.toNat = i)) : weight e = sysT := by
  have hperm : ((List.range sysN).filter fun i => errorBit e i).Perm (l.map BitVec.toNat) := by
    refine (List.perm_ext_iff_of_nodup (List.nodup_range.filter _)
      (hnodup.map fun _ _ => BitVec.eq_of_toNat_eq)).mpr fun i => ?_
    rw [List.mem_filter, List.mem_range, List.mem_map]
    constructor
    · rintro ⟨hi, hset⟩
      rw [hbit i hi] at hset
      exact of_decide_eq_true hset
    · rintro ⟨x, hx, rfl⟩
      refine ⟨hlt x hx, ?_⟩
      rw [hbit _ (hlt x hx)]
      exact decide_eq_true ⟨x, hx, rfl⟩
  rw [weight, hperm.length_eq, List.length_map, hlength]

/-- `gen_e` returns with the first draw of the generator that is accepted, and then exactly the
first `t` numbers of it in the range are set, which are `t` different ones.  It stores nothing
behind the error vector. -/
theorem genE_spec {s : Random} {fuel k : Nat} (hfuel : k < fuel)
    (hrejected : ∀ i < k, ¬Accepted (draw s.rngState i)) (haccepted : Accepted (draw s.rngState k))
    (ind : Nat → BitVec 16) (e : Cells) : ∃ e' s', (genE fuel ind e).run s = (.done e', s') ∧
      (∀ i < sysN, errorBit e'.mem i =
        decide (∃ x ∈ picked (draw s.rngState k), x.toNat = i)) ∧
      weight e'.mem = sysT ∧ ∀ a ≥ sysN / 8, e'.mem a = e.mem a := by
  obtain ⟨ind', s', hrun, hmem⟩ := run_genELoop hfuel hrejected haccepted ind
  obtain ⟨l, hl⟩ : ∃ l, picked (draw s.rngState k) = l := ⟨_, rfl⟩
  have hbit : ∀ i < sysN, errorBit (storeWords (eInt ind') e).mem i =
      decide (∃ x ∈ l, x.toNat = i) := by
    intro i hi
    rw [errorBit_storeWords ind' e hi]
    refine decide_eq_decide.mpr ?_
    simp only [hl] at hmem
    simp only [hmem]
    constructor
    · rintro ⟨j, hj, rfl⟩
      exact ⟨ind' j, ⟨j, hj, rfl⟩, rfl⟩
    · rintro ⟨x, ⟨j, hj, rfl⟩, rfl⟩
      exact ⟨j, hj, rfl⟩
  have hlt : ∀ x ∈ l, x.toNat < sysN := fun x hx => picked_lt (hl ▸ hx)
  rw [Accepted, hl] at haccepted
  rw [hl]
  refine ⟨_, s', ?_, hbit, weight_eq haccepted.1 haccepted.2 hlt hbit, fun a ha => ?_⟩
  · rw [genE, Prog.bind_done hrun, Prog.run_pure]
  · rw [storeWords_mem, if_neg (Nat.not_lt.mpr ha)]

/-- The first draw with the default seed is accepted. -/
theorem genE_spec_seed : ∃ e' s',
    (genE 1 (fun _ => 0) ⟨fun _ => 0, []⟩).run ⟨88172645463325252, ⟨fun _ => 0, []⟩⟩ =
      (.done e', s') ∧
    (∀ i < sysN, errorBit e'.mem i =
      decide (∃ x ∈ picked (draw 88172645463325252 0), x.toNat = i)) ∧
    weight e'.mem = sysT ∧ ∀ a ≥ sysN / 8, e'.mem a = 0 :=
  genE_spec (s := ⟨88172645463325252, ⟨fun _ => 0, []⟩⟩) (by decide) (by simp)
    (by decide +kernel) _ _

end Mlonmcu.McEliece
