import Mathlib.Algebra.BigOperators.Fin
import Mathlib.Tactic.Linarith
import Mathlib.Tactic.Positivity
import Mathlib.Tactic.Zify
import Mlonmcu.Mathis.Kernels

/-! The matrix kernels compute the same product, whatever the order of their loops and wherever they
drop the upper bits. -/

namespace Mlonmcu.Mathis

open CLib

/-! ### Arithmetic -/

section

variable {σ : Type} {w : Nat}

theorem toInt_bounds (hw : w ≤ 16) (x : BitVec w) : -2 ^ 15 ≤ x.toInt ∧ x.toInt < 2 ^ 15 := by
  have hpow : (2 : Int) ^ (w - 1) ≤ 2 ^ 15 := pow_le_pow_right₀ (by decide) (by omega)
  have hle := BitVec.le_toInt x
  have hlt := BitVec.toInt_lt (x := x)
  omega

/-- The product of two elements is an `int`, also when an element is added. -/
theorem product_bounds (hw : w ≤ 16) (x y : BitVec w) :
    -2 ^ 30 ≤ x.toInt * y.toInt ∧ x.toInt * y.toInt ≤ 2 ^ 30 := by
  obtain ⟨hx, hx'⟩ := toInt_bounds hw x
  obtain ⟨hy, hy'⟩ := toInt_bounds hw y
  constructor <;> nlinarith

theorem adds_addProduct (hw : w ≤ 16) (k : Nat) (a b : BitVec w) :
    Adds (addProduct k a b) (Pi.single k (a * b)) := by
  intro d
  have hproduct := product_bounds hw a b
  have hcell := toInt_bounds hw (d k)
  have hsum : BitVec.ofInt w ((d k).toInt + a.toInt * b.toInt) = d k + a * b := by
    rw [BitVec.ofInt_add, BitVec.ofInt_mul, BitVec.ofInt_toInt, BitVec.ofInt_toInt,
      BitVec.ofInt_toInt]
  rw [addProduct, Prog.bind_done (Prog.run_checkInt (by omega) (by omega) _), Prog.run_get_bind,
    Prog.bind_done (Prog.run_checkInt (by omega) (by omega) _), hsum]
  exact adds_cell k (a * b) d

theorem setWidth_ofInt (hw : w ≤ 32) (z : Int) :
    (BitVec.ofInt 32 z).setWidth w = BitVec.ofInt w z := by
  have hdvd : (2 ^ w : Int) ∣ 2 ^ 32 := pow_dvd_pow 2 hw
  apply BitVec.eq_of_toNat_eq
  rw [BitVec.toNat_setWidth, BitVec.toNat_ofInt, BitVec.toNat_ofInt]
  zify
  rw [Int.toNat_of_nonneg (Int.emod_nonneg _ (by positivity)),
    Int.toNat_of_nonneg (Int.emod_nonneg _ (by positivity))]
  exact Int.emod_emod_of_dvd z hdvd

/-- The element that is stored of an accumulator is the one of exact products. -/
theorem run_dotLoop (hw : w ≤ 16) (a b : Elements w) (is : List Nat) (acc : BitVec 32) (s : σ) :
    ∃ value, (dotLoop a b is acc).run s = (.done value, s) ∧
      value.setWidth w = acc.setWidth w + (is.map fun i => a i * b i).sum := by
  induction is generalizing acc with
  | nil => exact ⟨acc, rfl, by simp⟩
  | cons i is ih =>
    have hproduct := product_bounds hw (a i) (b i)
    obtain ⟨value, hrun, hvalue⟩ := ih (acc + BitVec.ofInt 32 ((a i).toInt * (b i).toInt))
    refine ⟨value, ?_, ?_⟩
    · rw [dotLoop, Prog.bind_done (Prog.run_checkInt (by omega) (by omega) _), hrun]
    · rw [hvalue, BitVec.setWidth_add _ _ (by omega), setWidth_ofInt (by omega),
        BitVec.ofInt_mul, BitVec.ofInt_toInt, BitVec.ofInt_toInt, List.map_cons, List.sum_cons,
        add_assoc]

end

/-! ### Indices and sums -/

section

variable {w : Nat} {n : UInt64}

theorem index_eq (hn : n.toNat * n.toNat < 2 ^ 64) {y x : Nat} (hy : y < n.toNat)
    (hx : x < n.toNat) : index n y x = y * n.toNat + x := by
  have hlt := n.toNat_lt
  have hle := Nat.mul_le_mul_right n.toNat (Nat.succ_le_of_lt hy)
  rw [Nat.succ_mul] at hle
  rw [index, UInt64.toNat_add, UInt64.toNat_mul, UInt64.toNat_ofNat', UInt64.toNat_ofNat',
    Nat.mod_eq_of_lt (show y < 2 ^ 64 by omega), Nat.mod_eq_of_lt (show x < 2 ^ 64 by omega),
    Nat.mod_eq_of_lt (show y * n.toNat < 2 ^ 64 by omega), Nat.mod_eq_of_lt (by omega)]

theorem row_eq (hn : n.toNat * n.toNat < 2 ^ 64) {y : Nat} (hy : y < n.toNat) (a : Elements w)
    (i : Nat) : row n a y i = a (y * n.toNat + i) := by
  have hzero := index_eq hn hy (Nat.zero_lt_of_lt hy)
  have hstart : (UInt64.ofNat y * n).toNat = y * n.toNat := by
    simpa [index] using hzero
  rw [row, hstart]

/-- What is added to the cells of a matrix, with the term `i` of the cell in row `y` and column
`x`. -/
def sums (n : Nat) (term : Nat → Nat → Nat → BitVec w) : Elements w :=
  ∑ y ∈ Finset.range n, ∑ x ∈ Finset.range n, ∑ i ∈ Finset.range n,
    Pi.single (y * n + x) (term y x i)

theorem index_inj {n y x r c : Nat} (hx : x < n) (hc : c < n) (h : y * n + x = r * n + c) :
    y = r ∧ x = c := by
  have hdiv (z m : Nat) (hm : m < n) : (z * n + m) / n = z := by
    rw [Nat.add_comm, Nat.add_mul_div_right _ _ (by omega), Nat.div_eq_of_lt hm, Nat.zero_add]
  have hrow : y = r := by rw [← hdiv y x hx, ← hdiv r c hc, h]
  subst hrow
  exact ⟨rfl, by omega⟩

theorem sums_apply {n : Nat} (term : Nat → Nat → Nat → BitVec w) {r c : Nat} (hr : r < n)
    (hc : c < n) : sums n term (r * n + c) = ∑ i ∈ Finset.range n, term r c i := by
  simp only [sums, Finset.sum_apply]
  rw [Finset.sum_eq_single_of_mem r (Finset.mem_range.mpr hr),
    Finset.sum_eq_single_of_mem c (Finset.mem_range.mpr hc)]
  · exact Finset.sum_congr rfl fun i _ => Pi.single_eq_same _ _
  · intro x hx hne
    refine Finset.sum_eq_zero fun i _ => Pi.single_eq_of_ne (fun heq => hne ?_) _
    exact (index_inj (Finset.mem_range.mp hx) hc heq.symm).2
  · intro y _ hne
    refine Finset.sum_eq_zero fun x hx => Finset.sum_eq_zero fun i _ =>
      Pi.single_eq_of_ne (fun heq => hne ?_) _
    exact (index_inj (Finset.mem_range.mp hx) hc heq.symm).1

theorem sums_of_le {n : Nat} (term : Nat → Nat → Nat → BitVec w) {k : Nat} (hk : n * n ≤ k) :
    sums n term k = 0 := by
  simp only [sums, Finset.sum_apply]
  refine Finset.sum_eq_zero fun y hy => Finset.sum_eq_zero fun x hx => Finset.sum_eq_zero
    fun i _ => Pi.single_eq_of_ne ?_ _
  have hle := Nat.mul_le_mul_right n (Nat.succ_le_of_lt (Finset.mem_range.mp hy))
  rw [Nat.succ_mul] at hle
  have hlt := Finset.mem_range.mp hx
  omega

/-- The order of the two inner loops makes no difference. -/
theorem sums_comm (n : Nat) (term : Nat → Nat → Nat → BitVec w) :
    (∑ y ∈ Finset.range n, ∑ i ∈ Finset.range n, ∑ x ∈ Finset.range n,
      Pi.single (y * n + x) (term y x i)) = sums n term :=
  Finset.sum_congr rfl fun _ _ => Finset.sum_comm

/-- The terms of a product. -/
def productTerm (n : Nat) (a b : Elements w) (r c i : Nat) : BitVec w :=
  a (r * n + i) * b (i * n + c)

theorem toMatrix_mul (n : Nat) (a b : Elements w) (r c : Fin n) :
    (toMatrix n a * toMatrix n b) r c = ∑ i ∈ Finset.range n, productTerm n a b r c i := by
  rw [Matrix.mul_apply, Finset.sum_range]
  rfl

theorem transpose_apply {n : Nat} (b : Elements w) {r c : Nat} (hc : c < n) :
    transpose n b (r * n + c) = b (c * n + r) := by
  have hpos : 0 < n := Nat.zero_lt_of_lt hc
  rw [transpose, Nat.add_comm (r * n), Nat.add_mul_mod_self_right, Nat.mod_eq_of_lt hc,
    Nat.add_mul_div_right _ _ hpos, Nat.div_eq_of_lt hc, Nat.zero_add]

/-- A program that adds the terms of a product leaves the sum. -/
theorem leaves_of_adds {n : Nat} {p : Prog (Elements w) Unit} {a b : Elements w}
    (h : Adds p (sums n (productTerm n a b))) (d : Elements w) :
    Leaves n (p >>= fun _ => pure 0) d (toMatrix n d + toMatrix n a * toMatrix n b) := by
  refine ⟨_, Prog.bind_done (h d), ?_, fun k hk => ?_⟩
  · ext1 r c
    rw [Matrix.add_apply, toMatrix_mul, ← sums_apply _ r.isLt c.isLt]
    rfl
  · rw [Pi.add_apply, sums_of_le _ hk, add_zero]

/-! ### Kernels -/

/-- A loop over the columns inside of one over the rows adds the terms of a product. -/
theorem adds_rows (hw : w ≤ 16) (hn : n.toNat * n.toNat < 2 ^ 64) (a b b' : Elements w)
    (at' : Nat → Nat → Nat)
    (hb : ∀ i x, i < n.toNat → x < n.toNat → b' (at' i x) = b (i * n.toNat + x)) :
    Adds (loop n fun y => loop n fun x => loop n fun i =>
      addProduct (index n y x) (a (index n y i)) (b' (at' i x)))
        (sums n.toNat (productTerm n.toNat a b)) := by
  refine adds_range fun y hy => adds_range fun x hx => adds_range fun i hi => ?_
  rw [index_eq hn hy hx, index_eq hn hy hi, hb i x hi hx]
  exact adds_addProduct hw _ _ _

/-- A loop over the columns inside of one over the terms adds the terms of a product. -/
theorem adds_terms (hw : w ≤ 16) (hn : n.toNat * n.toNat < 2 ^ 64) (a b b' : Elements w)
    (at' : Nat → Nat → Nat)
    (hb : ∀ i x, i < n.toNat → x < n.toNat → b' (at' i x) = b (i * n.toNat + x)) :
    Adds (loop n fun y => loop n fun i => loop n fun x =>
      addProduct (index n y x) (a (index n y i)) (b' (at' i x)))
        (sums n.toNat (productTerm n.toNat a b)) := by
  rw [← sums_comm]
  refine adds_range fun y hy => adds_range fun i hi => adds_range fun x hx => ?_
  rw [index_eq hn hy hx, index_eq hn hy hi, hb i x hi hx]
  exact adds_addProduct hw _ _ _

theorem index_transpose (hn : n.toNat * n.toNat < 2 ^ 64) (b : Elements w) (i x : Nat)
    (hi : i < n.toNat) (hx : x < n.toNat) :
    transpose n.toNat b (index n x i) = b (i * n.toNat + x) := by
  rw [index_eq hn hx hi, transpose_apply b hi]

theorem matmul_addsProduct (hw : w ≤ 16) (hn : n.toNat * n.toNat < 2 ^ 64) :
    AddsProduct (w := w) matmul n := fun d a b =>
  leaves_of_adds (adds_rows hw hn a b b (index n)
    fun _ _ hi hx => congrArg b (index_eq hn hi hx)) d

theorem matmulA_addsProduct (hw : w ≤ 16) (hn : n.toNat * n.toNat < 2 ^ 64) :
    AddsProduct (w := w) matmulA n := fun d a b =>
  leaves_of_adds (adds_terms hw hn a b b (index n)
    fun _ _ hi hx => congrArg b (index_eq hn hi hx)) d

theorem transposedMatmul_addsProduct (hw : w ≤ 16) (hn : n.toNat * n.toNat < 2 ^ 64) :
    AddsTransposedProduct (w := w) transposedMatmul n := fun d a b =>
  leaves_of_adds (adds_rows hw hn a b _ (fun i x => index n x i) (index_transpose hn b)) d

theorem transposedMatmulA_addsProduct (hw : w ≤ 16) (hn : n.toNat * n.toNat < 2 ^ 64) :
    AddsTransposedProduct (w := w) transposedMatmulA n := fun d a b =>
  leaves_of_adds (adds_terms hw hn a b _ (fun i x => index n x i) (index_transpose hn b)) d

/-- The element of the product in a cell. -/
def productAt (n : Nat) (a b : Elements w) (k : Nat) : BitVec w :=
  ∑ i ∈ Finset.range n, productTerm n a b (k / n) (k % n) i

theorem productAt_index {n : Nat} (a b : Elements w) (r : Nat) {c : Nat} (hc : c < n) :
    productAt n a b (r * n + c) = ∑ i ∈ Finset.range n, productTerm n a b r c i := by
  have hpos : 0 < n := Nat.zero_lt_of_lt hc
  rw [productAt, Nat.add_comm (r * n), Nat.add_mul_mod_self_right, Nat.mod_eq_of_lt hc,
    Nat.add_mul_div_right _ _ hpos, Nat.div_eq_of_lt hc, Nat.zero_add]

theorem run_dot (hw : w ≤ 16) (hn : n.toNat * n.toNat < 2 ^ 64) (a b d : Elements w) {y x : Nat}
    (hy : y < n.toNat) (hx : x < n.toNat) : ∃ value,
    (dot n (row n a y) (row n (transpose n.toNat b) x)).run d = (.done value, d) ∧
      value.setWidth w = productAt n.toNat a b (y * n.toNat + x) := by
  obtain ⟨value, hrun, hvalue⟩ := run_dotLoop hw (row n a y) (row n (transpose n.toNat b) x)
    (List.range n.toNat) 0 d
  have hzero : (0 : BitVec 32).setWidth w = 0 := BitVec.setWidth_zero _ _
  have hterms : (List.range n.toNat).map (fun i => row n a y i * row n (transpose n.toNat b) x i) =
      (List.range n.toNat).map (productTerm n.toNat a b y x) := by
    refine List.map_congr_left fun i hi => ?_
    rw [row_eq hn hy, row_eq hn hx, transpose_apply b (List.mem_range.mp hi)]
    rfl
  refine ⟨value, hrun, hvalue.trans ?_⟩
  rw [hzero, zero_add, productAt_index a b y hx, hterms]
  rfl

theorem sets_row (hw : w ≤ 16) (hn : n.toNat * n.toNat < 2 ^ 64) (a b : Elements w) {y x : Nat}
    (hy : y < n.toNat) (hx : x < n.toNat) :
    Sets (do
      let value ← dot n (row n a y) (row n (transpose n.toNat b) x)
      Prog.modify fun d => Function.update d (index n y x) (value.setWidth w))
        {y * n.toNat + x} (productAt n.toNat a b) := by
  intro d
  obtain ⟨value, hrun, hvalue⟩ := run_dot hw hn a b d hy hx
  rw [Prog.bind_done hrun, hvalue, index_eq hn hy hx]
  exact sets_cell _ _ d

theorem transposedMatmulB_setsProduct (hw : w ≤ 16) (hn : n.toNat * n.toNat < 2 ^ 64) :
    SetsTransposedProduct (w := w) transposedMatmulB n := by
  intro d a b
  obtain ⟨d', hrun, hset, hframe⟩ :=
    sets_range (fun y hy => sets_range fun x hx => sets_row hw hn a b hy hx) d
  refine ⟨d', Prog.bind_done hrun, ?_, fun k hk => hframe k ?_⟩
  · ext1 r c
    rw [toMatrix_mul, ← productAt_index a b r c.isLt]
    exact hset _ ⟨r, r.isLt, c, c.isLt, rfl⟩
  · rintro ⟨y, hy, x, hx, rfl⟩
    have hle := Nat.mul_le_mul_right n.toNat (Nat.succ_le_of_lt hy)
    rw [Nat.succ_mul] at hle
    omega

/-- The kernels of both types compute the product of two matrices. -/
theorem kernels_multiply (n : UInt64) (hn : n.toNat * n.toNat < 2 ^ 64) :
    (AddsProduct matmul8 n ∧ AddsProduct matmul8A n ∧
      AddsTransposedProduct transposedMatmul8 n ∧ AddsTransposedProduct transposedMatmul8A n ∧
      SetsTransposedProduct transposedMatmul8B n) ∧
    AddsProduct matmul16 n ∧ AddsProduct matmul16A n ∧
      AddsTransposedProduct transposedMatmul16 n ∧ AddsTransposedProduct transposedMatmul16A n ∧
      SetsTransposedProduct transposedMatmul16B n := by
  have hbyte : 8 ≤ 16 := by decide
  have hword : 16 ≤ 16 := Nat.le_refl 16
  refine ⟨⟨?_, ?_, ?_, ?_, ?_⟩, ?_, ?_, ?_, ?_, ?_⟩
  · exact matmul_addsProduct hbyte hn
  · exact matmulA_addsProduct hbyte hn
  · exact transposedMatmul_addsProduct hbyte hn
  · exact transposedMatmulA_addsProduct hbyte hn
  · exact transposedMatmulB_setsProduct hbyte hn
  · exact matmul_addsProduct hword hn
  · exact matmulA_addsProduct hword hn
  · exact transposedMatmul_addsProduct hword hn
  · exact transposedMatmulA_addsProduct hword hn
  · exact transposedMatmulB_setsProduct hword hn

theorem kernels_multiply_two :
    (AddsProduct matmul8 2 ∧ AddsProduct matmul8A 2 ∧
      AddsTransposedProduct transposedMatmul8 2 ∧ AddsTransposedProduct transposedMatmul8A 2 ∧
      SetsTransposedProduct transposedMatmul8B 2) ∧
    AddsProduct matmul16 2 ∧ AddsProduct matmul16A 2 ∧
      AddsTransposedProduct transposedMatmul16 2 ∧ AddsTransposedProduct transposedMatmul16A 2 ∧
      SetsTransposedProduct transposedMatmul16B 2 :=
  kernels_multiply 2 (by decide)

end

end Mlonmcu.Mathis
