import Mathlib.Data.BitVec
import Mathlib.Data.Matrix.Mul
import Mlonmcu.CLib.Loops

/-! The matrix kernels of the mathis suite, on elements of 8 and of 16 bits. -/

namespace Mlonmcu.Mathis

open CLib

/-- The elements of an array. -/
abbrev Elements (w : Nat) := Nat → BitVec w

section

variable {σ : Type} {w : Nat}

/-- The loop of `dot8` and `dot16` over the indices that are left. -/
def dotLoop (a b : Elements w) : List Nat → BitVec 32 → Prog σ (BitVec 32)
  | [], acc => pure acc
  | i :: is, acc => do
    let product ← Prog.checkInt ((a i).toInt * (b i).toInt)
    dotLoop a b is (acc + BitVec.ofInt 32 product)

def dot (n : UInt64) (a b : Elements w) : Prog σ (BitVec 32) :=
  dotLoop a b (List.range n.toNat) 0

/-- `y * n + x`. -/
def index (n : UInt64) (y x : Nat) : Nat := (UInt64.ofNat y * n + UInt64.ofNat x).toNat

/-- The array at `&a[y * n]`. -/
def row (n : UInt64) (a : Elements w) (y : Nat) : Elements w :=
  fun i => a ((UInt64.ofNat y * n).toNat + i)

/-- `d[k] += a * b`. -/
def addProduct (k : Nat) (a b : BitVec w) : Prog (Elements w) Unit := do
  let product ← Prog.checkInt (a.toInt * b.toInt)
  let d ← Prog.get
  let sum ← Prog.checkInt ((d k).toInt + product)
  Prog.modify fun d => Function.update d k (BitVec.ofInt w sum)

/-- `for (size_t i = 0; i < n; i++)`. -/
def loop (n : UInt64) (body : Nat → Prog σ Unit) : Prog σ Unit := forEach body (List.range n.toNat)

def matmul (n : UInt64) (a b : Elements w) : Prog (Elements w) Int32 := do
  loop n fun y =>
    loop n fun x =>
      loop n fun i => addProduct (index n y x) (a (index n y i)) (b (index n i x))
  pure 0

def matmulA (n : UInt64) (a b : Elements w) : Prog (Elements w) Int32 := do
  loop n fun aY =>
    loop n fun bY =>
      loop n fun i => addProduct (index n aY i) (a (index n aY bY)) (b (index n bY i))
  pure 0

def transposedMatmul (n : UInt64) (a b : Elements w) : Prog (Elements w) Int32 := do
  loop n fun y =>
    loop n fun x =>
      loop n fun i => addProduct (index n y x) (a (index n y i)) (b (index n x i))
  pure 0

def transposedMatmulA (n : UInt64) (a b : Elements w) : Prog (Elements w) Int32 := do
  loop n fun aY =>
    loop n fun bY =>
      loop n fun i => addProduct (index n aY i) (a (index n aY bY)) (b (index n i bY))
  pure 0

def transposedMatmulB (n : UInt64) (a b : Elements w) : Prog (Elements w) Int32 := do
  loop n fun y =>
    loop n fun x => do
      let value ← dot n (row n a y) (row n b x)
      Prog.modify fun d => Function.update d (index n y x) (value.setWidth w)
  pure 0

end

abbrev Kernel (w : Nat) := UInt64 → Elements w → Elements w → Prog (Elements w) Int32

def matmul8 : Kernel 8 := matmul

def matmul16 : Kernel 16 := matmul

def matmul8A : Kernel 8 := matmulA

def matmul16A : Kernel 16 := matmulA

def transposedMatmul8 : Kernel 8 := transposedMatmul

def transposedMatmul16 : Kernel 16 := transposedMatmul

def transposedMatmul8A : Kernel 8 := transposedMatmulA

def transposedMatmul16A : Kernel 16 := transposedMatmulA

def transposedMatmul8B : Kernel 8 := transposedMatmulB

def transposedMatmul16B : Kernel 16 := transposedMatmulB

/-! ### Matrices -/

section

variable {w : Nat}

/-- The matrix in the first `n * n` cells of an array. -/
def toMatrix (n : Nat) (d : Elements w) : Matrix (Fin n) (Fin n) (BitVec w) :=
  Matrix.of fun r c => d (r * n + c)

/-- The array of the transposed matrix. -/
def transpose (n : Nat) (d : Elements w) : Elements w := fun k => d (k % n * n + k / n)

/-- A kernel leaves a matrix in the destination, and changes no other cells. -/
def Leaves (n : Nat) (p : Prog (Elements w) Int32) (d : Elements w)
    (result : Matrix (Fin n) (Fin n) (BitVec w)) : Prop :=
  ∃ d', p.run d = (.done 0, d') ∧ toMatrix n d' = result ∧ ∀ k, n * n ≤ k → d' k = d k

/-- The kernel adds the product of two matrices to the destination. -/
def AddsProduct (kernel : Kernel w) (n : UInt64) : Prop := ∀ d a b, Leaves n.toNat (kernel n a b) d
  (toMatrix n.toNat d + toMatrix n.toNat a * toMatrix n.toNat b)

/-- The same for a kernel that is given the second matrix transposed. -/
def AddsTransposedProduct (kernel : Kernel w) (n : UInt64) : Prop :=
  ∀ d a b, Leaves n.toNat (kernel n a (transpose n.toNat b)) d
    (toMatrix n.toNat d + toMatrix n.toNat a * toMatrix n.toNat b)

/-- The kernel, which is given the second matrix transposed, sets the destination to the product. -/
def SetsTransposedProduct (kernel : Kernel w) (n : UInt64) : Prop :=
  ∀ d a b, Leaves n.toNat (kernel n a (transpose n.toNat b)) d
    (toMatrix n.toNat a * toMatrix n.toNat b)

end

end Mlonmcu.Mathis
