import Mlonmcu.CLib.Bytes

/-! Vectors of bytes of the RISC-V vector extension.  An instruction takes the length that it is
given as an application vector length, and leaves the elements past its vector length
unspecified. -/

namespace CLib

/-- The elements of a vector register, or of a group of them. -/
abbrev Vec := Nat → UInt8

/-- A hart: the number of bits in a vector register, the vector length for each maximum and
application vector length, which is the same each time, and the elements that the instructions of a
program leave unspecified. -/
structure Hart (ι : Type) where
  vlen : Nat
  vsetvl : Nat → Nat → Nat
  tail : ι → Vec
  vlen_eq : ∃ n, vlen = 2 ^ (n + 5)
  vsetvl_le : ∀ vlmax avl, avl ≤ vlmax → vsetvl vlmax avl = avl
  vsetvl_lt : ∀ vlmax avl, vlmax < avl → avl < 2 * vlmax →
    (avl + 1) / 2 ≤ vsetvl vlmax avl ∧ vsetvl vlmax avl ≤ vlmax
  vsetvl_ge : ∀ vlmax avl, 2 * vlmax ≤ avl → vsetvl vlmax avl = vlmax

namespace Hart

variable {ι : Type} (h : Hart ι)

/-- The elements in one register and in a group of eight. -/
def vlmaxM1 : Nat := h.vlen / 8

def vlmaxM8 : Nat := h.vlen

/-- The result of an instruction on registers with `vlmax` elements. -/
def lanes (vlmax : Nat) (site : ι) (avl : Nat) (f : Vec) : Vec :=
  fun k => if k < h.vsetvl vlmax avl then f k else h.tail site k

/-- A load of the bytes at a pointer. -/
def vle8 (vlmax : Nat) (site : ι) (m : Memory) (avl : Nat) : Vec := h.lanes vlmax site avl m

/-! The instructions on one register: -/

def vmvVX (site : ι) (x : UInt8) (avl : Nat) : Vec := h.lanes h.vlmaxM1 site avl fun _ => x

/-- A load of the bytes at multiples of `stride`. -/
def vlse8 (site : ι) (m : Memory) (stride avl : Nat) : Vec :=
  h.lanes h.vlmaxM1 site avl fun k => m (k * stride)

def vandVV (site : ι) (a b : Vec) (avl : Nat) : Vec :=
  h.lanes h.vlmaxM1 site avl fun k => a k &&& b k

def vandVX (site : ι) (a : Vec) (x : UInt8) (avl : Nat) : Vec :=
  h.lanes h.vlmaxM1 site avl fun k => a k &&& x

def vxorVV (site : ι) (a b : Vec) (avl : Nat) : Vec :=
  h.lanes h.vlmaxM1 site avl fun k => a k ^^^ b k

/-- A shift by the low three bits of the second operand. -/
def vsllVV (site : ι) (a b : Vec) (avl : Nat) : Vec :=
  h.lanes h.vlmaxM1 site avl fun k => a k <<< b k

/-- The number of ones in each element. -/
def vcpopV (site : ι) (a : Vec) (avl : Nat) : Vec :=
  h.lanes h.vlmaxM1 site avl fun k => ⟨(a k).toBitVec.cpop⟩

def vslidedownVX (site : ι) (a : Vec) (offset avl : Nat) : Vec :=
  h.lanes h.vlmaxM1 site avl fun k => if k + offset < h.vlmaxM1 then a (k + offset) else 0

/-- The disjunction of the first element of `b` and the elements of `a`, in the first element. -/
def vredorVS (site : ι) (a b : Vec) (avl : Nat) : Vec :=
  let vl := h.vsetvl h.vlmaxM1 avl
  fun k => if k = 0 ∧ 0 < vl then (List.range vl).foldl (fun x i => x ||| a i) (b 0)
    else h.tail site k

/-- The first element. -/
def vmvXS (a : Vec) : UInt8 := a 0

variable {h}

theorem lanes_of_lt {vlmax avl k : Nat} (hmax : avl ≤ vlmax) (hk : k < avl) (site : ι) (f : Vec) :
    h.lanes vlmax site avl f k = f k :=
  if_pos (by rwa [h.vsetvl_le vlmax avl hmax])

/-- A vector length is never more than the application vector length, and is positive when both the
maximum and the application vector length are. -/
theorem vsetvl_bounds (h : Hart ι) {vlmax avl : Nat} (hmax : 0 < vlmax) (havl : 0 < avl) :
    0 < h.vsetvl vlmax avl ∧ h.vsetvl vlmax avl ≤ avl ∧ h.vsetvl vlmax avl ≤ vlmax := by
  rcases Nat.lt_or_ge vlmax avl with hlt | hle
  · rcases Nat.lt_or_ge avl (2 * vlmax) with hsmall | hlarge
    · have hvl := h.vsetvl_lt vlmax avl hlt hsmall
      omega
    · rw [h.vsetvl_ge vlmax avl hlarge]
      omega
  · rw [h.vsetvl_le vlmax avl hle]
    omega

end Hart

end CLib
