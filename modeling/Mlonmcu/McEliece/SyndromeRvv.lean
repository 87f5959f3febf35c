import Mlonmcu.CLib.Prog
import Mlonmcu.CLib.Rvv
import Mlonmcu.McEliece.Cells
import Mlonmcu.McEliece.Syndrome

/-! `syndrome_rvv` of `syndrome_rvv.c`, on any hart. -/

namespace Mlonmcu.McEliece

open CLib

/-- The vectors of `syndrome_rvv` whose last elements are unspecified: `ptr` is the offset of
`pk_ptr`, and `j` or `i` the counter of the loop. -/
inductive Site
  | errorVector8 (offset : Nat)
  | shiftVector
  | zero (ptr : Nat)
  | errorVector (ptr j : Nat)
  | pkVector (ptr j : Nat)
  | mulVector (ptr j : Nat)
  | sum (ptr j : Nat)
  | count (ptr : Nat)
  | parity (ptr : Nat)
  | shifted (ptr i : Nat)
  | reduced (ptr i : Nat)
  | slid (ptr i : Nat)
  deriving DecidableEq, Repr

variable (h : Hart Site)

/-- `__riscv_vse8_v_u8m8` at an offset. -/
def vse8 (offset : Nat) (v : Vec) (avl : Nat) : Prog Cells Unit :=
  let vl := h.vsetvl h.vlmaxM8 avl
  Prog.modify fun c => {
    mem := fun q => if offset ≤ q ∧ q < offset + vl then v (q - offset) else c.mem q
    stored := c.stored ++ List.range' offset vl }

/-- The loop that copies the error vector. -/
def copyLoop (e : Memory) : Nat → Nat → Nat → Prog Cells Unit
  | 0, _, _ => Prog.timeout
  | fuel + 1, offset, remainingBytes =>
    if remainingBytes > 0 then do
      let vl := h.vsetvl h.vlmaxM8 remainingBytes
      let errorVector := h.vle8 h.vlmaxM8 (.errorVector8 offset) (e.drop offset) vl
      vse8 h offset errorVector vl
      copyLoop e fuel (offset + vl) (remainingBytes - vl)
    else pure ()

def bitShifts : Memory := fun k => ([0, 1, 2, 3, 4, 5, 6, 7] : Bytes).getD k 0

/-- The vector of zeros that `shiftVector` holds before is not used. -/
def shiftVector : Vec := h.vle8 h.vlmaxM1 .shiftVector bitShifts 8

/-- The accumulator after the first columns. -/
def accumulate (pk e : Memory) (ptr vlRow : Nat) : Nat → Vec
  | 0 => h.vmvVX (.zero ptr) 0 h.vlmaxM1
  | j + 1 =>
    let errorVector := h.vmvVX (.errorVector ptr j) (e (syndBytes + j)) vlRow
    let pkVector := h.vlse8 (.pkVector ptr j) (pk.drop (ptr + j)) pkRowBytes vlRow
    let mulVector := h.vandVV (.mulVector ptr j) errorVector pkVector vlRow
    h.vxorVV (.sum ptr j) (accumulate pk e ptr vlRow j) mulVector vlRow

/-- The parities of the rows from `ptr` on. -/
def parities (pk e : Memory) (ptr vlRow : Nat) : Vec :=
  let acc := accumulate h pk e ptr vlRow (pkNcols / 8)
  let acc := h.vcpopV (.count ptr) acc vlRow
  h.vandVX (.parity ptr) acc 1 vlRow

/-- The loop that writes the parities, for the `n` values of `i` that are left, with the index after
it. -/
def writeLoop (ptr vlRow : Nat) : Nat → Vec → Nat → Nat → Prog Cells Nat
  | 0, _, _, syndromeIndex => pure syndromeIndex
  | n + 1, acc, i, syndromeIndex => do
    let redRes := h.vsllVV (.shifted ptr i) acc (shiftVector h) 8
    let redRes := h.vredorVS (.reduced ptr i) redRes redRes 8
    let syndRes := Hart.vmvXS redRes
    Prog.modify fun c => {
      mem := Function.update c.mem syndromeIndex (c.mem syndromeIndex ^^^ syndRes)
      stored := c.stored ++ [syndromeIndex] }
    writeLoop ptr vlRow n (h.vslidedownVX (.slid ptr i) acc 8 vlRow) (i + 8) (syndromeIndex + 1)

/-- The number of rows that are done at once: `& ~0x3` clears two bits. -/
def rowLength (remainingRows : Nat) : Nat := h.vsetvl h.vlmaxM1 remainingRows / 4 * 4

/-- The loop over the rows. -/
def rowLoop (pk e : Memory) : Nat → Nat → Nat → Nat → Prog Cells Unit
  | 0, _, _, _ => Prog.timeout
  | fuel + 1, remainingRows, ptr, syndromeIndex =>
    if remainingRows > 0 then do
      let vlRow := rowLength h remainingRows
      let acc := parities h pk e ptr vlRow
      let syndromeIndex ← writeLoop h ptr vlRow ((vlRow + 7) / 8) acc 0 syndromeIndex
      rowLoop pk e fuel (remainingRows - vlRow) (ptr + vlRow * pkRowBytes) syndromeIndex
    else pure ()

/-- `syndrome_rvv`, whose loops make at most `fuel - 1` rounds. -/
def syndromeRvv (pk e : Memory) (fuel : Nat) : Prog Cells Unit := do
  copyLoop h e fuel 0 syndBytes
  rowLoop h pk e fuel pkNrows 0 0

/-- `syndrome_rvv` stores only to the syndrome, and computes what `syndrome` does. -/
def Agrees (s pk e : Memory) : Prop :=
  ∀ fuel, pkNrows < fuel → ∃ t, (syndromeRvv h pk e fuel).run ⟨s, []⟩ = (.done (), t) ∧
    (∀ q ∈ t.stored, q < syndBytes) ∧
    ∀ q, t.mem q = if q < syndBytes then syndrome s pk e q else s q

end Mlonmcu.McEliece
