import Mathlib.Logic.Function.Basic
import Mlonmcu.CLib.Parity

/-! `syndrome` of `encrypt.c`, with the parameters of `params.h`. -/

namespace Mlonmcu.McEliece

open CLib

def gfbits : Nat := 12

def sysN : Nat := 3488

def sysT : Nat := 64

def pkNrows : Nat := sysT * gfbits

def pkNcols : Nat := sysN - pkNrows

def pkRowBytes : Nat := (pkNcols + 7) / 8

def syndBytes : Nat := (pkNrows + 7) / 8

/-- The sum of the products of a row of the key with the error vector. -/
def rowWord (pkPtr ePtr : Memory) : UInt64 :=
  let b := (List.range (pkNcols / 64)).foldl
    (fun b j => b ^^^ ((pkPtr.drop (8 * j)).load64 &&& (ePtr.drop (8 * j)).load64)) 0
  let j := pkNcols / 64
  b ^^^ ((pkPtr.drop (8 * j)).load32 &&& (ePtr.drop (8 * j)).load32).toUInt64

/-- The statements of `syndrome` after that, which fold the word. -/
def foldWord (b : UInt64) : UInt64 :=
  let b := b ^^^ b >>> 32
  let b := b ^^^ b >>> 16
  let b := b ^^^ b >>> 8
  let b := b ^^^ b >>> 4
  let b := b ^^^ b >>> 2
  let b := b ^^^ b >>> 1
  b &&& 1

def rowBit (pk e : Memory) (i : Nat) : UInt64 :=
  foldWord (rowWord (pk.drop (pkRowBytes * i)) (e.drop syndBytes))

def syndrome (s pk e : Memory) : Memory :=
  let s := (List.range syndBytes).foldl (fun s i => Function.update s i (e i)) s
  (List.range pkNrows).foldl (fun s i =>
    Function.update s (i / 8) (s (i / 8) ^^^ (rowBit pk e i <<< UInt64.ofNat (i % 8)).toUInt8)) s

/-! ### The rows -/

/-- The parity of the product of a row of the key with the error vector. -/
def rowParity (pk e : Memory) (i : Nat) : Bool :=
  xorSum (fun j => parity 8 (pk (pkRowBytes * i + j) &&& e (syndBytes + j)).toNat) pkRowBytes

theorem and_one_eq (b : UInt64) : b &&& 1 = (parity 1 b.toNat).toUInt64 := by
  apply UInt64.toNat_inj.mp
  rw [UInt64.toNat_and, UInt64.toNat_one, Nat.and_one_is_mod, parity_one, Nat.testBit_zero]
  rcases Nat.mod_two_eq_zero_or_one b.toNat with hbit | hbit
  · rw [hbit]; rfl
  · rw [hbit]; rfl

theorem parity_shift {k : UInt64} {n : Nat} (hk : k.toNat = n) (hlt : n < 64) (b : UInt64) :
    parity n (b ^^^ b >>> k).toNat = parity (n + n) b.toNat := by
  rw [UInt64.toNat_xor, UInt64.toNat_shiftRight, hk, Nat.mod_eq_of_lt hlt, parity_fold]

theorem foldWord_eq (b : UInt64) : foldWord b = (parity 64 b.toNat).toUInt64 := by
  unfold foldWord
  rw [and_one_eq, parity_shift (n := 1) rfl (by decide), parity_shift (n := 2) rfl (by decide),
    parity_shift (n := 4) rfl (by decide), parity_shift (n := 8) rfl (by decide),
    parity_shift (n := 16) rfl (by decide), parity_shift (n := 32) rfl (by decide)]

/-- The words of a row and the error vector have the parity of their bytes. -/
theorem parity_words (pkPtr ePtr : Memory) (n : Nat) :
    parity (8 * n) (pkPtr.word n &&& ePtr.word n) =
      xorSum (fun j => parity 8 (pkPtr j &&& ePtr j).toNat) n := by
  rw [Memory.word_and, Memory.parity_word]

theorem rowWord_parity (pkPtr ePtr : Memory) : parity 64 (rowWord pkPtr ePtr).toNat =
    xorSum (fun j => parity 8 (pkPtr j &&& ePtr j).toNat) pkRowBytes := by
  have hwords (n : Nat) : parity 64 ((List.range n).foldl (fun b j =>
      b ^^^ ((pkPtr.drop (8 * j)).load64 &&& (ePtr.drop (8 * j)).load64)) 0).toNat =
        xorSum (fun j => parity 8 (pkPtr j &&& ePtr j).toNat) (8 * n) := by
    induction n with
    | zero => exact parity_zero 64
    | succ n ih =>
      rw [List.range_succ, List.foldl_append, List.foldl_cons, List.foldl_nil, UInt64.toNat_xor,
        parity_xor, ih, UInt64.toNat_and, Memory.load64_toNat, Memory.load64_toNat,
        parity_words _ _ 8, Nat.mul_succ, xorSum_add]
      rfl
  have htail :
      parity 64 ((pkPtr.drop (8 * 42)).load32 &&& (ePtr.drop (8 * 42)).load32).toUInt64.toNat =
        xorSum (fun j => parity 8 (pkPtr (8 * 42 + j) &&& ePtr (8 * 42 + j)).toNat) 4 := by
    rw [UInt32.toNat_toUInt64, parity_of_lt (UInt32.toNat_lt _) 32, UInt32.toNat_and,
      Memory.load32_toNat, Memory.load32_toNat, parity_words _ _ 4]
    rfl
  have hsum := xorSum_add (fun j => parity 8 (pkPtr j &&& ePtr j).toNat) (8 * 42) 4
  rw [rowWord, UInt64.toNat_xor, parity_xor, hwords]
  exact (congrArg _ htail).trans hsum.symm

theorem rowBit_eq (pk e : Memory) (i : Nat) : rowBit pk e i = (rowParity pk e i).toUInt64 := by
  rw [rowBit, foldWord_eq, rowWord_parity]
  rfl

/-! ### The syndrome -/

/-- The byte `q` of the syndrome after `k` of its rows. -/
def syndromeByte (pk e : Memory) (q : Nat) : Nat → UInt8
  | 0 => e q
  | k + 1 => syndromeByte pk e q k ^^^ (rowParity pk e (8 * q + k)).toUInt8 <<< UInt8.ofNat k

theorem toUInt8_shiftLeft (b : Bool) {k : Nat} (hk : k < 8) :
    (b.toUInt64 <<< UInt64.ofNat k).toUInt8 = b.toUInt8 <<< UInt8.ofNat k := by
  have hall : ∀ (b : Bool) (k : Fin 8),
      (b.toUInt64 <<< UInt64.ofNat k).toUInt8 = b.toUInt8 <<< UInt8.ofNat k := by decide
  exact hall b ⟨k, hk⟩

theorem copied_eq (s e : Memory) (n q : Nat) :
    ((List.range n).foldl (fun s i => Function.update s i (e i)) s) q =
      if q < n then e q else s q := by
  induction n with
  | zero => rfl
  | succ n ih =>
    rw [List.range_succ, List.foldl_append, List.foldl_cons, List.foldl_nil]
    by_cases hq : q = n
    · subst hq
      simp
    · rw [Function.update_of_ne hq, ih]
      congr 1
      exact propext ⟨by omega, by omega⟩

/-- After `n` rows, a byte holds the bits of those of its rows that are among them. -/
theorem rows_eq {s pk e : Memory} {q : Nat} (h : s q = e q) (n : Nat) :
    ((List.range n).foldl (fun s i => Function.update s (i / 8)
      (s (i / 8) ^^^ (rowBit pk e i <<< UInt64.ofNat (i % 8)).toUInt8)) s) q =
        syndromeByte pk e q (min (n - 8 * q) 8) := by
  induction n with
  | zero => rw [Nat.zero_sub, Nat.zero_min]; exact h
  | succ n ih =>
    rw [List.range_succ, List.foldl_append, List.foldl_cons, List.foldl_nil]
    by_cases hq : q = n / 8
    · have hrow : 8 * q + n % 8 = n := by omega
      have hbit := toUInt8_shiftLeft (rowParity pk e n) (Nat.mod_lt n (by decide))
      rw [show min (n - 8 * q) 8 = n % 8 by omega] at ih
      rw [← hq, Function.update_self, ih, rowBit_eq, hbit, show min (n + 1 - 8 * q) 8 = n % 8 + 1 by
        omega, syndromeByte, hrow]
    · rw [Function.update_of_ne hq, ih, show min (n + 1 - 8 * q) 8 = min (n - 8 * q) 8 by omega]

theorem syndrome_eq (s pk e : Memory) {q : Nat} (hq : q < syndBytes) :
    syndrome s pk e q = syndromeByte pk e q 8 := by
  have hlt : 8 * q + 8 ≤ pkNrows := by
    have hbytes : 8 * syndBytes = pkNrows := by decide
    omega
  rw [syndrome, rows_eq ((copied_eq ..).trans (if_pos hq)),
    show min (pkNrows - 8 * q) 8 = 8 by omega]

end Mlonmcu.McEliece
