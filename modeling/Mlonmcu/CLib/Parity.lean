import Mlonmcu.CLib.LittleEndian

/-! The parity of the low bits of a number, numbers in little endian, and the sum of bits modulo
2. -/

namespace CLib

/-- The parity of the low `n` bits of a number. -/
def parity : Nat → Nat → Bool
  | 0, _ => false
  | n + 1, x => x.testBit 0 ^^ parity n (x / 2)

theorem parity_zero (n : Nat) : parity n 0 = false := by
  induction n with
  | zero => rfl
  | succ n ih => rw [parity, Nat.zero_div, ih]; rfl

theorem parity_one (x : Nat) : parity 1 x = x.testBit 0 := Bool.xor_false _

theorem parity_xor (n x y : Nat) : parity n (x ^^^ y) = (parity n x ^^ parity n y) := by
  induction n generalizing x y with
  | zero => rfl
  | succ n ih =>
    rw [parity, parity, parity, Nat.testBit_xor, Nat.xor_div_two, ih]
    simp only [Bool.xor_assoc, Bool.xor_left_comm]

/-- The bits from `m` on come after the low `m` bits. -/
theorem parity_add (m n x : Nat) : parity (m + n) x = (parity m x ^^ parity n (x / 2 ^ m)) := by
  induction m generalizing x with
  | zero => rw [Nat.zero_add, Nat.pow_zero, Nat.div_one, parity, Bool.false_xor]
  | succ m ih =>
    rw [Nat.add_right_comm, parity, ih, parity, Nat.div_div_eq_div_mul, Nat.pow_succ',
      Bool.xor_assoc]

/-- Folding the upper half of a number onto the lower half keeps the parity. -/
theorem parity_fold (n x : Nat) : parity n (x ^^^ x >>> n) = parity (n + n) x := by
  rw [parity_xor, parity_add, Nat.shiftRight_eq_div_pow]

theorem parity_of_lt {m x : Nat} (h : x < 2 ^ m) (n : Nat) : parity (m + n) x = parity m x := by
  rw [parity_add, Nat.div_eq_of_lt h, parity_zero, Bool.xor_false]

/-- Only the low bits count. -/
theorem parity_mul_add {m y : Nat} (x : Nat) (h : y < 2 ^ m) :
    parity m (2 ^ m * x + y) = parity m y := by
  induction m generalizing y with
  | zero => rfl
  | succ m ih =>
    have hbit : (2 ^ (m + 1) * x + y).testBit 0 = y.testBit 0 := by
      rw [Nat.testBit_two_pow_mul_add x h, if_pos m.succ_pos]
    have hhalf : (2 ^ (m + 1) * x + y) / 2 = 2 ^ m * x + y / 2 := by
      rw [Nat.pow_succ', Nat.mul_assoc]
      omega
    rw [parity, parity, hbit, hhalf, ih (by rw [Nat.pow_succ] at h; omega)]

/-! ### Little endian -/

/-- The bitwise conjunction of two numbers is that of their bytes. -/
theorem Memory.word_and (m m' : Memory) (n : Nat) :
    m.word n &&& m'.word n = Memory.word (fun i => m i &&& m' i) n := by
  induction n generalizing m m' with
  | zero => exact Nat.and_zero 0
  | succ n ih =>
    have hrest := ih (m.drop 1) (m'.drop 1)
    have hbyte : (m 0 &&& m' 0).toNat = (m 0).toNat &&& (m' 0).toNat := UInt8.toNat_and ..
    have hlt : (m 0).toNat &&& (m' 0).toNat < 2 ^ 8 := hbyte ▸ (m 0 &&& m' 0).toNat_lt
    have hword : Memory.word (fun i => m i &&& m' i) (n + 1) =
        2 ^ 8 * ((m.drop 1).word n &&& (m'.drop 1).word n) + ((m 0).toNat &&& (m' 0).toNat) := by
      rw [hrest, ← hbyte]
      rfl
    rw [hword, show m.word (n + 1) = 2 ^ 8 * (m.drop 1).word n + (m 0).toNat from rfl,
      show m'.word (n + 1) = 2 ^ 8 * (m'.drop 1).word n + (m' 0).toNat from rfl]
    apply Nat.eq_of_testBit_eq
    intro j
    rw [Nat.testBit_and, Nat.testBit_two_pow_mul_add _ (m 0).toNat_lt,
      Nat.testBit_two_pow_mul_add _ (m' 0).toNat_lt, Nat.testBit_two_pow_mul_add _ hlt]
    split <;> rw [Nat.testBit_and]

/-- The sum of the first `n` bits of a sequence, modulo 2. -/
def xorSum (f : Nat → Bool) : Nat → Bool
  | 0 => false
  | n + 1 => xorSum f n ^^ f n

theorem xorSum_add (f : Nat → Bool) (m n : Nat) :
    xorSum f (m + n) = (xorSum f m ^^ xorSum (fun i => f (m + i)) n) := by
  induction n with
  | zero => rw [Nat.add_zero, xorSum, Bool.xor_false]
  | succ n ih => rw [Nat.add_succ, xorSum, ih, xorSum, Bool.xor_assoc]

/-- The parity of a number is the sum of the parities of its bytes. -/
theorem Memory.parity_word (m : Memory) (n : Nat) :
    parity (8 * n) (m.word n) = xorSum (fun i => parity 8 (m i).toNat) n := by
  induction n generalizing m with
  | zero => rfl
  | succ n ih =>
    have hbyte : (m 0).toNat < 2 ^ 8 := (m 0).toNat_lt
    have hrest : (256 * (m.drop 1).word n + (m 0).toNat) / 2 ^ 8 = (m.drop 1).word n := by omega
    rw [Memory.word, show 8 * (n + 1) = 8 + 8 * n by omega, parity_add, hrest, ih, Nat.add_comm n 1,
      xorSum_add]
    congr 1
    rw [xorSum, xorSum, Bool.false_xor]
    exact parity_mul_add _ hbyte

end CLib
