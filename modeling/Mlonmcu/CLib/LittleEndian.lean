import Mlonmcu.CLib.Bytes

/-! Numbers in little endian in the memory. -/

namespace CLib.Memory

/-- The number in `n` bytes in little endian. -/
def word (m : Memory) : Nat → Nat
  | 0 => 0
  | n + 1 => 256 * (m.drop 1).word n + (m 0).toNat

/-- A load of a `uint64_t`. -/
def load64 (m : Memory) : UInt64 := UInt64.ofNat (m.word 8)

/-- A load of a `uint32_t`. -/
def load32 (m : Memory) : UInt32 := UInt32.ofNat (m.word 4)

/-- A store of a number in `n` bytes from the address `a` on. -/
def storeWord (a n x : Nat) (m : Memory) : Memory := fun b =>
  if a ≤ b ∧ b < a + n then UInt8.ofNat (x / 256 ^ (b - a)) else m b

theorem word_lt (m : Memory) (n : Nat) : m.word n < 2 ^ (8 * n) := by
  induction n generalizing m with
  | zero => exact Nat.one_pos
  | succ n ih =>
    have hrest := ih (m.drop 1)
    have hbyte := (m 0).toNat_lt
    rw [word, Nat.mul_succ, Nat.pow_add]
    omega

theorem load64_toNat (m : Memory) : m.load64.toNat = m.word 8 :=
  UInt64.toNat_ofNat_of_lt (m.word_lt 8)

theorem load32_toNat (m : Memory) : m.load32.toNat = m.word 4 :=
  UInt32.toNat_ofNat_of_lt (m.word_lt 4)

theorem word_congr {m m' : Memory} {n : Nat} (hsame : ∀ i < n, m i = m' i) :
    m.word n = m'.word n := by
  induction n generalizing m m' with
  | zero => rfl
  | succ n ih =>
    have hrest : (m.drop 1).word n = (m'.drop 1).word n :=
      ih fun i hi => hsame (1 + i) (by omega)
    rw [word, word, hsame 0 n.succ_pos, hrest]

/-- The number that has the bytes of `x` is `x`, as far as it has bytes. -/
theorem word_eq_mod {m : Memory} {n x : Nat} (h : ∀ i < n, m i = UInt8.ofNat (x / 256 ^ i)) :
    m.word n = x % 256 ^ n := by
  induction n generalizing m x with
  | zero => rw [word, Nat.pow_zero, Nat.mod_one]
  | succ n ih =>
    have hrest : (m.drop 1).word n = x / 256 % 256 ^ n := ih fun i hi => by
      rw [Nat.div_div_eq_div_mul, ← Nat.pow_succ']
      exact (h (1 + i) (by omega)).trans (by rw [Nat.add_comm])
    have hbyte : (m 0).toNat = x % 256 := by
      rw [h 0 n.succ_pos, Nat.pow_zero, Nat.div_one, UInt8.toNat_ofNat']
    rw [word, hrest, hbyte, Nat.pow_succ', Nat.mod_mul, Nat.add_comm]

theorem storeWord_of_notMem {a n x b : Nat} {m : Memory} (h : b < a ∨ a + n ≤ b) :
    m.storeWord a n x b = m b := if_neg (by omega)

/-- A load of what has been stored. -/
theorem word_storeWord {a n x : Nat} (m : Memory) (hx : x < 256 ^ n) :
    ((m.storeWord a n x).drop a).word n = x := by
  rw [word_eq_mod fun i hi => ?_, Nat.mod_eq_of_lt hx]
  rw [drop, storeWord, if_pos (by omega), Nat.add_sub_cancel_left]

/-- A load of other bytes. -/
theorem word_storeWord_of_apart {a n x b k : Nat} (m : Memory) (h : b + k ≤ a ∨ a + n ≤ b) :
    ((m.storeWord a n x).drop b).word k = (m.drop b).word k :=
  word_congr fun _ _ => storeWord_of_notMem (by omega)

end CLib.Memory
