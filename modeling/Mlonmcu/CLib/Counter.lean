import Mlonmcu.CLib.Prog
import Mlonmcu.CLib.Words

/-! Counters of 64 bits that run on while a program reads them word by word. -/

namespace CLib

/-- The values of a counter at the reads of a program, one after the other. -/
abbrev Counter := Nat → UInt64

namespace Counter

variable (counter : Counter)

/-- A read of the upper word, on the number of reads before. -/
def readHigh : Prog Nat UInt32 := do
  let t ← Prog.get
  Prog.modify (· + 1)
  pure (counter t >>> 32).toUInt32

def readLow : Prog Nat UInt32 := do
  let t ← Prog.get
  Prog.modify (· + 1)
  pure (counter t).toUInt32

/-- The words of the counter, read until the upper word does not change around the lower one. -/
def readWords : Nat → Prog Nat (UInt32 × UInt32)
  | 0 => Prog.timeout
  | fuel + 1 => do
    let high1 ← readHigh counter
    let low ← readLow counter
    let high2 ← readHigh counter
    if high1 ≠ high2 then readWords fuel else pure (high1, low)

/-- The counter does not go back from the read `t` on and before the read `t'`. -/
def NonDecreasing (t t' : Nat) : Prop :=
  ∀ i j, t ≤ i → i ≤ j → j < t' → counter i ≤ counter j

variable {counter}

theorem NonDecreasing.mono {t t' u u' : Nat} (h : counter.NonDecreasing t t') (ht : t ≤ u)
    (ht' : u' ≤ t') : counter.NonDecreasing u u' := fun i j hi hij hj =>
  h i j (Nat.le_trans ht hi) hij (Nat.lt_of_lt_of_le hj ht')

theorem run_readWords_succ (fuel t : Nat) : (readWords counter (fuel + 1)).run t =
    if (counter t >>> 32).toUInt32 ≠ (counter (t + 2) >>> 32).toUInt32 then
      (readWords counter fuel).run (t + 3)
    else (.done ((counter t >>> 32).toUInt32, (counter (t + 1)).toUInt32), t + 3) := by
  have hrun : (readWords counter (fuel + 1)).run t =
      (if (counter t >>> 32).toUInt32 ≠ (counter (t + 2) >>> 32).toUInt32 then
        readWords counter fuel
      else pure ((counter t >>> 32).toUInt32, (counter (t + 1)).toUInt32)).run (t + 3) := rfl
  rw [hrun]
  split
  · rfl
  · rfl

/-- The words are those of the last round of the loop. -/
theorem words_of_run {fuel t t' : Nat} {high low : UInt32}
    (h : (readWords counter fuel).run t = (.done (high, low), t')) :
    t + 3 ≤ t' ∧ high = (counter (t' - 3) >>> 32).toUInt32 ∧
      high = (counter (t' - 1) >>> 32).toUInt32 ∧ low = (counter (t' - 2)).toUInt32 := by
  induction fuel generalizing t with
  | zero => exact absurd (Prod.mk.inj h).1 (by simp)
  | succ fuel ih =>
    rw [run_readWords_succ] at h
    split at h
    · obtain ⟨hle, hwords⟩ := ih h
      exact ⟨by omega, hwords⟩
    · next hsame =>
      rw [ne_eq, not_not] at hsame
      simp only [Prod.mk.injEq, Result.done.injEq] at h
      obtain ⟨⟨rfl, rfl⟩, rfl⟩ := h
      exact ⟨Nat.le_refl _, rfl, hsame, rfl⟩

theorem high_mono {a b : UInt64} (h : a ≤ b) :
    (a >>> 32).toUInt32.toNat ≤ (b >>> 32).toUInt32.toNat := by
  have hle := UInt64.le_iff_toNat_le.mp h
  have hlt := b.toNat_lt
  simp [Nat.shiftRight_eq_div_pow]
  omega

/-- When the counter does not go back, the words are those of its value at the read of the lower
word, whatever it does between two reads. -/
theorem untorn {fuel t t' : Nat} {high low : UInt32}
    (h : (readWords counter fuel).run t = (.done (high, low), t'))
    (hmono : counter.NonDecreasing t t') :
    high = (counter (t' - 2) >>> 32).toUInt32 ∧ low = (counter (t' - 2)).toUInt32 := by
  obtain ⟨hle, hfirst, hsecond, hlow⟩ := words_of_run h
  refine ⟨UInt32.toNat_inj.mp (Nat.le_antisymm ?_ ?_), hlow⟩
  · rw [hfirst]
    exact high_mono (hmono _ _ (by omega) (by omega) (by omega))
  · rw [hsecond]
    exact high_mono (hmono _ _ (by omega) (by omega) (by omega))

/-- The loop ends in a round in which the upper word does not change. -/
theorem exists_run {fuel t k : Nat} (hk : k < fuel) (hsame :
    (counter (t + 3 * k) >>> 32).toUInt32 = (counter (t + 3 * k + 2) >>> 32).toUInt32) :
    ∃ words t', (readWords counter fuel).run t = (.done words, t') := by
  induction fuel generalizing t k with
  | zero => omega
  | succ fuel ih =>
    rw [run_readWords_succ]
    split
    · next hne =>
      obtain ⟨k, rfl⟩ : ∃ m, k = m + 1 := ⟨k - 1, by
        rcases Nat.eq_zero_or_pos k with rfl | hpos
        · exact absurd hsame hne
        · omega⟩
      rw [show t + 3 * (k + 1) = t + 3 + 3 * k by omega] at hsame
      exact ih (by omega) hsame
    · exact ⟨_, _, rfl⟩

end Counter

end CLib
