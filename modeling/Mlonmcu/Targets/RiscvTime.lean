import Mlonmcu.CLib.Counter

/-! The counters of `riscv_time.h`, which a target with words of 32 bits reads in two parts. -/

namespace Mlonmcu.Targets

open CLib

/-- What the preprocessor knows of the target: `__riscv_xlen`, or that it is no RISC-V. -/
inductive Arch
  | rv32
  | rv64
  | other
  deriving DecidableEq, Repr

/-- The counters of a hart. -/
structure Counters where
  cycle : Counter
  time : Counter
  instret : Counter

/-- A counter of 64 bits. -/
def read64 (arch : Arch) (counter : Counter) (fuel : Nat) : Prog Nat UInt64 :=
  match arch with
  | .rv32 => do
    let (high, low) ← counter.readWords fuel
    pure (high.toUInt64 <<< 32 ||| low.toUInt64)
  | .rv64 => do
    let t ← Prog.get
    Prog.modify (· + 1)
    pure (counter t)
  | .other => pure 0

variable (arch : Arch) (c : Counters)

def rdcycle64 : Nat → Prog Nat UInt64 := read64 arch c.cycle

def rdtime64 : Nat → Prog Nat UInt64 := read64 arch c.time

def rdinstret64 : Nat → Prog Nat UInt64 := read64 arch c.instret

/-- A function that reads a counter in rounds of three reads returns its value at the second read of
the last round, and never less than it has returned before, when the counter does not go back. -/
structure Untorn (rd : Nat → Prog Nat UInt64) (counter : Counter) : Prop where
  value : ∀ fuel t v t', (rd fuel).run t = (.done v, t') → counter.NonDecreasing t t' →
    t + 3 ≤ t' ∧ v = counter (t' - 2)
  ordered : ∀ fuel t v t' fuel' u w u', (rd fuel).run t = (.done v, t') → t' ≤ u →
    (rd fuel').run u = (.done w, u') → counter.NonDecreasing t u' → v ≤ w

variable {counter : Counter} {fuel t t' : Nat} {v : UInt64}

theorem read64_eq_done (h : (read64 .rv32 counter fuel).run t = (.done v, t')) :
    ∃ high low, (counter.readWords fuel).run t = (.done (high, low), t') ∧
      v = high.toUInt64 <<< 32 ||| low.toUInt64 := by
  obtain ⟨⟨high, low⟩, s, hwords, hvalue⟩ := Prog.bind_eq_done h
  obtain ⟨hv, rfl⟩ := Prod.mk.inj hvalue
  exact ⟨high, low, hwords, (Result.done.inj hv).symm⟩

theorem read64_reads (h : (read64 .rv32 counter fuel).run t = (.done v, t')) : t + 3 ≤ t' := by
  obtain ⟨high, low, hwords, -⟩ := read64_eq_done h
  exact (Counter.words_of_run hwords).1

theorem read64_value (h : (read64 .rv32 counter fuel).run t = (.done v, t'))
    (hmono : counter.NonDecreasing t t') : v = counter (t' - 2) := by
  obtain ⟨high, low, hwords, rfl⟩ := read64_eq_done h
  obtain ⟨rfl, rfl⟩ := Counter.untorn hwords hmono
  exact join_halves _

/-- The function returns in a round in which the upper word does not change. -/
theorem read64_returns {k : Nat} (hk : k < fuel) (hsame :
    (counter (t + 3 * k) >>> 32).toUInt32 = (counter (t + 3 * k + 2) >>> 32).toUInt32) :
    ∃ v t', (read64 .rv32 counter fuel).run t = (.done v, t') := by
  obtain ⟨words, t', hrun⟩ := Counter.exists_run hk hsame
  exact ⟨_, t', Prog.bind_done hrun⟩

theorem untorn_read64 (counter : Counter) : Untorn (read64 .rv32 counter) counter where
  value fuel t v t' h hmono := ⟨read64_reads h, read64_value h hmono⟩
  ordered fuel t v t' fuel' u w u' h hu h' hmono := by
    have hfirst := read64_reads h
    have hsecond := read64_reads h'
    rw [read64_value h (hmono.mono (Nat.le_refl _) (by omega)),
      read64_value h' (hmono.mono (by omega) (Nat.le_refl _))]
    exact hmono _ _ (by omega) (by omega) (by omega)

/-- On a target with words of 32 bits the functions return values that the counters had. -/
theorem rd64_untorn (c : Counters) : Untorn (rdcycle64 .rv32 c) c.cycle ∧
    Untorn (rdtime64 .rv32 c) c.time ∧ Untorn (rdinstret64 .rv32 c) c.instret :=
  ⟨untorn_read64 c.cycle, untorn_read64 c.time, untorn_read64 c.instret⟩

/-- A counter whose upper word changes in the first round of a call. -/
def carrying : Counter := fun t => 0xfffffffe + UInt64.ofNat t

theorem rd64_untorn_carry :
    (rdcycle64 .rv32 ⟨carrying, carrying, carrying⟩ 2).run 0 = (.done 0x100000002, 6) ∧
      (rdcycle64 .rv32 ⟨carrying, carrying, carrying⟩ 2).run 6 = (.done 0x100000005, 9) ∧
      (0 + 3 ≤ 6 ∧ 0x100000002 = carrying (6 - 2)) ∧ (0x100000002 : UInt64) ≤ 0x100000005 := by
  have hmono : ∀ j < 9, ∀ i ≤ j, carrying i ≤ carrying j := by decide
  have hfirst : (rdcycle64 .rv32 ⟨carrying, carrying, carrying⟩ 2).run 0 =
      (.done 0x100000002, 6) := by decide
  have hsecond : (rdcycle64 .rv32 ⟨carrying, carrying, carrying⟩ 2).run 6 =
      (.done 0x100000005, 9) := by decide
  have huntorn := (rd64_untorn ⟨carrying, carrying, carrying⟩).1
  refine ⟨hfirst, hsecond, ?_, ?_⟩
  · exact huntorn.value 2 0 _ 6 hfirst fun i j _ hij hj => hmono j (by omega) i hij
  · exact huntorn.ordered 2 0 _ 6 2 6 _ 9 hfirst (Nat.le_refl 6) hsecond
      fun i j _ hij hj => hmono j hj i hij

end Mlonmcu.Targets
