import Mathlib.Logic.Function.Basic
import Mathlib.Order.Monotone.Defs
import Mlonmcu.CLib.Laps
import Mlonmcu.Targets.RiscvTime

/-! The cycle counts of `riscv_profiling.h`. -/

namespace Mlonmcu.McEliece

open CLib

/-- `cycleCount_t`. -/
structure CycleCount where
  startCycleCount : UInt64
  totalCycleCount : UInt64

/-- The counts of the key generation: `keygenCycleCount`, `keygenSKGenCount`, `keygenPKGenCount`,
and `keygenControlBitsCount`. -/
inductive KeygenCount
  | cycle
  | skGen
  | pkGen
  | controlBits
  deriving DecidableEq, Repr

/-- The counts, the number of readings of the cycle counter, and a record of them that has no
counterpart in the program. -/
structure Profile where
  count : KeygenCount → CycleCount
  readings : Nat
  ticks : List (Tick KeygenCount)

section

variable (cycles : Nat → Nat)

/-- `read_cycle`, where `cycles` gives the cycles at each reading for one of these counts. -/
def readCycle : Prog Profile UInt64 := do
  let p ← Prog.get
  Prog.modify fun p => { p with readings := p.readings + 1 }
  pure (UInt64.ofNat (cycles p.readings))

def startCount (cy : KeygenCount) : Prog Profile Unit := do
  let p ← Prog.get
  let now ← readCycle cycles
  Prog.modify fun q => { q with
    count := Function.update q.count cy { q.count cy with startCycleCount := now }
    ticks := q.ticks ++ [.start cy (cycles p.readings)] }

def endCount (cy : KeygenCount) : Prog Profile Unit := do
  let p ← Prog.get
  let now ← readCycle cycles
  Prog.modify fun q => { q with
    count := Function.update q.count cy { q.count cy with
      totalCycleCount :=
        (q.count cy).totalCycleCount + (now - (q.count cy).startCycleCount) }
    ticks := q.ticks ++ [.stop cy (cycles p.readings)] }

/-- A profile after `start_count`. -/
def Profile.started (p : Profile) (cy : KeygenCount) : Profile where
  count := Function.update p.count cy { p.count cy with
    startCycleCount := UInt64.ofNat (cycles p.readings) }
  readings := p.readings + 1
  ticks := p.ticks ++ [.start cy (cycles p.readings)]

/-- A profile after `end_count`. -/
def Profile.ended (p : Profile) (cy : KeygenCount) : Profile where
  count := Function.update p.count cy { p.count cy with
    totalCycleCount := (p.count cy).totalCycleCount +
      (UInt64.ofNat (cycles p.readings) - (p.count cy).startCycleCount) }
  readings := p.readings + 1
  ticks := p.ticks ++ [.stop cy (cycles p.readings)]

theorem run_startCount (cy : KeygenCount) (p : Profile) :
    (startCount cycles cy).run p = (.done (), p.started cycles cy) := rfl

theorem run_endCount (cy : KeygenCount) (p : Profile) :
    (endCount cycles cy).run p = (.done (), p.ended cycles cy) := rfl

end

/-! ### `read_cycle` with words of 32 bits -/

/-- `read_cycle` when `RV32` is defined. -/
def readCycle32 (counter : Counter) (fuel : Nat) : Prog Nat UInt64 := do
  let (h32, l32) ← counter.readWords fuel
  pure (h32.toUInt64 <<< 32 + l32.toUInt64)

theorem add_low_word (high low : UInt32) :
    high.toUInt64 <<< 32 + low.toUInt64 = high.toUInt64 <<< 32 ||| low.toUInt64 := by
  have hhigh : (high.toUInt64 <<< 32).toNat = high.toNat <<< 32 := by
    have hlt := high.toNat_lt
    simp [UInt64.toNat_shiftLeft, Nat.shiftLeft_eq]
    omega
  have hlow : low.toUInt64.toNat = low.toNat := rfl
  have hlt := high.toNat_lt
  have hlt' := low.toNat_lt
  apply UInt64.toNat_inj.mp
  rw [UInt64.toNat_or, hhigh, hlow, ← Nat.shiftLeft_add_eq_or_of_lt hlt', UInt64.toNat_add, hhigh,
    hlow, Nat.shiftLeft_eq]
  omega

/-- `read_cycle` returns the values of the counter. -/
theorem untorn_readCycle32 (counter : Counter) : Targets.Untorn (readCycle32 counter) counter := by
  have heq : readCycle32 counter = Targets.read64 .rv32 counter := by
    funext fuel
    simp only [readCycle32, Targets.read64, add_low_word]
  rw [heq]
  exact Targets.untorn_read64 counter

/-! ### Laps -/

section

variable {cycles : Nat → Nat} {p q r : Profile} {laps laps' : List (Lap KeygenCount)}

/-- The laps that are measured from a profile to a later one. -/
structure Measured (cycles : Nat → Nat) (p q : Profile) (laps : List (Lap KeygenCount)) :
    Prop where
  ticks : q.ticks = p.ticks ++ laps.flatMap Lap.ticks
  total : ∀ cy, (q.count cy).totalCycleCount =
    (p.count cy).totalCycleCount + UInt64.ofNat (lapTime cy laps)
  other : ∀ cy, cy ∉ laps.map Lap.watch → q.count cy = p.count cy
  within : Within (cycles p.readings) laps (cycles q.readings)

theorem Measured.refl (p : Profile) : Measured cycles p p [] where
  ticks := (List.append_nil _).symm
  total _ := (UInt64.add_zero _).symm
  other _ _ := rfl
  within := Nat.le_refl _

theorem Measured.trans (h : Measured cycles p q laps) (h' : Measured cycles q r laps') :
    Measured cycles p r (laps ++ laps') where
  ticks := by rw [h'.ticks, h.ticks, List.flatMap_append, List.append_assoc]
  total cy := by
    rw [h'.total, h.total, lapTime_append, UInt64.ofNat_add, UInt64.add_assoc]
  other cy hcy := by
    rw [List.map_append, List.mem_append, not_or] at hcy
    rw [h'.other cy hcy.2, h.other cy hcy.1]
  within := h.within.append h'.within

/-- The lap of a count. -/
def lap (hmono : Monotone cycles) (p : Profile) (cy : KeygenCount) : Lap KeygenCount where
  watch := cy
  start := cycles p.readings
  stop := cycles (p.readings + 1)
  le := hmono (Nat.le_succ _)

theorem measured_lap (hmono : Monotone cycles) (p : Profile) (cy : KeygenCount) :
    Measured cycles p ((p.started cycles cy).ended cycles cy) [lap hmono p cy] where
  ticks := List.append_assoc ..
  total cy' := by
    have hlap : (lap hmono p cy).watch = cy := rfl
    rw [lapTime_cons, hlap]
    by_cases hcy : cy = cy'
    · subst hcy
      simp only [Profile.ended, Profile.started, Function.update_self]
      rw [if_pos trivial, ← UInt64.ofNat_sub (hmono (Nat.le_succ _))]
      rfl
    · simp only [Profile.ended, Profile.started, Function.update_of_ne (Ne.symm hcy)]
      rw [if_neg hcy]
      exact (UInt64.add_zero _).symm
  other cy' hcy := by
    have hne : cy' ≠ cy := fun heq => hcy (List.mem_singleton.mpr heq)
    simp only [Profile.ended, Profile.started, Function.update_of_ne hne]
  within := ⟨Nat.le_refl _, hmono (Nat.le_succ _)⟩

end

end Mlonmcu.McEliece
