import Mlonmcu.CLib.Decimal
import Mlonmcu.CLib.Prog

/-! `bench.c`: one cell for each metric and phase holds the start of the phase and then its
duration. -/

namespace Mlonmcu.Generic

open CLib

/-- The indices of the benchmark arrays. -/
inductive Phase
  | init
  | run
  | total
  | deinit
  deriving DecidableEq, Repr

inductive Metric
  | cycles
  | instructions
  | time
  deriving DecidableEq, Repr

/-- `bench_names`. -/
def Phase.name : Phase → Bytes
  | init => ascii "Setup"
  | run => ascii "Run"
  | total => ascii "Total"
  | deinit => ascii "Deinit"

def Metric.name : Metric → Bytes
  | cycles => ascii "Cycles"
  | instructions => ascii "Instructions"
  | time => ascii "Runtime [us]"

/-- The functions that `main` calls between the measurements. -/
inductive Hook
  | init
  | run
  | check
  | deinit
  deriving DecidableEq, Repr

/-- What a target provides: the metrics that it has, the readings of their counters one after the
other, the conversion of a number that is printed, and whether `mlonmcu_exit` calls `exit`.  The
assembly with which one target ends the simulation has no counterpart. -/
structure Target where
  has : Metric → Bool
  clock : Metric → Nat → UInt64
  conversion : UInt64 → Bytes
  exits : Bool

/-- What a program does outside of the functions that it calls.  Of a phase, the number of the
reading at its start or stop is shown. -/
inductive Action
  | targetInit
  | targetDeinit
  | start (phase : Phase) (reading : Nat)
  | stop (phase : Phase) (reading : Nat)
  | returned (hook : Hook) (code : Int32)
  | printf (text : Bytes)
  | exit (status : Int32)
  deriving DecidableEq, Repr

/-- The state of a program: the part that its functions change, the arrays of the metrics, and the
number of readings.  The actions have no counterpart in the program. -/
structure System (τ : Type) where
  program : τ
  temp : Metric → Phase → UInt64
  readings : Nat
  actions : List Action

/-- The arrays are static, and hold 0. -/
def System.initial {τ : Type} (program : τ) : System τ := ⟨program, fun _ _ => 0, 0, []⟩

/-- The metrics of a target, in the order in which they are printed. -/
def Target.metrics (target : Target) : List Metric :=
  [.cycles, .instructions, .time].filter target.has

variable {τ : Type} (target : Target)

def act (action : Action) : Prog (System τ) Unit :=
  Prog.modify fun s => { s with actions := s.actions ++ [action] }

def startBench (phase : Phase) : Prog (System τ) Unit :=
  Prog.modify fun s => { s with
    temp := fun metric p =>
      if target.has metric ∧ p = phase then target.clock metric s.readings else s.temp metric p
    readings := s.readings + 1
    actions := s.actions ++ [.start phase s.readings] }

def stopBench (phase : Phase) : Prog (System τ) Unit :=
  Prog.modify fun s => { s with
    temp := fun metric p =>
      if target.has metric ∧ p = phase then target.clock metric s.readings - s.temp metric p
      else s.temp metric p
    readings := s.readings + 1
    actions := s.actions ++ [.stop phase s.readings] }

/-- The line of a metric and a phase. -/
def benchLine (phase : Phase) (metric : Metric) (value : UInt64) : Bytes :=
  ascii "# " ++ phase.name ++ ascii " " ++ metric.name ++ ascii ": " ++ target.conversion value ++
    ascii "\n"

def printBench (phase : Phase) : Prog (System τ) Unit :=
  Prog.modify fun s => { s with
    actions := s.actions ++ target.metrics.map fun metric =>
      .printf (benchLine target phase metric (s.temp metric phase)) }

end Mlonmcu.Generic
