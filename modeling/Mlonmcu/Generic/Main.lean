import Mlonmcu.Generic.Bench

/-! `main` of `generic/main.c`, for any functions that it calls. -/

namespace Mlonmcu.Generic

open CLib

/-- The functions that a program provides. -/
structure Program (τ : Type) where
  init : Prog τ Int32
  run : Prog τ Int32
  check : Prog τ Int32
  deinit : Prog τ Int32

variable {τ : Type} (target : Target)

def call (hook : Hook) (p : Prog τ Int32) : Prog (System τ) Int32 := do
  let ret ← Prog.zoom System.program (fun program s => { s with program }) p
  act (.returned hook ret)
  pure ret

/-- `mlonmcu_exit`, which returns on some targets. -/
def mlonmcuExit (status : Int32) : Prog (System τ) Unit := do
  act (.exit status)
  act (.printf (ascii "MLONMCU EXIT: " ++ signedDecimal status ++ ascii "\n"))
  if target.exits then Prog.exit status else pure ()

/-- `main` from the label `cleanup` on. -/
def cleanup (ret : Int32) : Prog (System τ) Int32 := do
  stopBench target .total
  printBench target .init
  printBench target .run
  printBench target .deinit
  printBench target .total
  act (.printf (ascii "Program finish.\n"))
  act .targetDeinit
  mlonmcuExit target ret
  pure ret

/-- `main` from the start of the phase `DEINIT` on. -/
def mainDeinit (p : Program τ) : Prog (System τ) Int32 := do
  startBench target .deinit
  let ret ← call .deinit p.deinit
  stopBench target .deinit
  cleanup target ret

/-- `main` from the check on.  `skipCheck` says whether `MLONMCU_SKIP_CHECK` is defined. -/
def mainCheck (skipCheck : Bool) (p : Program τ) (ret : Int32) : Prog (System τ) Int32 := do
  let ret ← if skipCheck then pure ret else call .check p.check
  if ret ≠ 0 then cleanup target ret else mainDeinit target p

/-- `main` from the start of the phase `RUN` on. -/
def mainRun (skipCheck : Bool) (p : Program τ) : Prog (System τ) Int32 := do
  startBench target .run
  let ret ← call .run p.run
  stopBench target .run
  if ret ≠ 0 then cleanup target ret else mainCheck target skipCheck p ret

def main (skipCheck : Bool) (p : Program τ) : Prog (System τ) Int32 := do
  act .targetInit
  act (.printf (ascii "Program start.\n"))
  startBench target .total
  startBench target .init
  let ret ← call .init p.init
  stopBench target .init
  if ret ≠ 0 then cleanup target ret else mainRun target skipCheck p

/-! ### Runs -/

section

variable {target : Target} {s : System τ}

/-- The state of `main` before its first phase. -/
def System.begun (target : Target) (program : τ) : System τ where
  program := program
  temp metric p := if target.has metric ∧ p = .total then target.clock metric 0 else 0
  readings := 1
  actions := [.targetInit, .printf (ascii "Program start.\n"), .start .total 0]

/-- The state after a phase in which the function `hook` returned `code`. -/
def System.lap (target : Target) (phase : Phase) (hook : Hook) (code : Int32) (program : τ)
    (s : System τ) : System τ where
  program := program
  temp metric p :=
    if target.has metric ∧ p = phase then
      target.clock metric (s.readings + 1) - target.clock metric s.readings
    else s.temp metric p
  readings := s.readings + 2
  actions := s.actions ++
    [.start phase s.readings, .returned hook code, .stop phase (s.readings + 1)]

theorem lap_temp (phase : Phase) (hook : Hook) (code : Int32) (program : τ) (metric : Metric)
    (p : Phase) : (s.lap target phase hook code program).temp metric p =
      if target.has metric ∧ p = phase then
        target.clock metric (s.readings + 1) - target.clock metric s.readings
      else s.temp metric p := rfl

theorem run_call {p : Prog τ Int32} {code : Int32} {program : τ}
    (h : p.run s.program = (.done code, program)) (hook : Hook) :
    (call hook p).run s = (.done code, { s with
      program := program
      actions := s.actions ++ [.returned hook code] }) := by
  rw [call, Prog.bind_done (Prog.run_zoom h)]
  rfl

theorem run_phase {p : Prog τ Int32} {code : Int32} {program : τ}
    (h : p.run s.program = (.done code, program)) (phase : Phase) (hook : Hook)
    (rest : Int32 → Prog (System τ) Int32) :
    (do
      startBench target phase
      let ret ← call hook p
      stopBench target phase
      rest ret).run s = (rest code).run (s.lap target phase hook code program) := by
  rw [startBench, Prog.run_modify_bind, Prog.bind_done (run_call (by exact h) hook), stopBench,
    Prog.run_modify_bind]
  congr 1
  simp only [System.lap, System.mk.injEq, true_and, List.append_assoc]
  refine ⟨?_, rfl⟩
  funext metric p
  split <;> rfl

/-- The values that `main` prints. -/
def System.values (target : Target) (s : System τ) (metric : Metric) (phase : Phase) : UInt64 :=
  if target.has metric ∧ phase = .total then target.clock metric s.readings - s.temp metric phase
  else s.temp metric phase

/-- The actions of `main` from the label `cleanup` on. -/
def shutdown (target : Target) (ret : Int32) (s : System τ) : List Action :=
  [.stop .total s.readings] ++
    ([Phase.init, .run, .deinit, .total].flatMap fun phase => target.metrics.map fun metric =>
      .printf (benchLine target phase metric (s.values target metric phase))) ++
    [.printf (ascii "Program finish.\n"), .targetDeinit, .exit ret,
      .printf (ascii "MLONMCU EXIT: " ++ signedDecimal ret ++ ascii "\n")]

theorem run_cleanup (target : Target) (ret : Int32) (s : System τ) : (cleanup target ret).run s =
    (if target.exits then .exited ret else .done ret, { s with
      temp := s.values target
      readings := s.readings + 1
      actions := s.actions ++ shutdown target ret s }) := by
  have hexit : ∀ t : System τ, (mlonmcuExit target ret >>= fun _ => pure ret).run t =
      (if target.exits then .exited ret else .done ret, { t with
        actions := t.actions ++ [.exit ret,
          .printf (ascii "MLONMCU EXIT: " ++ signedDecimal ret ++ ascii "\n")] }) := by
    intro t
    rw [mlonmcuExit, act, act]
    cases target.exits with
    | true =>
      rw [Prog.run_bind_assoc, Prog.run_modify_bind, Prog.run_bind_assoc, Prog.run_modify_bind]
      simp only [↓reduceIte, List.append_assoc]
      exact Prog.bind_exited rfl
    | false =>
      rw [Prog.run_bind_assoc, Prog.run_modify_bind, Prog.run_bind_assoc, Prog.run_modify_bind]
      simp
  have hstop : (stopBench target .total).run s = (.done (), { s with
      temp := s.values target
      readings := s.readings + 1
      actions := s.actions ++ [.stop .total s.readings] }) := rfl
  rw [cleanup, Prog.bind_done hstop, printBench, Prog.run_modify_bind, printBench,
    Prog.run_modify_bind, printBench, Prog.run_modify_bind, printBench, Prog.run_modify_bind, act,
    Prog.run_modify_bind, act, Prog.run_modify_bind, hexit]
  congr 1
  simp only [shutdown, List.flatMap_cons, List.flatMap_nil, List.append_assoc, List.append_nil]
  rfl

theorem run_main_init {p : Program τ} {program program' : τ} {code : Int32}
    (h : p.init.run program = (.done code, program')) (skipCheck : Bool) :
    (main target skipCheck p).run (.initial program) =
      (if code ≠ 0 then cleanup target code else mainRun target skipCheck p).run
        ((System.begun target program).lap target .init .init code program') :=
  run_phase (s := System.begun target program) h .init .init fun ret =>
    if ret ≠ 0 then cleanup target ret else mainRun target skipCheck p

theorem run_mainRun {p : Program τ} {program : τ} {code : Int32}
    (h : p.run.run s.program = (.done code, program)) (skipCheck : Bool) :
    (mainRun target skipCheck p).run s =
      (if code ≠ 0 then cleanup target code else mainCheck target skipCheck p code).run
        (s.lap target .run .run code program) :=
  run_phase h .run .run fun ret =>
    if ret ≠ 0 then cleanup target ret else mainCheck target skipCheck p ret

theorem run_mainCheck_skip (p : Program τ) :
    (mainCheck target true p 0).run s = (mainDeinit target p).run s := rfl

theorem run_mainCheck {p : Program τ} {program : τ} {code : Int32}
    (h : p.check.run s.program = (.done code, program)) (ret : Int32) :
    (mainCheck target false p ret).run s =
      (if code ≠ 0 then cleanup target code else mainDeinit target p).run { s with
        program := program
        actions := s.actions ++ [.returned .check code] } := by
  rw [mainCheck, if_neg Bool.false_ne_true, Prog.bind_done (run_call h .check)]

/-- A check that does not return ends `main`. -/
theorem run_mainCheck_stop {p : Program τ} {program : τ} {result : Result Int32}
    (h : p.check.run s.program = (result, program)) (hstop : ∀ code, result ≠ .done code)
    (ret : Int32) :
    (mainCheck target false p ret).run s = (result, { s with program := program }) := by
  have hcall : (call .check p.check).run s = (result, { s with program := program }) :=
    Prog.bind_stop (Prog.run_zoom h) hstop
  exact Prog.bind_stop hcall hstop

theorem run_mainDeinit {p : Program τ} {program : τ} {code : Int32}
    (h : p.deinit.run s.program = (.done code, program)) :
    (mainDeinit target p).run s =
      (cleanup target code).run (s.lap target .deinit .deinit code program) :=
  run_phase h .deinit .deinit (cleanup target)

/-! ### The shutdown -/

def Action.code (hook : Hook) : Action → Option Int32
  | .returned h code => if h = hook then some code else none
  | _ => none

/-- Neither has the target been torn down nor has `mlonmcu_exit` been called. -/
def Open (actions : List Action) : Prop :=
  .targetDeinit ∉ actions ∧ ∀ status, .exit status ∉ actions

theorem Open.append {actions actions' : List Action} (h : Open actions) (h' : Open actions') :
    Open (actions ++ actions') := by
  refine ⟨fun hmem => ?_, fun status hmem => ?_⟩
  · exact (List.mem_append.mp hmem).elim h.1 h'.1
  · exact (List.mem_append.mp hmem).elim (h.2 status) (h'.2 status)

theorem open_lap (h : Open s.actions) (phase : Phase) (hook : Hook) (code : Int32) (program : τ) :
    Open (s.lap target phase hook code program).actions :=
  h.append ⟨by simp, by simp⟩

/-- A run of `main` ends with the orderly shutdown and a status. -/
def ShutsDown (target : Target) (status : Int32) (run : Result Int32 × System τ) : Prop :=
  run.1 = (if target.exits then .exited status else .done status) ∧
    ∃ before s', run.2.actions = before ++ shutdown target status (s' : System τ) ∧ Open before

theorem shutsDown_cleanup (h : Open s.actions) (status : Int32) :
    ShutsDown target status ((cleanup target status).run s) := by
  rw [run_cleanup]
  exact ⟨rfl, s.actions, s, rfl, h⟩

theorem not_shutsDown {run : Result Int32 × System τ} (h : .targetDeinit ∉ run.2.actions)
    (status : Int32) : ¬ ShutsDown target status run := by
  rintro ⟨-, before, s', hactions, -⟩
  apply h
  rw [hactions]
  simp [shutdown]

/-- The status of the shutdown is that of `cleanup`. -/
theorem shutsDown_cleanup_iff (h : Open s.actions) {status ret : Int32} :
    ShutsDown target status ((cleanup target ret).run s) ↔ status = ret := by
  constructor
  · rw [run_cleanup]
    rintro ⟨-, before, s', hactions, hbefore⟩
    have hmem : .exit status ∈ s.actions ++ shutdown target ret s := by
      rw [show s.actions ++ shutdown target ret s = _ from hactions]
      simp [shutdown]
    rcases List.mem_append.mp hmem with hold | hnew
    · exact absurd hold (h.2 status)
    · simpa [shutdown] using hnew
  · rintro rfl
    exact shutsDown_cleanup h status

theorem code_shutdown (hook : Hook) (ret : Int32) :
    (shutdown target ret s).filterMap (Action.code hook) = [] := by
  rw [List.filterMap_eq_nil_iff]
  intro action hmem
  cases action with
  | returned h code => simp [shutdown] at hmem
  | _ => rfl

end

end Mlonmcu.Generic
