import Mlonmcu.Generic.Main
import Mlonmcu.V1.Backends

/-! Whole programs of `main` and a backend of the first interface version: whether every failure
reaches the orderly shutdown of `main`, with its code. -/

namespace Mlonmcu.V1

open CLib Generic

variable {σ : Type}

/-- A generated wrapper with its functions that set the model up and tear it down. -/
structure Lifecycle (σ : Type) extends Wrapper σ where
  init : ModelState σ → Int32 × ModelState σ
  deinit : ModelState σ → Int32 × ModelState σ

def Lifecycle.runInit (m : Lifecycle σ) : Prog (Machine σ) Int32 := do
  let s ← Prog.get
  Prog.modify fun s => { s with model := (m.init s.model).2 }
  pure (m.init s.model).1

def Lifecycle.runDeinit (m : Lifecycle σ) : Prog (Machine σ) Int32 := do
  let s ← Prog.get
  Prog.modify fun s => { s with model := (m.deinit s.model).2 }
  pure (m.deinit s.model).1

/-- `mlonmcu_init`, which is the same in all backends. -/
def mlonmcuInit (m : Lifecycle σ) : Prog (Machine σ) Int32 := m.runInit

def Backend.mlonmcuDeinit (backend : Backend) (m : Lifecycle σ) : Prog (Machine σ) Int32 :=
  match backend with
  | iree | executorch => m.runDeinit
  | tvm | tflm | emx => pure 0

/-- The functions that `main` calls in a program with a backend. -/
def Backend.program (backend : Backend) (m : Lifecycle σ) (data : DataSet) (numRuns : Nat)
    (ret : Int32) (fuel : Nat) : Program (Machine σ) where
  init := mlonmcuInit m
  run := backend.mlonmcuRun m.toWrapper numRuns ret
  check := backend.mlonmcuCheck m.toWrapper data fuel
  deinit := backend.mlonmcuDeinit m

/-! ### Failures -/

/-- The code of what fails in an event, or 0. -/
def Event.failure (w : Wrapper σ) (data : DataSet) : Event σ → Int32
  | .request _ none => 0
  | .request i (some n) =>
    let size := (data.inputs.getD n []).length
    if size ≠ 0 ∧ size ≠ w.inputSize i then exitMlifInvalidSize else 0
  | .invoke seen => (w.invoke seen).1
  | .handle _ _ none => 0
  | .handle j contents (some n) =>
    if w.outputSize j = (data.outputs.getD n []).length ∧ contents = data.outputs.getD n [] then 0
    else exitMlifMissmatch

def firstError (codes : List Int32) : Int32 := (codes.find? (· ≠ 0)).getD 0

/-- The code of the first failure of a run of `main`, or 0. -/
def firstFailure (w : Wrapper σ) (data : DataSet) (s : System (Machine σ)) : Int32 :=
  firstError (s.actions.filterMap (Action.code .init) ++
    s.program.log.map (Event.failure w data) ++ s.actions.filterMap (Action.code .deinit))

/-- A run of `main` ends with the orderly shutdown and the code of its first failure. -/
def ReachesShutdown (target : Target) (w : Wrapper σ) (data : DataSet)
    (run : Result Int32 × System (Machine σ)) : Prop :=
  ShutsDown target (firstFailure w data run.2) run

/-- Every run of a program reaches the shutdown. -/
def EndsOrderly (target : Target) (skipCheck : Bool) (backend : Backend) (m : Lifecycle σ)
    (data : DataSet) (numRuns : Nat) (ret : Int32) (start : ModelState σ) : Prop :=
  ∀ fuel, data.inputs.length < fuel → ReachesShutdown target m.toWrapper data
    ((main target skipCheck (backend.program m data numRuns ret fuel)).run
      (.initial (.initial start)))

/-- The step that ends a check is the handling of an output. -/
def StopsAtOutput (script : Script (Event σ) (Result Int32)) : Prop :=
  ∃ before j contents expected result after,
    script = before ++ (.handle j contents expected, some result) :: after ∧ Script.Passes before

/-- The step that ends a check is the request for a buffer of a wrong size. -/
def StopsAtInput (script : Script (Event σ) (Result Int32)) : Prop :=
  ∃ before i n result after,
    script = before ++ (.request i (some n), some result) :: after ∧ Script.Passes before

/-- The codes of a model that a backend looks at. -/
def Backend.wrapper (backend : Backend) (w : Wrapper σ) : Wrapper σ :=
  if backend = .emx then w.ignoring else w

/-- The invocations of a run without failures. -/
def Backend.invocations (backend : Backend) (numRuns : Nat) : Nat :=
  if backend = .emx then 2 * numRuns else numRuns

def invocationCodes (w : Wrapper σ) (models : List (ModelState σ)) : List Int32 :=
  models.map fun model => (w.invoke model).1

/-- What a program needs for an orderly end once its model is set up: TFLM and ExecuTorch, which do
not initialize the code that they return without runs, find a 0 there; the check does not end at an
output; and EMX drops no code of a model, unless it is that of a buffer of a wrong size and such a
buffer ends the check. -/
structure Orderly (skipCheck : Bool) (backend : Backend) (w : Wrapper σ) (data : DataSet)
    (numRuns : Nat) (ret : Int32) (model : ModelState σ) : Prop where
  initialized : numRuns = 0 → backend = .tflm ∨ backend = .executorch → ret = 0
  outputs : skipCheck = false →
    (expectedRun (backend.wrapper w) (backend.invocations numRuns) model).1 = 0 →
    ¬ StopsAtOutput (checkScript (backend.wrapper w) data
      (ran w (backend.invocations numRuns) model))
  codes : backend = .emx →
    let models := (expectedRun w.ignoring (2 * numRuns) model).2
    let script := checkScript w.ignoring data (ran w (2 * numRuns) model)
    let dropped := firstError (invocationCodes w
      (if skipCheck then models else models ++ script.performed.filterMap Event.invoked))
    dropped = 0 ∨ skipCheck = false ∧ dropped = exitMlifInvalidSize ∧ StopsAtInput script

/-! ### The first error -/

theorem firstError_cons (code : Int32) (codes : List Int32) :
    firstError (code :: codes) = if code ≠ 0 then code else firstError codes := by
  by_cases hcode : code = 0
  · simp [firstError, hcode]
  · simp [firstError, hcode]

theorem firstError_append (codes codes' : List Int32) : firstError (codes ++ codes') =
    if firstError codes ≠ 0 then firstError codes else firstError codes' := by
  induction codes with
  | nil => rfl
  | cons code codes ih =>
    rw [List.cons_append, firstError_cons, firstError_cons, ih]
    by_cases hcode : code ≠ 0
    · simp only [if_pos hcode]
    · simp only [if_neg hcode]

theorem firstError_append_zero {codes : List Int32} (h : firstError codes = 0)
    (codes' : List Int32) : firstError (codes ++ codes') = firstError codes' := by
  rw [firstError_append, h, if_neg (not_not.mpr rfl)]

theorem firstError_append_ne {codes : List Int32} (h : firstError codes ≠ 0)
    (codes' : List Int32) : firstError (codes ++ codes') = firstError codes := by
  rw [firstError_append, if_pos h]

theorem firstError_zero (codes : List Int32) : firstError (0 :: codes) = firstError codes := by
  rw [firstError_cons, if_neg (by decide)]

theorem firstError_eq_zero {codes : List Int32} (h : ∀ code ∈ codes, code = 0) :
    firstError codes = 0 := by
  have hnone : codes.find? (· ≠ 0) = none := by simpa using h
  rw [firstError, hnone]
  rfl

theorem firstError_singleton (code : Int32) : firstError [code] = code := by
  by_cases hcode : code = 0 <;> simp [firstError, hcode]

section

variable {w : Wrapper σ} {data : DataSet} {start : ModelState σ}

theorem expectedRun_code (w : Wrapper σ) (n : Nat) (model : ModelState σ) :
    firstError (invocationCodes w (expectedRun w n model).2) = (expectedRun w n model).1 := by
  induction n generalizing model with
  | zero => rfl
  | succ n ih =>
    rw [expectedRun]
    dsimp only
    split
    next hcode => exact firstError_singleton _
    next hcode =>
      rw [← ih, invocationCodes, List.map_cons, firstError_cons, if_neg hcode]
      rfl

theorem expectedRun_ignoring (w : Wrapper σ) (n : Nat) (model : ModelState σ) :
    (expectedRun w.ignoring n model).1 = 0 := by
  induction n generalizing model with
  | zero => rfl
  | succ n ih => exact ih _

theorem ran_ignoring (w : Wrapper σ) (n : Nat) (model : ModelState σ) :
    ran w.ignoring n model = ran w n model := by
  induction n generalizing model with
  | zero => rfl
  | succ n ih => exact ih _

/-! ### The steps of a check -/

theorem mem_checkScript {step : Event σ × Option (Result Int32)}
    (h : step ∈ checkScript w data start) :
    (∃ r i, step = requestStep w data r i) ∨ (∃ r, step = invokeStep w data start r) ∨
      (∃ r j, step = handleStep w data start r j) ∨
      step = (finalRequest w data, some (.done 0)) := by
  rcases List.mem_append.mp h with hsteps | hlast
  · rcases List.mem_append.mp hsteps with hbatch | hrest
    · obtain ⟨r, -, hstep⟩ := List.mem_flatMap.mp hbatch
      rcases List.mem_append.mp hstep with hrequest | htail
      · obtain ⟨i, -, rfl⟩ := List.mem_map.mp hrequest
        exact .inl ⟨r, i, rfl⟩
      · rcases List.mem_cons.mp htail with rfl | hhandle
        · exact .inr (.inl ⟨r, rfl⟩)
        · obtain ⟨j, -, rfl⟩ := List.mem_map.mp hhandle
          exact .inr (.inr (.inl ⟨r, j, rfl⟩))
    · obtain ⟨i, -, rfl⟩ := List.mem_map.mp hrest
      exact .inl ⟨_, i, rfl⟩
  · exact .inr (.inr (.inr (List.mem_singleton.mp hlast)))

/-- After a step the check ends with a code, or goes on, which counts as the code 0. -/
def StepCode (stop : Option (Result Int32)) (code : Int32) : Prop :=
  stop = some (.done code) ∨ stop = none ∧ code = 0

theorem StepCode.ite {p : Prop} [Decidable p] {c code : Int32}
    (h : StepCode (if p then some (.done c) else none) code) : (if p then c else 0) = code := by
  rcases h with h | ⟨h, rfl⟩
  · split at h
    next hp => rw [if_pos hp]; simpa using h
    next => cases h
  · split at h
    next => cases h
    next hp => exact if_neg hp

theorem failure_invokeStep {r : Nat} {c : Int32} (h : StepCode (invokeStep w data start r).2 c) :
    (invokeStep w data start r).1.failure w data = c := by
  have hcode : (invokeStep w data start r).1.failure w data = code w data start r := rfl
  rw [hcode, ← StepCode.ite h]
  split
  next => rfl
  next hzero => exact not_not.mp hzero

theorem failure_handleStep {r j : Nat} {c : Int32}
    (h : StepCode (handleStep w data start r j).2 c) :
    (handleStep w data start r j).1.failure w data = c := by
  obtain ⟨hnone, rfl⟩ := h.resolve_left fun hdone => handleStep_ne_done hdone c rfl
  unfold handleStep at hnone ⊢
  dsimp only at hnone ⊢
  split
  next hlt =>
    rw [if_pos hlt] at hnone
    rw [Event.failure]
    split at hnone
    next heq => exact if_pos heq
    next => cases hnone
  next => rfl

/-- The code after a step is that of its failure. -/
theorem failure_step {step : Event σ × Option (Result Int32)}
    (h : step ∈ checkScript w data start) {code : Int32} (hcode : StepCode step.2 code) :
    step.1.failure w data = code := by
  rcases mem_checkScript h with ⟨r, i, rfl⟩ | ⟨r, rfl⟩ | ⟨r, j, rfl⟩ | rfl
  · exact StepCode.ite hcode
  · exact failure_invokeStep hcode
  · exact failure_handleStep hcode
  · rcases hcode with hdone | ⟨hnone, -⟩
    · cases hdone
      rfl
    · cases hnone

theorem failure_of_passes {before after : Script (Event σ) (Result Int32)}
    (hscript : checkScript w data start = before ++ after) (hbefore : Script.Passes before)
    {event : Event σ} (hevent : event ∈ Script.events before) : event.failure w data = 0 := by
  obtain ⟨step, hstep, rfl⟩ := List.mem_map.mp hevent
  exact failure_step (hscript ▸ List.mem_append_left _ hstep) (.inr ⟨hbefore step hstep, rfl⟩)

theorem failure_of_outcome {before after : Script (Event σ) (Result Int32)} {event : Event σ}
    {c : Int32} (hscript : checkScript w data start = before ++ (event, some (.done c)) :: after) :
    event.failure w data = c :=
  @failure_step σ w data start (event, some (.done c)) (hscript ▸ by simp) c (.inl rfl)

/-- The first failure of a check that ends with a code is the code. -/
theorem firstError_check {c : Int32} (h : (checkScript w data start).outcome = some (.done c)) :
    firstError ((checkScript w data start).performed.map (Event.failure w data)) = c := by
  obtain ⟨before, event, after, hscript, hbefore, hperformed⟩ := Script.stop_of_outcome h
  have hzero : firstError ((Script.events before).map (Event.failure w data)) = 0 := by
    apply firstError_eq_zero
    intro code hcode
    obtain ⟨event, hevent, rfl⟩ := List.mem_map.mp hcode
    exact failure_of_passes hscript hbefore hevent
  rw [hperformed, List.map_append, firstError_append_zero hzero, List.map_singleton,
    firstError_singleton, failure_of_outcome hscript]

/-! ### Dropped codes -/

theorem failure_invoked (w : Wrapper σ) (data : DataSet) (event : Event σ) :
    event.failure w data =
      (event.invoked.map fun seen => (w.invoke seen).1).getD (event.failure w.ignoring data) := by
  cases event with
  | request i buffer => cases buffer <;> rfl
  | invoke seen => rfl
  | handle j contents expected => cases expected <;> rfl

theorem failure_ignoring_invoked {event : Event σ} {model : ModelState σ}
    (h : event.invoked = some model) : event.failure w.ignoring data = 0 := by
  cases event with
  | request i buffer => cases h
  | invoke seen => rfl
  | handle j contents expected => cases h

theorem invocationCodes_cons (w : Wrapper σ) (model : ModelState σ) (models : List (ModelState σ)) :
    invocationCodes w (model :: models) = (w.invoke model).1 :: invocationCodes w models := rfl

theorem invocationCodes_append (w : Wrapper σ) (models models' : List (ModelState σ)) :
    invocationCodes w (models ++ models') = invocationCodes w models ++ invocationCodes w models' :=
  List.map_append

/-- Without other failures the codes of the invocations remain. -/
theorem firstError_invoked {events : List (Event σ)}
    (h : ∀ event ∈ events, event.failure w.ignoring data = 0) :
    firstError (events.map (Event.failure w data)) =
      firstError (invocationCodes w (events.filterMap Event.invoked)) := by
  induction events with
  | nil => rfl
  | cons event events ih =>
    have hrest := ih fun later hlater => h later (List.mem_cons_of_mem _ hlater)
    rw [List.map_cons, firstError_cons, hrest, failure_invoked, h event List.mem_cons_self]
    cases hevent : event.invoked with
    | none =>
      rw [List.filterMap_cons_none hevent]
      simp
    | some seen =>
      rw [List.filterMap_cons_some hevent, invocationCodes_cons, firstError_cons]
      rfl

/-- The first failure of a check of EMX is the first code that it drops, if there is one. -/
theorem firstError_check_ignoring {c : Int32}
    (h : (checkScript w.ignoring data start).outcome = some (.done c)) :
    let events := (checkScript w.ignoring data start).performed
    let dropped := firstError (invocationCodes w (events.filterMap Event.invoked))
    firstError (events.map (Event.failure w data)) = if dropped ≠ 0 then dropped else c := by
  obtain ⟨before, event, after, hscript, hbefore, hperformed⟩ := Script.stop_of_outcome h
  have hfirst := @firstError_invoked σ w data (Script.events before) fun event hevent =>
    failure_of_passes hscript hbefore hevent
  have hlast : event.failure w.ignoring data = c := failure_of_outcome hscript
  intro events dropped
  have hdropped : dropped = firstError (invocationCodes w
      ((Script.events before).filterMap Event.invoked) ++
        invocationCodes w ([event].filterMap Event.invoked)) := by
    simp only [dropped, events, hperformed, List.filterMap_append, invocationCodes_append]
  rw [hdropped, show events = _ from hperformed, List.map_append, List.map_singleton,
    failure_invoked, hlast]
  by_cases hne : firstError (invocationCodes w
      ((Script.events before).filterMap Event.invoked)) = 0
  · rw [firstError_append_zero (hfirst.trans hne), firstError_append_zero hne, firstError_singleton]
    cases hevent : event.invoked with
    | none => rw [List.filterMap_cons_none hevent]; rfl
    | some seen =>
      -- EMX does not look at the code, so the check ends with 0 if it ends here
      obtain rfl : c = 0 := hlast.symm.trans (failure_ignoring_invoked hevent)
      rw [List.filterMap_cons_some hevent, List.filterMap_nil, invocationCodes_cons,
        show invocationCodes w [] = [] from rfl, firstError_singleton]
      exact (ite_eq_left_iff.mpr fun hzero => (not_not.mp hzero).symm).symm
  · rw [firstError_append_ne (hfirst ▸ hne), firstError_append_ne hne, if_pos hne, hfirst]

/-! ### The functions of a backend -/

theorem emx_runLoop_eq (w : Wrapper σ) (n : Nat) :
    Emx.runLoop w n = runLoop w.ignoring (2 * n) := by
  induction n with
  | zero => rfl
  | succ n ih =>
    rw [Emx.runLoop, ih, Nat.mul_succ, runLoop, ignoring_run, runLoop, ignoring_run]

/-- `mlonmcu_run` of all backends. -/
theorem Backend.mlonmcuRun_eq {backend : Backend} {numRuns : Nat} {ret : Int32}
    (h : numRuns = 0 → backend = .tflm ∨ backend = .executorch → ret = 0) (w : Wrapper σ)
    (s : Machine σ) : (backend.mlonmcuRun w numRuns ret).run s =
      (runLoop (backend.wrapper w) (backend.invocations numRuns)).run s := by
  have hret (hbackend : backend = .tflm ∨ backend = .executorch) :
      (runLoopRet w numRuns ret).run s = (runLoop w numRuns).run s := by
    cases numRuns with
    | zero => rw [h rfl hbackend]; rfl
    | succ n => rw [runLoopRet_succ, runLoopRet_eq]
  cases backend with
  | tvm => rfl
  | iree => rfl
  | tflm => exact hret (.inl rfl)
  | executorch => exact hret (.inr rfl)
  | emx => exact congrArg (fun p => Prog.run p s) (emx_runLoop_eq w numRuns)

theorem Backend.mlonmcuCheck_wrapper (backend : Backend) (w : Wrapper σ) (data : DataSet)
    (fuel : Nat) :
    backend.mlonmcuCheck w data fuel = checkLoop (backend.wrapper w) data fuel 0 := by
  by_cases hbackend : backend = .emx
  · subst hbackend
    exact emx_checkLoop data fuel 0
  · rw [Backend.mlonmcuCheck_eq hbackend, Backend.wrapper, if_neg hbackend]

/-- The backends other than EMX return the first code of a run that is not 0. -/
theorem Backend.run_code {backend : Backend} (hbackend : backend ≠ .emx) (w : Wrapper σ) (n : Nat)
    (model : ModelState σ) :
    firstError (invocationCodes w (expectedRun (backend.wrapper w) n model).2) =
      (expectedRun (backend.wrapper w) n model).1 := by
  rw [Backend.wrapper, if_neg hbackend, expectedRun_code]

theorem Backend.ran_wrapper (backend : Backend) (w : Wrapper σ) (n : Nat) (model : ModelState σ) :
    ran (backend.wrapper w) n model = ran w n model := by
  unfold Backend.wrapper
  split
  · exact ran_ignoring w n model
  · rfl

theorem run_deinit (backend : Backend) (m : Lifecycle σ) (s : Machine σ) : ∃ code t,
    (backend.mlonmcuDeinit m).run s = (.done code, t) ∧ t.log = s.log ∧
      (backend = .emx → code = 0) := by
  cases backend with
  | tvm => exact ⟨0, s, rfl, rfl, fun _ => rfl⟩
  | iree => exact ⟨_, _, rfl, rfl, fun h => by cases h⟩
  | tflm => exact ⟨0, s, rfl, rfl, fun _ => rfl⟩
  | executorch => exact ⟨_, _, rfl, rfl, fun h => by cases h⟩
  | emx => exact ⟨0, s, rfl, rfl, fun _ => rfl⟩

/-! ### The end of a check -/

/-- A check ends with a code or at an output. -/
theorem stopsAtOutput_iff {result : Result Int32}
    (h : (checkScript w data start).outcome = some result) :
    StopsAtOutput (checkScript w data start) ↔ ∀ code, result ≠ .done code := by
  constructor
  · rintro ⟨before, j, contents, expected, result', after, hscript, hbefore⟩
    have houtcome := h
    rw [hscript, Script.outcome_append hbefore, Option.some.injEq] at houtcome
    subst houtcome
    have hmem : (.handle j contents expected, some result') ∈ checkScript w data start := by
      rw [hscript]
      simp
    rcases mem_checkScript hmem with ⟨r, i, hstep⟩ | ⟨r, hstep⟩ | ⟨r, j, hstep⟩ | hstep
    · cases hstep
    · cases hstep
    · exact handleStep_ne_done (congrArg Prod.snd hstep).symm
    · cases hstep
  · intro hstop
    obtain ⟨before, event, after, hscript, hbefore, -⟩ := Script.stop_of_outcome h
    have hmem : (event, some result) ∈ checkScript w data start := by
      rw [hscript]
      simp
    rcases mem_checkScript hmem with ⟨r, i, hstep⟩ | ⟨r, hstep⟩ | ⟨r, j, hstep⟩ | hstep
    · have hsnd : (if _ then _ else _) = some result := (congrArg Prod.snd hstep).symm
      split at hsnd
      · exact absurd (Option.some.inj hsnd).symm (hstop _)
      · cases hsnd
    · have hsnd : (if _ then _ else _) = some result := (congrArg Prod.snd hstep).symm
      split at hsnd
      · exact absurd (Option.some.inj hsnd).symm (hstop _)
      · cases hsnd
    · obtain ⟨contents, expected, hevent⟩ :
          ∃ contents expected, event = .handle j contents expected :=
        ⟨_, _, (congrArg Prod.fst hstep).trans (handleStep_event r j)⟩
      exact ⟨before, j, contents, expected, result, after, hevent ▸ hscript, hbefore⟩
    · cases hstep
      exact absurd rfl (hstop 0)

/-- A check that sees no failed invocation ends with a code only for a buffer of a wrong size. -/
theorem outcome_ignoring_iff {c : Int32} (hc : c ≠ 0) :
    (checkScript w.ignoring data start).outcome = some (.done c) ↔
      c = exitMlifInvalidSize ∧ StopsAtInput (checkScript w.ignoring data start) := by
  constructor
  · intro h
    obtain ⟨before, event, after, hscript, hbefore, -⟩ := Script.stop_of_outcome h
    have hmem : (event, some (.done c)) ∈ checkScript w.ignoring data start := by
      rw [hscript]
      simp
    rcases mem_checkScript hmem with ⟨r, i, hstep⟩ | ⟨r, hstep⟩ | ⟨r, j, hstep⟩ | hstep
    · have hsnd : (if _ then _ else _) = some (Result.done c) := (congrArg Prod.snd hstep).symm
      obtain rfl : event = .request i (some (r * w.ignoring.numInputs + i)) :=
        congrArg Prod.fst hstep
      split at hsnd
      · cases hsnd
        exact ⟨rfl, before, i, _, _, after, hscript, hbefore⟩
      · cases hsnd
    · -- The wrapper whose codes are ignored always returns 0.
      cases hstep
    · exact absurd rfl (handleStep_ne_done (congrArg Prod.snd hstep).symm c)
    · cases hstep
      exact absurd rfl hc
  · rintro ⟨rfl, before, i, n, result, after, hscript, hbefore⟩
    have hmem : (.request i (some n), some result) ∈ checkScript w.ignoring data start := by
      rw [hscript]
      simp
    rw [hscript, Script.outcome_append hbefore]
    rcases mem_checkScript hmem with ⟨r, i, hstep⟩ | ⟨r, hstep⟩ | ⟨r, j, hstep⟩ | hstep
    · have hsnd : (if _ then _ else _) = some result := (congrArg Prod.snd hstep).symm
      split at hsnd
      · exact hsnd.symm
      · cases hsnd
    · cases hstep
    · have hevent := (congrArg Prod.fst hstep).trans (handleStep_event r j)
      cases hevent
    · cases hstep

/-! ### The stages of main -/

variable {target : Target} {s : System (Machine σ)}

theorem firstFailure_cleanup (ret : Int32) :
    firstFailure w data ((cleanup target ret).run s).2 = firstFailure w data s := by
  rw [run_cleanup, firstFailure, firstFailure]
  simp only [List.filterMap_append, code_shutdown, List.append_nil]

theorem reachesShutdown_cleanup (h : Open s.actions) (ret : Int32) :
    ReachesShutdown target w data ((cleanup target ret).run s) ↔ firstFailure w data s = ret := by
  rw [ReachesShutdown, firstFailure_cleanup]
  exact shutsDown_cleanup_iff h

/-- The initialization has succeeded, and the end of `main` has not been reached. -/
structure Underway (actions : List Action) : Prop where
  isOpen : Open actions
  init : actions.filterMap (Action.code .init) = [0]
  deinit : actions.filterMap (Action.code .deinit) = []

theorem Underway.firstFailure (h : Underway s.actions) :
    firstFailure w data s = firstError (s.program.log.map (Event.failure w data)) := by
  rw [V1.firstFailure, h.init, h.deinit, List.append_nil, List.singleton_append, firstError_zero]

theorem underway_init (program program' : Machine σ) :
    Underway ((System.begun target program).lap target .init .init 0 program').actions where
  isOpen := by simp [Open, System.lap, System.begun]
  init := rfl
  deinit := rfl

theorem Underway.append {actions actions' : List Action} (h : Underway actions)
    (hopen : Open actions') (hinit : actions'.filterMap (Action.code .init) = [])
    (hdeinit : actions'.filterMap (Action.code .deinit) = []) : Underway (actions ++ actions') where
  isOpen := h.isOpen.append hopen
  init := by rw [List.filterMap_append, h.init, hinit, List.append_nil]
  deinit := by rw [List.filterMap_append, h.deinit, hdeinit, List.append_nil]

theorem Underway.run (h : Underway s.actions) (code : Int32) (program : Machine σ) :
    Underway (s.lap target .run .run code program).actions :=
  h.append (by simp [Open]) rfl rfl

theorem Underway.check (h : Underway s.actions) (code : Int32) :
    Underway (s.actions ++ [.returned .check code]) :=
  h.append (by simp [Open]) rfl rfl

/-- The last phase reaches the shutdown when nothing has failed before. -/
theorem reachesShutdown_deinit {backend : Backend} {m : Lifecycle σ} {numRuns fuel : Nat}
    {ret : Int32} (h : Underway s.actions)
    (hfirst : backend ≠ .emx → firstError (s.program.log.map (Event.failure w data)) = 0) :
    ReachesShutdown target w data
        ((mainDeinit target (backend.program m data numRuns ret fuel)).run s) ↔
      firstError (s.program.log.map (Event.failure w data)) = 0 := by
  obtain ⟨code, t, hdeinit, hlog, hcode⟩ := run_deinit backend m s.program
  have hfailure : firstFailure w data (s.lap target .deinit .deinit code t) =
      firstError (s.program.log.map (Event.failure w data) ++ [code]) := by
    simp only [firstFailure, System.lap, List.filterMap_append, h.init, h.deinit, hlog]
    exact firstError_zero _
  rw [run_mainDeinit hdeinit, reachesShutdown_cleanup (open_lap h.isOpen ..), hfailure]
  by_cases hzero : firstError (s.program.log.map (Event.failure w data)) = 0
  · rw [firstError_append_zero hzero, firstError_singleton]
    exact iff_of_true rfl hzero
  · rw [firstError_append_ne hzero, hcode (by_contra fun hne => hzero (hfirst hne))]

theorem failure_runs (w : Wrapper σ) (data : DataSet) (models : List (ModelState σ)) :
    (models.map Event.invoke).map (Event.failure w data) = invocationCodes w models := by
  rw [List.map_map]
  rfl

/-- The first failure of the run and a check that ends with a code. -/
theorem firstError_checked {backend : Backend} {models : List (ModelState σ)} {c : Int32}
    (hfirst : backend ≠ .emx → firstError (invocationCodes w models) = 0)
    (h : (checkScript (backend.wrapper w) data start).outcome = some (.done c)) :
    let script := checkScript (backend.wrapper w) data start
    let dropped := firstError (invocationCodes w
      (models ++ script.performed.filterMap Event.invoked))
    firstError ((models.map Event.invoke ++ script.performed).map (Event.failure w data)) =
      if backend = .emx ∧ dropped ≠ 0 then dropped else c := by
  intro script dropped
  rw [List.map_append, failure_runs]
  by_cases hbackend : backend = .emx
  · subst hbackend
    have hcheck := firstError_check_ignoring h
    dsimp only at hcheck
    by_cases hmodels : firstError (invocationCodes w models) = 0
    · rw [firstError_append_zero hmodels, show dropped = _ from
        (congrArg firstError (invocationCodes_append ..)).trans (firstError_append_zero hmodels _)]
      simp only [true_and]
      exact hcheck
    · rw [firstError_append_ne hmodels, show dropped = _ from
        (congrArg firstError (invocationCodes_append ..)).trans (firstError_append_ne hmodels _)]
      rw [if_pos ⟨rfl, hmodels⟩]
  · rw [if_neg fun hemx => hbackend hemx.1, firstError_append_zero (hfirst hbackend)]
    rw [Backend.wrapper, if_neg hbackend] at h
    have hcheck := firstError_check h
    rwa [show script = checkScript w data start by
      simp only [script, Backend.wrapper, if_neg hbackend]]

/-- A check that ends with a code reaches the shutdown when that is the code of the first
failure. -/
theorem reachesShutdown_checked {backend : Backend} {m : Lifecycle σ} {numRuns fuel : Nat}
    {ret : Int32} (h : Underway s.actions) {c : Int32} {t : Machine σ}
    (hcheck : (backend.program m data numRuns ret fuel).check.run s.program = (.done c, t))
    (hfirst : backend ≠ .emx → firstError (t.log.map (Event.failure w data)) = c) :
    ReachesShutdown target w data
        ((mainCheck target false (backend.program m data numRuns ret fuel) 0).run s) ↔
      firstError (t.log.map (Event.failure w data)) = c := by
  rw [run_mainCheck hcheck]
  by_cases hc : c = 0
  · subst hc
    rw [if_neg (not_not.mpr rfl)]
    exact reachesShutdown_deinit (h.check 0) hfirst
  · rw [if_pos hc, reachesShutdown_cleanup (h.check c).isOpen]
    exact iff_of_eq (congrArg (· = c) (h.check c).firstFailure)

/-- The check and what follows it reach the shutdown when it ends with a code, which is that of the
first failure. -/
theorem reachesShutdown_check {backend : Backend} {m : Lifecycle σ} {numRuns fuel : Nat}
    {ret : Int32} (h : Underway s.actions) (hfuel : data.inputs.length < fuel)
    (hin : s.program.inDone = 0) (hout : s.program.outDone = 0) {models : List (ModelState σ)}
    (hlog : s.program.log = models.map .invoke)
    (hfirst : backend ≠ .emx → firstError (invocationCodes m.toWrapper models) = 0) :
    let script := checkScript (backend.wrapper m.toWrapper) data s.program.model
    let dropped := firstError (invocationCodes m.toWrapper
      (models ++ script.performed.filterMap Event.invoked))
    ReachesShutdown target m.toWrapper data
        ((mainCheck target false (backend.program m data numRuns ret fuel) 0).run s) ↔
      ¬ StopsAtOutput script ∧
        (backend = .emx → dropped = 0 ∨ script.outcome = some (.done dropped)) := by
  intro script dropped
  obtain ⟨result, t, hrun, hresult, htlog⟩ :=
    @follows_checkLoop_start σ (backend.wrapper m.toWrapper) data fuel hfuel s.program hin hout
  rw [hlog] at htlog
  have hcheck : (backend.program m data numRuns ret fuel).check.run s.program = (result, t) :=
    (congrArg (fun p => Prog.run p s.program)
      (backend.mlonmcuCheck_wrapper m.toWrapper data fuel)).trans hrun
  by_cases hdone : ∃ c, result = .done c
  · obtain ⟨c, rfl⟩ := hdone
    have hfailure := firstError_checked hfirst hresult
    dsimp only at hfailure
    rw [← htlog] at hfailure
    have hstop : ¬ StopsAtOutput script := fun hstop => (stopsAtOutput_iff hresult).mp hstop c rfl
    have hfirst' (hbackend : backend ≠ .emx) :
        firstError (t.log.map (Event.failure m.toWrapper data)) = c := by
      rw [hfailure, if_neg fun hemx => hbackend hemx.1]
    rw [reachesShutdown_checked h hcheck hfirst', hfailure, iff_true_intro hstop, true_and]
    by_cases hdropped : backend = .emx ∧ dropped ≠ 0
    · rw [if_pos hdropped]
      constructor
      · rintro rfl -
        exact .inr hresult
      · intro hcode
        have hsame := (hcode hdropped.1).resolve_left hdropped.2
        rw [hresult] at hsame
        cases hsame
        rfl
    · rw [if_neg hdropped]
      exact iff_of_true rfl fun hemx => .inl (not_not.mp fun hne => hdropped ⟨hemx, hne⟩)
  · have hne : ∀ code, result ≠ .done code := fun code hcode => hdone ⟨code, hcode⟩
    rw [run_mainCheck_stop hcheck hne]
    exact iff_of_false (not_shutsDown h.isOpen.1 _)
      fun horderly => horderly.1 ((stopsAtOutput_iff hresult).mpr hne)

theorem Backend.run_mlonmcuRun {backend : Backend} {numRuns : Nat} {ret : Int32}
    (h : numRuns = 0 → backend = .tflm ∨ backend = .executorch → ret = 0) (w : Wrapper σ)
    (model : ModelState σ) :
    let expected := expectedRun (backend.wrapper w) (backend.invocations numRuns) model
    ∃ t, (backend.mlonmcuRun w numRuns ret).run (.initial model) = (.done expected.1, t) ∧
      t.log = expected.2.map .invoke ∧ t.inDone = 0 ∧ t.outDone = 0 ∧
      (expected.1 = 0 → t.model = ran w (backend.invocations numRuns) model) := by
  obtain ⟨t, hrun, hlog, hin, hout, hmodel⟩ :=
    @runLoop_expected σ (backend.wrapper w) (backend.invocations numRuns) (.initial model)
  rw [backend.ran_wrapper] at hmodel
  exact ⟨t, (Backend.mlonmcuRun_eq h w _).trans hrun, hlog, hin, hout, hmodel⟩

theorem not_reachesShutdown_uninitialized {skipCheck : Bool} {backend : Backend} {m : Lifecycle σ}
    {fuel : Nat} {ret : Int32} {model : ModelState σ} (h : Underway s.actions)
    (hs : s.program = .initial model) (hbackend : backend = .tflm ∨ backend = .executorch)
    (hret : ret ≠ 0) : ¬ ReachesShutdown target w data
      ((mainRun target skipCheck (backend.program m data 0 ret fuel)).run s) := by
  have hrun : (backend.program m data 0 ret fuel).run.run s.program =
      (.done ret, .initial model) := by
    rcases hbackend with rfl | rfl <;> rw [hs] <;> rfl
  rw [run_mainRun hrun, if_pos hret, reachesShutdown_cleanup (h.run ret _).isOpen,
    (h.run ret _).firstFailure]
  exact fun hsame => hret hsame.symm

/-- After a run without a failure that the backend sees, the rest of `main` reaches the shutdown
when the program is orderly. -/
theorem reachesShutdown_rest {skipCheck : Bool} {backend : Backend} {m : Lifecycle σ}
    {numRuns fuel : Nat} {ret : Int32} {model : ModelState σ} (h : Underway s.actions)
    (hfuel : data.inputs.length < fuel)
    (hret : numRuns = 0 → backend = .tflm ∨ backend = .executorch → ret = 0)
    (hcode : (expectedRun (backend.wrapper m.toWrapper) (backend.invocations numRuns) model).1 = 0)
    (hmodel : s.program.model = ran m.toWrapper (backend.invocations numRuns) model)
    (hin : s.program.inDone = 0) (hout : s.program.outDone = 0)
    (hlog : s.program.log = (expectedRun (backend.wrapper m.toWrapper)
      (backend.invocations numRuns) model).2.map .invoke) :
    ReachesShutdown target m.toWrapper data
        ((mainCheck target skipCheck (backend.program m data numRuns ret fuel) 0).run s) ↔
      Orderly skipCheck backend m.toWrapper data numRuns ret model := by
  have hcodes (hbackend : backend ≠ .emx) :=
    (Backend.run_code hbackend m.toWrapper (backend.invocations numRuns) model).trans hcode
  cases skipCheck with
  | true =>
    have hmodels := failure_runs m.toWrapper data
      (expectedRun (backend.wrapper m.toWrapper) (backend.invocations numRuns) model).2
    rw [← hlog] at hmodels
    rw [run_mainCheck_skip, reachesShutdown_deinit h (by rwa [hmodels]), hmodels]
    constructor
    · intro hzero
      refine ⟨hret, fun hskip => absurd hskip (by decide), ?_⟩
      rintro rfl
      exact .inl hzero
    · intro horderly
      by_cases hbackend : backend = .emx
      · subst hbackend
        exact (horderly.codes rfl).resolve_right fun hcheck => absurd hcheck.1 (by decide)
      · exact hcodes hbackend
  | false =>
    have hcheck := @reachesShutdown_check σ data target s backend m numRuns fuel ret h hfuel
      hin hout _ hlog hcodes
    dsimp only at hcheck
    rw [hcheck, hmodel]
    constructor
    · rintro ⟨hstop, hdropped⟩
      refine ⟨hret, fun _ _ => hstop, ?_⟩
      rintro rfl
      exact (or_congr_right' outcome_ignoring_iff).mp (hdropped rfl) |>.imp_right
        fun hsame => ⟨rfl, hsame⟩
    · intro horderly
      refine ⟨horderly.outputs rfl hcode, ?_⟩
      rintro rfl
      exact (or_congr_right' outcome_ignoring_iff).mpr ((horderly.codes rfl).imp_right And.right)

/-- The phase `RUN` and what follows it reach the shutdown when the program is orderly. -/
theorem reachesShutdown_run {skipCheck : Bool} {backend : Backend} {m : Lifecycle σ}
    {numRuns fuel : Nat} {ret : Int32} {model : ModelState σ} (h : Underway s.actions)
    (hfuel : data.inputs.length < fuel) (hs : s.program = .initial model) :
    ReachesShutdown target m.toWrapper data
        ((mainRun target skipCheck (backend.program m data numRuns ret fuel)).run s) ↔
      Orderly skipCheck backend m.toWrapper data numRuns ret model := by
  by_cases hret : numRuns = 0 → backend = .tflm ∨ backend = .executorch → ret = 0
  · obtain ⟨t, hrun, hlog, hin, hout, hmodel⟩ := Backend.run_mlonmcuRun hret m.toWrapper model
    have hrun : (backend.program m data numRuns ret fuel).run.run s.program = _ := hs ▸ hrun
    have hlap := @Underway.run σ target s h
      (expectedRun (backend.wrapper m.toWrapper) (backend.invocations numRuns) model).1 t
    rw [run_mainRun hrun]
    by_cases hcode : (expectedRun (backend.wrapper m.toWrapper)
        (backend.invocations numRuns) model).1 = 0
    · rw [hcode] at hlap ⊢
      rw [if_neg (not_not.mpr rfl)]
      exact reachesShutdown_rest hlap hfuel hret hcode (hmodel hcode) hin hout hlog
    · have hbackend : backend ≠ .emx := by
        rintro rfl
        exact hcode (expectedRun_ignoring m.toWrapper _ model)
      have hfirst := Backend.run_code hbackend m.toWrapper (backend.invocations numRuns) model
      rw [← failure_runs m.toWrapper data, ← hlog] at hfirst
      rw [if_pos hcode, reachesShutdown_cleanup hlap.isOpen, hlap.firstFailure]
      exact iff_of_true hfirst
        ⟨hret, fun _ hzero => absurd hzero hcode, fun hemx => absurd hemx hbackend⟩
  · obtain ⟨rfl, hbackend, hne⟩ : numRuns = 0 ∧ (backend = .tflm ∨ backend = .executorch) ∧
        ret ≠ 0 := by
      simpa only [Classical.not_imp] using hret
    exact iff_of_false (not_reachesShutdown_uninitialized h hs hbackend hne)
      fun horderly => hret horderly.initialized

end

/-- A program ends orderly in all its runs exactly when the model cannot be set up, or when nothing
of what makes a backend leave the protocol happens. -/
theorem endsOrderly_iff (target : Target) (skipCheck : Bool) (backend : Backend) (m : Lifecycle σ)
    (data : DataSet) (numRuns : Nat) (ret : Int32) (start : ModelState σ) :
    EndsOrderly target skipCheck backend m data numRuns ret start ↔
      (m.init start).1 ≠ 0 ∨
        Orderly skipCheck backend m.toWrapper data numRuns ret (m.init start).2 := by
  have hinit (fuel : Nat) : (backend.program m data numRuns ret fuel).init.run (.initial start) =
      (.done (m.init start).1, .initial (m.init start).2) := rfl
  have hrun (fuel : Nat) (hfuel : data.inputs.length < fuel) :
      ReachesShutdown target m.toWrapper data
        ((main target skipCheck (backend.program m data numRuns ret fuel)).run
          (.initial (.initial start))) ↔ (m.init start).1 ≠ 0 ∨
        Orderly skipCheck backend m.toWrapper data numRuns ret (m.init start).2 := by
    rw [run_main_init (hinit fuel)]
    by_cases hcode : (m.init start).1 = 0
    · have hunderway := @underway_init σ target (.initial start) (.initial (m.init start).2)
      rw [hcode, if_neg (not_not.mpr rfl), reachesShutdown_run hunderway hfuel rfl]
      simp
    · rw [if_pos hcode, reachesShutdown_cleanup (open_lap (by simp [Open, System.begun]) ..)]
      exact iff_of_true (firstError_singleton _) (.inl hcode)
  constructor
  · intro hends
    exact (hrun _ (Nat.lt_succ_self _)).mp (hends _ (Nat.lt_succ_self _))
  · intro horderly fuel hfuel
    exact (hrun fuel hfuel).mpr horderly

def copierLifecycle : Lifecycle Unit where
  toWrapper := copier 1 1 1
  init model := (0, model)
  deinit model := (0, model)

/-- A target without counters. -/
def plainTarget : Target where
  has _ := false
  clock _ _ := 0
  conversion value := decimal value.toNat
  exits := true

/-- An output that differs from the expected one ends the process. -/
theorem not_endsOrderly_differing : ¬ EndsOrderly plainTarget false .tvm copierLifecycle
    ⟨[[7]], [[8]], by decide, by decide⟩ 1 0 blank := by
  intro hends
  refine not_shutsDown ?_ _ (hends 2 (by decide))
  decide

end Mlonmcu.V1
