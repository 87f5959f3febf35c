import Mlonmcu.V1.Check

/-! The five backends of the first interface version side by side.  Four of them drive a model in
the same way, and EMX does not. -/

namespace Mlonmcu.V1

open CLib

variable {σ : Type}

/-- The code of a run and the models that its invocations see: it ends with the first error, or
after `n` invocations. -/
def expectedRun (w : Wrapper σ) : Nat → ModelState σ → Int32 × List (ModelState σ)
  | 0, _ => (0, [])
  | n + 1, model =>
    let (code, next) := w.invoke model
    if code ≠ 0 then (code, [model])
    else
      let (ret, models) := expectedRun w n next
      (ret, model :: models)

/-- The model after `n` invocations, whatever their codes. -/
def ran (w : Wrapper σ) : Nat → ModelState σ → ModelState σ
  | 0, model => model
  | n + 1, model => ran w n (w.invoke model).2

/-- The backends drive a model identically. -/
structure BackendsAgree (w : Wrapper σ) (data : DataSet) (start : ModelState σ) (numRuns : Nat) :
    Prop where
  runs : ∀ (backend : Backend) (ret : Int32),
    let run := (backend.mlonmcuRun w numRuns ret).run (.initial start)
    run.1 = .done (expectedRun w numRuns start).1 ∧
      run.2.log = (expectedRun w numRuns start).2.map .invoke
  checks : ∀ (backend backend' : Backend) (fuel : Nat),
    let run := (backend.mlonmcuCheck w data fuel).run (.initial start)
    let run' := (backend'.mlonmcuCheck w data fuel).run (.initial start)
    run.1 = run'.1 ∧ run.2.log = run'.2.log
  propagates : ∀ (backend : Backend) (fuel : Nat) before model later,
    let run := (backend.mlonmcuCheck w data fuel).run (.initial start)
    run.2.log = before ++ .invoke model :: later → (w.invoke model).1 ≠ 0 →
      later = [] ∧ run.1 = .done (w.invoke model).1

variable {w : Wrapper σ}

/-! ### The runs -/

theorem length_expectedRun_le (n : Nat) (model : ModelState σ) :
    (expectedRun w n model).2.length ≤ n := by
  induction n generalizing model with
  | zero => exact Nat.le_refl 0
  | succ n ih =>
    rw [expectedRun]
    dsimp only
    split
    · exact Nat.succ_le_succ (Nat.zero_le n)
    · exact Nat.succ_le_succ (ih _)

theorem runLoop_expected (n : Nat) (s : Machine σ) : ∃ t,
    (runLoop w n).run s = (.done (expectedRun w n s.model).1, t) ∧
      t.log = s.log ++ (expectedRun w n s.model).2.map .invoke ∧
      t.inDone = s.inDone ∧ t.outDone = s.outDone ∧
      ((expectedRun w n s.model).1 = 0 → t.model = ran w n s.model) := by
  induction n generalizing s with
  | zero => exact ⟨s, rfl, by simp [expectedRun], rfl, rfl, fun _ => rfl⟩
  | succ n ih =>
    rw [runLoop, Prog.bind_done (run_invoke s), expectedRun]
    dsimp only
    by_cases hcode : (w.invoke s.model).1 ≠ 0
    · rw [if_pos hcode, if_pos hcode]
      exact ⟨_, rfl, rfl, rfl, rfl, fun hzero => absurd hzero hcode⟩
    · rw [if_neg hcode, if_neg hcode]
      obtain ⟨t, hrun, hlog, hin, hout, hmodel⟩ := ih { s with
        model := (w.invoke s.model).2
        log := s.log ++ [.invoke s.model] }
      refine ⟨t, hrun, ?_, hin, hout, hmodel⟩
      rw [hlog, List.append_assoc]
      rfl

theorem runLoopRet_eq (n : Nat) (s : Machine σ) :
    (runLoopRet w n 0).run s = (runLoop w n).run s := by
  induction n generalizing s with
  | zero => rfl
  | succ n ih =>
    rw [runLoopRet, runLoop, Prog.bind_done (run_invoke s), Prog.bind_done (run_invoke s)]
    by_cases hcode : (w.invoke s.model).1 ≠ 0
    · rw [if_pos hcode, if_pos hcode]
    · rw [if_neg hcode, if_neg hcode, not_not.mp hcode, ih]

theorem runLoopRet_succ (n : Nat) (ret : Int32) :
    runLoopRet w (n + 1) ret = runLoopRet w (n + 1) 0 :=
  rfl

/-- Four backends run a model as expected. -/
theorem mlonmcuRun_expected {backend : Backend} (hbackend : backend ≠ .emx) {numRuns : Nat}
    (h : 0 < numRuns) (ret : Int32) (s : Machine σ) : ∃ t,
    (backend.mlonmcuRun w numRuns ret).run s = (.done (expectedRun w numRuns s.model).1, t) ∧
      t.log = s.log ++ (expectedRun w numRuns s.model).2.map .invoke := by
  obtain ⟨n, rfl⟩ : ∃ n, numRuns = n + 1 := ⟨numRuns - 1, by omega⟩
  have hret : (runLoopRet w (n + 1) ret).run s = (runLoop w (n + 1)).run s := by
    rw [runLoopRet_succ, runLoopRet_eq]
  obtain ⟨t, hrun, hlog, -⟩ := runLoop_expected (w := w) (n + 1) s
  cases backend with
  | tvm => exact ⟨t, hrun, hlog⟩
  | iree => exact ⟨t, hrun, hlog⟩
  | tflm => exact ⟨t, hret.trans hrun, hlog⟩
  | executorch => exact ⟨t, hret.trans hrun, hlog⟩
  | emx => exact absurd rfl hbackend

/-- EMX invokes the model twice in each round, and returns 0. -/
theorem emx_runLoop (n : Nat) (s : Machine σ) : ∃ t,
    (Emx.runLoop w n).run s = (.done 0, t) ∧ t.log.length = s.log.length + 2 * n := by
  induction n generalizing s with
  | zero => exact ⟨s, rfl, rfl⟩
  | succ n ih =>
    rw [Emx.runLoop, Prog.bind_done (run_invoke s), Prog.bind_done (run_invoke _)]
    obtain ⟨t, hrun, hlog⟩ := ih { s with
      model := (w.invoke (w.invoke s.model).2).2
      log := s.log ++ [.invoke s.model] ++ [.invoke (w.invoke s.model).2] }
    refine ⟨t, hrun, ?_⟩
    rw [hlog]
    simp only [List.length_append, List.length_singleton]
    omega

/-! ### The checks -/

/-- The model with all its codes replaced by 0. -/
def Wrapper.ignoring (w : Wrapper σ) : Wrapper σ :=
  { w with invoke := fun model => (0, (w.invoke model).2) }

theorem ignoring_handleLoop (data : DataSet) (n i : Nat) :
    handleLoop w.ignoring data n i = handleLoop w data n i := by
  induction n generalizing i with
  | zero => rfl
  | succ n ih =>
    rw [handleLoop, handleLoop]
    simp only [ih]
    rfl

theorem ignoring_run (next : Prog (Machine σ) Int32) :
    (w.ignoring.run >>= fun ret => if ret ≠ 0 then pure ret else next) = w.run >>= fun _ => next :=
  rfl

/-- The check of EMX is the check of the other backends for a model that does not fail. -/
theorem emx_checkLoop (data : DataSet) (fuel i : Nat) :
    Emx.checkLoop w data fuel i = checkLoop w.ignoring data fuel i := by
  induction fuel generalizing i with
  | zero => rfl
  | succ fuel ih =>
    rw [Emx.checkLoop, checkLoop]
    congr 1
    funext request
    obtain ⟨ret, new⟩ := request
    rw [ih, ih, ignoring_handleLoop, ignoring_run]
    rfl

/-! ### All backends -/

/-- The backends never agree: in a run EMX makes more invocations than the model should see. -/
theorem not_backendsAgree (w : Wrapper σ) (data : DataSet) (start : ModelState σ) {numRuns : Nat}
    (h : 0 < numRuns) : ¬ BackendsAgree w data start numRuns := by
  intro hagree
  obtain ⟨t, hrun, hlength⟩ := emx_runLoop (w := w) numRuns (.initial start)
  have hlog := (hagree.runs .emx 0).2
  have hlog : t.log = (expectedRun w numRuns start).2.map .invoke := by
    rw [show (Backend.emx.mlonmcuRun w numRuns 0).run (.initial start) = (.done 0, t) from hrun]
      at hlog
    exact hlog
  have hle := length_expectedRun_le (w := w) numRuns start
  rw [hlog, List.length_map] at hlength
  simp only [Machine.initial, List.length_nil] at hlength
  omega

theorem not_backendsAgree_copier :
    ¬ BackendsAgree (copier 1 1 1) ⟨[[7]], [[7]], by decide, by decide⟩ blank 1 :=
  not_backendsAgree _ _ _ Nat.one_pos

def failing : Wrapper Unit := { copier 1 1 1 with invoke := fun model => (7, model) }

theorem not_backendsAgree_failing :
    let run := (Backend.emx.mlonmcuRun failing 1 0).run (.initial blank)
    run.1 = .done 0 ∧ run.2.log.length = 2 ∧ (expectedRun failing 1 blank).1 = 7 ∧
      ¬ BackendsAgree failing ⟨[], [], by decide, by decide⟩ blank 1 := by
  refine ⟨rfl, rfl, rfl, fun hagree => ?_⟩
  have hret := (hagree.runs .emx 0).1
  exact absurd hret (by decide)

end Mlonmcu.V1
