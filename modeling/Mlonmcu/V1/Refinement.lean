import Mlonmcu.V1.Batches
import Mlonmcu.V1.Driver

/-! The check loop of the first interface version follows the batch specification. -/

namespace Mlonmcu.V1

open CLib

variable {σ : Type} {w : Wrapper σ} {data : DataSet} {start : ModelState σ}

/-! ### The hooks -/

theorem run_record (event : Event σ) (s : Machine σ) :
    (record event).run s = (.done (), { s with log := s.log ++ [event] }) := rfl

theorem run_requestInput_none {s : Machine σ} (h : s.inDone = data.inputs.length) (i size : Nat) :
    (mlifRequestInput data i size).run s =
      (.done (0, false), { s with log := s.log ++ [.request i none] }) := by
  simp only [mlifRequestInput, Prog.run_get_bind, if_pos h]
  rw [Prog.bind_done (run_record _ _)]
  rfl

/-- A request for the next buffer: its size is checked before it is copied, and it counts in both
cases. -/
theorem run_requestInput_some {s : Machine σ} {n : Nat} (hn : s.inDone = n)
    (hlt : n < data.inputs.length) (i size : Nat) :
    let buffer := data.inputs.getD n []
    let log := s.log ++ [.request i (some n)]
    (mlifRequestInput data i size).run s =
      if buffer.length ≠ 0 ∧ buffer.length ≠ size then
        (.done (exitMlifInvalidSize, true), { s with inDone := n + 1, log := log })
      else
        (.done (0, true), { s with
          model := s.model.copy i buffer
          inDone := n + 1
          log := log }) := by
  intro buffer log
  have hget : data.inputs[n]? = some buffer := by
    simp [buffer, hlt]
  have hmax : n < Prog.intMax := Nat.lt_of_lt_of_le hlt data.inputs_length
  simp only [mlifRequestInput, Prog.run_get_bind, hn, Nat.ne_of_lt hlt, ↓reduceIte, hget]
  rw [Prog.bind_done (run_record _ _)]
  unfold mlifProcessInput
  split
  · rw [Prog.run_pure_bind, Prog.bind_done (Prog.run_increment hmax _)]
    rfl
  · rw [Prog.bind_done (Prog.bind_done (Prog.run_modify _ _)),
      Prog.bind_done (Prog.run_increment hmax _)]
    rfl

theorem run_invoke (s : Machine σ) : w.run.run s = (.done (w.invoke s.model).1, { s with
    model := (w.invoke s.model).2
    log := s.log ++ [.invoke s.model] }) := rfl

theorem run_handleResult_unchecked (h : data.outputs.length = 0) (i size : Nat) (s : Machine σ) :
    (mlifHandleResult data i size).run s = (.done 0, { s with
      log := s.log ++ [.handle i ((s.model.outputs i).load size) none] }) := by
  simp only [mlifHandleResult, Prog.run_get_bind, if_pos h]
  rw [Prog.bind_done (run_record _ _)]
  rfl

theorem run_handleResult_compared {s : Machine σ} {n : Nat} (hn : s.outDone = n)
    (hlt : n < data.outputs.length) (i size : Nat) :
    let contents := (s.model.outputs i).load size
    let expected := data.outputs.getD n []
    let log := s.log ++ [.handle i contents (some n)]
    (mlifHandleResult data i size).run s =
      if size = expected.length ∧ contents = expected then
        (.done 0, { s with outDone := n + 1, log := log })
      else (.exited exitMlifMissmatch, { s with log := log }) := by
  intro contents expected log
  have hget : data.outputs[n]? = some expected := by
    rw [List.getElem?_eq_getElem hlt]
    simp [expected, hlt]
  have hmax : n < Prog.intMax := Nat.lt_of_lt_of_le hlt data.outputs_length
  have hne : data.outputs.length ≠ 0 := by omega
  subst hn
  simp only [mlifHandleResult, Prog.run_get_bind, if_neg hne, if_pos hlt, hget]
  rw [Prog.bind_done (run_record _ _)]
  split
  next heq =>
    have hout : (mlifProcessOutput i size expected).run { s with log := log } =
        (.done 0, { s with log := log }) := by
      simp only [mlifProcessOutput, Prog.run_get_bind]
      rw [if_pos heq, Prog.run_pure]
    rw [Prog.bind_done hout, Prog.bind_done (Prog.run_increment hmax _)]
    rfl
  next hwrong =>
    have hout : (mlifProcessOutput i size expected).run { s with log := log } =
        (.exited exitMlifMissmatch, { s with log := log }) := by
      simp only [mlifProcessOutput, Prog.run_get_bind]
      rw [if_neg hwrong, Prog.run_exit]
    rw [Prog.bind_exited hout]

/-- An output after the expected ones is only counted. -/
theorem run_handleResult_past {s : Machine σ} {n : Nat} (hn : s.outDone = n)
    (hne : data.outputs.length ≠ 0) (hle : data.outputs.length ≤ n) (i size : Nat) :
    let log := s.log ++ [.handle i ((s.model.outputs i).load size) none]
    (mlifHandleResult data i size).run s =
      if Prog.intMax ≤ n then (.fault .signedOverflow, { s with log := log })
      else (.done 0, { s with outDone := n + 1, log := log }) := by
  intro log
  subst hn
  simp only [mlifHandleResult, Prog.run_get_bind, if_neg hne, if_neg (Nat.not_lt.mpr hle)]
  rw [Prog.bind_done (run_record _ _), Prog.run_pure_bind]
  split
  next hmax => rw [Prog.bind_fault (Prog.run_increment_overflow hmax _)]
  next hmax =>
    rw [Prog.bind_done (Prog.run_increment (Nat.not_le.mp hmax) _)]
    rfl

/-- The counter of the outputs, which counts when there are expected buffers. -/
def CountsOutputs (data : DataSet) (n : Nat) (s : Machine σ) : Prop :=
  data.outputs.length ≠ 0 → s.outDone = n

theorem run_handleResult {s : Machine σ} {r j : Nat} (hmodel : s.model = after w data start (r + 1))
    (hcount : CountsOutputs data (r * w.numOutputs + j) s) : ∃ s',
      (mlifHandleResult data j (w.outputSize j)).run s =
        ((handleStep w data start r j).2.getD (.done 0), s') ∧
      s'.log = s.log ++ [(handleStep w data start r j).1] ∧ s'.model = s.model ∧
      s'.inDone = s.inDone ∧ ((handleStep w data start r j).2 = none →
        CountsOutputs data (r * w.numOutputs + j + 1) s') := by
  have hcontents : (s.model.outputs j).load (w.outputSize j) = contents w data start r j := by
    rw [hmodel]
    rfl
  unfold handleStep
  by_cases hzero : data.outputs.length = 0
  · have hrun := run_handleResult_unchecked hzero j (w.outputSize j) s
    rw [if_neg (by omega), if_neg (by omega), ← hcontents]
    exact ⟨_, hrun, rfl, rfl, rfl, fun _ hne => absurd hzero hne⟩
  have hn := hcount hzero
  by_cases hlt : r * w.numOutputs + j < data.outputs.length
  · have hrun := run_handleResult_compared hn hlt j (w.outputSize j)
    rw [hcontents] at hrun
    rw [if_pos hlt]
    dsimp only at hrun ⊢
    by_cases heq : w.outputSize j = (data.outputs.getD (r * w.numOutputs + j) []).length ∧
        contents w data start r j = data.outputs.getD (r * w.numOutputs + j) []
    · rw [if_pos heq] at hrun ⊢
      exact ⟨_, hrun, rfl, rfl, rfl, fun _ _ => rfl⟩
    · rw [if_neg heq] at hrun ⊢
      exact ⟨_, hrun, rfl, rfl, rfl, fun h => absurd h (by simp)⟩
  · have hrun := run_handleResult_past hn hzero (Nat.not_lt.mp hlt) j (w.outputSize j)
    rw [hcontents] at hrun
    rw [if_neg hlt]
    dsimp only at hrun ⊢
    by_cases hmax : Prog.intMax ≤ r * w.numOutputs + j
    · rw [if_pos hmax] at hrun
      rw [if_pos ⟨hzero, hmax⟩]
      exact ⟨_, hrun, rfl, rfl, rfl, fun h => absurd h (by simp)⟩
    · rw [if_neg hmax] at hrun
      rw [if_neg fun h => hmax h.2]
      exact ⟨_, hrun, rfl, rfl, rfl, fun _ _ => rfl⟩

theorem handleStep_ne_done {r j : Nat} {result : Result Int32}
    (h : (handleStep w data start r j).2 = some result) (ret : Int32) : result ≠ .done ret := by
  rintro rfl
  simp only [handleStep] at h
  split at h <;> dsimp only at h <;> split at h <;> simp at h

/-! ### The loops -/

theorem follows_handleLoop {next : Prog (Machine σ) Int32}
    {rest : Script (Event σ) (Result Int32)} {r inDone : Nat}
    (hnext : ∀ s : Machine σ, s.model = after w data start (r + 1) → s.inDone = inDone →
      CountsOutputs data ((r + 1) * w.numOutputs) s → Follows Machine.log next s rest)
    {n j : Nat} (hj : j + n = w.numOutputs) {s : Machine σ}
    (hmodel : s.model = after w data start (r + 1)) (hin : s.inDone = inDone)
    (hcount : CountsOutputs data (r * w.numOutputs + j) s) :
    Follows Machine.log
      (handleLoop w data n j >>= fun ret => if ret ≠ 0 then pure ret else next) s
      ((List.range' j n).map (handleStep w data start r) ++ rest) := by
  induction n generalizing j s with
  | zero =>
    have hskip : (handleLoop w data 0 j >>= fun ret => if ret ≠ 0 then pure ret else next).run s =
        next.run s := rfl
    have hall : r * w.numOutputs + j = (r + 1) * w.numOutputs := by
      rw [Nat.succ_mul]
      omega
    rw [hall] at hcount
    obtain ⟨result, t, hrun, hrest⟩ := hnext s hmodel hin hcount
    exact ⟨result, t, hskip.trans hrun, hrest⟩
  | succ n ih =>
    obtain ⟨s', hrun, hlog, hmodel', hin', hcount'⟩ := run_handleResult hmodel hcount
    rw [List.range'_succ, List.map_cons, List.cons_append]
    cases hstop : (handleStep w data start r j).2 with
    | some result =>
      rw [hstop, Option.getD_some] at hrun
      have hne := handleStep_ne_done hstop
      rw [← Prod.mk.eta (p := handleStep w data start r j), hstop]
      exact Follows.stop (Prog.bind_stop (Prog.bind_stop hrun hne) hne) hlog
    | none =>
      rw [hstop, Option.getD_none] at hrun
      rw [← Prod.mk.eta (p := handleStep w data start r j), hstop]
      refine Follows.next ?_ hlog (ih (by omega) (hmodel'.trans hmodel) (hin'.trans hin)
        (hcount' hstop))
      rw [handleLoop, Prog.run_bind_assoc, Prog.bind_done hrun]
      rfl

theorem follows_invoke {next : Prog (Machine σ) Int32}
    {rest : Script (Event σ) (Result Int32)} {r inDone : Nat}
    (hnext : ∀ s : Machine σ, s.model = after w data start (r + 1) → s.inDone = inDone →
      CountsOutputs data ((r + 1) * w.numOutputs) s → Follows Machine.log next s rest)
    {s : Machine σ} (hmodel : s.model = seen w data start r) (hin : s.inDone = inDone)
    (hcount : CountsOutputs data (r * w.numOutputs) s) :
    Follows Machine.log
      (w.run >>= fun ret =>
        if ret ≠ 0 then pure ret
        else handleLoop w data w.numOutputs 0 >>= fun ret => if ret ≠ 0 then pure ret else next) s
      (invokeStep w data start r ::
        (List.range w.numOutputs).map (handleStep w data start r) ++ rest) := by
  let s' : Machine σ := { s with
    model := after w data start (r + 1)
    log := s.log ++ [Event.invoke (seen w data start r)] }
  have hrun : w.run.run s = (.done (code w data start r), s') := by
    have hinvoke := run_invoke (w := w) s
    rw [hmodel] at hinvoke
    exact hinvoke
  rw [invokeStep, List.cons_append]
  by_cases hcode : code w data start r ≠ 0
  · rw [if_pos hcode]
    have hstop := Prog.bind_done (f := fun ret =>
      if ret ≠ 0 then pure ret
      else handleLoop w data w.numOutputs 0 >>= fun ret =>
        if ret ≠ 0 then pure ret else next) hrun
    rw [if_pos hcode] at hstop
    exact Follows.stop hstop rfl
  · rw [if_neg hcode, List.range_eq_range']
    have hrest := @follows_handleLoop σ w data start next rest r inDone hnext w.numOutputs 0
      (by omega) s' rfl hin hcount
    refine Follows.next ?_ rfl hrest
    rw [Prog.bind_done hrun, if_neg hcode]

theorem copy_fill (r i : Nat) (model : ModelState σ) :
    (fill w data r i model).copy i (data.inputs.getD (r * w.numInputs + i) []) =
      fill w data r (i + 1) model := by
  have hinputs : ((fill w data r i model).copy i
      (data.inputs.getD (r * w.numInputs + i) [])).inputs =
      (fill w data r (i + 1) model).inputs := by
    funext a
    by_cases heq : a = i
    · subst heq
      simp [fill, ModelState.copy]
    · have hlt : a < i + 1 ↔ a < i := by omega
      simp only [fill, ModelState.copy, Function.update_of_ne heq, hlt]
  exact congrArg (fun inputs => { model with inputs }) hinputs

theorem fill_zero (r : Nat) (model : ModelState σ) : fill w data r 0 model = model := by
  simp [fill]

theorem run_checkLoop_none {s : Machine σ} (h : s.inDone = data.inputs.length) (fuel i : Nat) :
    (checkLoop w data (fuel + 1) i).run s =
      (.done 0, { s with log := s.log ++ [.request i none] }) := by
  rw [checkLoop, Prog.bind_done (run_requestInput_none h i (w.inputSize i))]
  rfl

/-- A round of the loop with a buffer, whose size is checked before the loop goes on. -/
theorem run_checkLoop_some {s : Machine σ} {n : Nat} (hn : s.inDone = n)
    (hlt : n < data.inputs.length) (fuel i : Nat) :
    let buffer := data.inputs.getD n []
    let s' : Machine σ := { s with inDone := n + 1, log := s.log ++ [.request i (some n)] }
    (checkLoop w data (fuel + 1) i).run s =
      if buffer.length ≠ 0 ∧ buffer.length ≠ w.inputSize i then (.done exitMlifInvalidSize, s')
      else
        (if i + 1 = w.numInputs then
          w.run >>= fun ret =>
            if ret ≠ 0 then pure ret
            else handleLoop w data w.numOutputs 0 >>= fun ret =>
              if ret ≠ 0 then pure ret else checkLoop w data fuel 0
        else checkLoop w data fuel (i + 1)).run { s' with model := s.model.copy i buffer } := by
  have hrun := run_requestInput_some hn hlt i (w.inputSize i)
  dsimp only at hrun ⊢
  split
  next hsize =>
    rw [if_pos hsize] at hrun
    rw [checkLoop, Prog.bind_done hrun]
    rfl
  next hsize =>
    rw [if_neg hsize] at hrun
    rw [checkLoop, Prog.bind_done hrun]
    rfl

/-- The loop from the input `i` of batch `r` on follows the steps from there on. -/
theorem follows_checkLoop {n r i fuel : Nat} (hfuel : n < fuel)
    (hi : w.numInputs = 0 ∨ i < w.numInputs)
    (hn : r * w.numInputs + i + n = data.inputs.length) {s : Machine σ}
    (hmodel : s.model = fill w data r i (after w data start r))
    (hin : s.inDone = r * w.numInputs + i) (hcount : CountsOutputs data (r * w.numOutputs) s) :
    Follows Machine.log (checkLoop w data fuel i) s (suffix w data start r i n) := by
  obtain ⟨fuel, rfl⟩ : ∃ f, fuel = f + 1 := ⟨fuel - 1, by omega⟩
  induction n generalizing r i fuel s with
  | zero => exact Follows.stop (run_checkLoop_none (by omega) fuel i) rfl
  | succ n ih =>
    obtain ⟨fuel, rfl⟩ : ∃ f, fuel = f + 1 := ⟨fuel - 1, by omega⟩
    have hlt : r * w.numInputs + i < data.inputs.length := by omega
    have hrun := run_checkLoop_some (w := w) hin hlt (fuel + 1) i
    dsimp only at hrun
    rw [suffix, requestStep]
    by_cases hsize : (data.inputs.getD (r * w.numInputs + i) []).length ≠ 0 ∧
        (data.inputs.getD (r * w.numInputs + i) []).length ≠ w.inputSize i
    · rw [if_pos hsize] at hrun ⊢
      exact Follows.stop hrun rfl
    rw [if_neg hsize] at hrun ⊢
    rw [hmodel, copy_fill] at hrun
    by_cases hlast : i + 1 = w.numInputs
    · rw [if_pos hlast, hlast] at hrun
      rw [if_pos hlast]
      have hbatch : (r + 1) * w.numInputs = r * w.numInputs + i + 1 := by
        rw [Nat.succ_mul]
        omega
      refine Follows.next hrun rfl (follows_invoke ?_ rfl rfl hcount)
      intro s' hmodel' hin' hcount'
      exact @ih (r + 1) 0 (by omega) (by omega) s' (by rw [hmodel', fill_zero])
        (hin'.trans hbatch.symm) hcount' fuel (by omega)
    · rw [if_neg hlast] at hrun ⊢
      exact Follows.next hrun rfl
        (ih (by omega) (by omega) rfl rfl (by exact hcount) fuel (by omega))

/-- A check that ends needs no more fuel. -/
theorem checkLoop_extends (w : Wrapper σ) (data : DataSet) (fuel i : Nat) :
    Prog.Extends (checkLoop w data fuel i) (checkLoop w data (fuel + 1) i) := by
  induction fuel generalizing i with
  | zero => exact Prog.extends_timeout _
  | succ fuel ih =>
    rw [checkLoop, checkLoop]
    apply Prog.Extends.bind
    intro request
    obtain ⟨ret, new⟩ := request
    dsimp only
    split
    · exact .refl _
    split
    · exact .refl _
    split
    · apply Prog.Extends.bind
      intro ret
      split
      · exact .refl _
      apply Prog.Extends.bind
      intro ret
      split
      · exact .refl _
      · exact ih 0
    · exact ih (i + 1)

theorem checkLoop_extends_add (w : Wrapper σ) (data : DataSet) (fuel more : Nat) :
    Prog.Extends (checkLoop w data fuel 0) (checkLoop w data (fuel + more) 0) := by
  induction more with
  | zero => exact .refl _
  | succ more ih => exact ih.trans (checkLoop_extends w data (fuel + more) 0)

/-- A check from the start of its data follows its script when it may make a request for each
buffer and one more. -/
theorem follows_checkLoop_start {fuel : Nat} (hfuel : data.inputs.length < fuel) {s : Machine σ}
    (hin : s.inDone = 0) (hout : s.outDone = 0) :
    Follows Machine.log (checkLoop w data fuel 0) s (checkScript w data s.model) := by
  rw [← suffix_eq]
  exact follows_checkLoop hfuel (by omega) (by omega) (by rw [fill_zero]; rfl) (by omega)
    (by simp [CountsOutputs, hout])

theorem follows_check {fuel : Nat} (hfuel : data.inputs.length < fuel) :
    Follows Machine.log (checkLoop w data fuel 0) (.initial start) (checkScript w data start) :=
  follows_checkLoop_start hfuel rfl rfl

end Mlonmcu.V1
