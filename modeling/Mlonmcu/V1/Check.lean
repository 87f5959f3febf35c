import Mlonmcu.V1.Refinement

/-! `mlonmcu_check` refines the batch specification: a check without a failure goes through all
batches, and a check with one ends there. -/

namespace Mlonmcu.V1

open CLib

variable {σ : Type}

def Event.requested : Event σ → Option (Nat × Option Nat)
  | .request i buffer => some (i, buffer)
  | _ => none

def Event.invoked : Event σ → Option (ModelState σ)
  | .invoke seen => some seen
  | _ => none

/-- The output that is handled, its contents, and the buffer that it is compared with. -/
def Event.handled : Event σ → Option (Nat × Bytes × Option Nat)
  | .handle j contents expected => some (j, contents, expected)
  | _ => none

section Specification

variable (w : Wrapper σ) (data : DataSet) (start : ModelState σ)

def wholeBatches : Nat := data.inputs.length / w.numInputs

/-- No input has a wrong size, no invocation returns an error, and no output differs. -/
structure Clean : Prop where
  sizes : ∀ n < data.inputs.length, (data.inputs.getD n []).length = 0 ∨
    (data.inputs.getD n []).length = w.inputSize (n % w.numInputs)
  codes : ∀ r < wholeBatches w data, code w data start r = 0
  outputs : ∀ r < wholeBatches w data, ∀ j < w.numOutputs,
    r * w.numOutputs + j < data.outputs.length →
      w.outputSize j = (data.outputs.getD (r * w.numOutputs + j) []).length ∧
        contents w data start r j = data.outputs.getD (r * w.numOutputs + j) []

/-- The batch specification of a check that ends with `result` and the events `log`. -/
structure RunsBatches (result : Result Int32) (log : List (Event σ)) : Prop where
  terminates : Clean w data start → result = .done 0
  requests : Clean w data start →
    (log.filterMap Event.requested).length = data.inputs.length + 1
  invocations : Clean w data start →
    log.filterMap Event.invoked = (List.range (wholeBatches w data)).map (seen w data start)
  inputs : Clean w data start → ∀ r < wholeBatches w data, ∀ i < w.numInputs,
    let buffer := data.inputs.getD (r * w.numInputs + i) []
    if buffer.length = 0 then (seen w data start r).inputs i = (after w data start r).inputs i
    else ((seen w data start r).inputs i).load (w.inputSize i) = buffer
  comparisons : Clean w data start →
    log.filterMap Event.handled = (List.range (wholeBatches w data)).flatMap fun r =>
      (List.range w.numOutputs).map fun j =>
        let n := r * w.numOutputs + j
        (j, contents w data start r j, if n < data.outputs.length then some n else none)
  failure : ∀ before event stop later,
    steps w data start = before ++ (event, some stop) :: later → Script.Passes before →
      result = stop ∧ log = Script.events before ++ [event]
  bounded : result ≠ .fault .outOfBounds

end Specification

variable {w : Wrapper σ} {data : DataSet} {start : ModelState σ}

/-! ### The events of the steps -/

theorem handleStep_event (r j : Nat) : (handleStep w data start r j).1 =
    .handle j (contents w data start r j)
      (if r * w.numOutputs + j < data.outputs.length then some (r * w.numOutputs + j)
        else none) := by
  by_cases h : r * w.numOutputs + j < data.outputs.length
  · simp only [handleStep, if_pos h]
  · simp only [handleStep, if_neg h]

theorem batch_events (r : Nat) : Script.events (batch w data start r) =
    (List.range w.numInputs).map (fun i => .request i (some (r * w.numInputs + i))) ++
      .invoke (seen w data start r) ::
        (List.range w.numOutputs).map fun j => .handle j (contents w data start r j)
          (if r * w.numOutputs + j < data.outputs.length then some (r * w.numOutputs + j)
          else none) := by
  simp only [Script.events, batch, List.map_append, List.map_cons, List.map_map]
  congr 2
  exact List.map_congr_left fun j _ => handleStep_event r j

theorem steps_events : Script.events (steps w data start) =
    (List.range (wholeBatches w data)).flatMap (fun r => Script.events (batch w data start r)) ++
      (List.range (data.inputs.length % w.numInputs)).map
        (fun i => .request i (some (wholeBatches w data * w.numInputs + i))) := by
  simp only [Script.events, steps, List.map_append, List.map_flatMap, List.map_map]
  rfl

theorem filterMap_steps {α : Type} (select : Event σ → Option α)
    (hselect : ∀ i buffer, select (.request i buffer) = none) :
    (Script.events (steps w data start) ++ [finalRequest w data]).filterMap select =
      (List.range (wholeBatches w data)).flatMap fun r =>
        (Event.invoke (seen w data start r) ::
          (List.range w.numOutputs).map fun j => .handle j (contents w data start r j)
            (if r * w.numOutputs + j < data.outputs.length then some (r * w.numOutputs + j)
            else none)).filterMap select := by
  have hnone : ∀ (n : Nat) (buffer : Nat → Option Nat),
      ((List.range n).map fun i => Event.request i (buffer i)).filterMap select = [] := by
    intro n buffer
    rw [List.filterMap_map, List.filterMap_eq_nil_iff]
    exact fun i _ => hselect i _
  rw [steps_events, List.filterMap_append, List.filterMap_append, hnone, List.filterMap_flatMap]
  simp only [batch_events, List.filterMap_append, hnone, List.nil_append]
  simp [finalRequest, hselect]

theorem invoked_steps :
    (Script.events (steps w data start) ++ [finalRequest w data]).filterMap Event.invoked =
      (List.range (wholeBatches w data)).map (seen w data start) := by
  rw [filterMap_steps _ fun _ _ => rfl, List.map_eq_flatMap]
  congr 1
  funext r
  simp [Event.invoked, Function.comp_def]

theorem handled_steps :
    (Script.events (steps w data start) ++ [finalRequest w data]).filterMap Event.handled =
      (List.range (wholeBatches w data)).flatMap fun r =>
        (List.range w.numOutputs).map fun j =>
          (j, contents w data start r j,
            if r * w.numOutputs + j < data.outputs.length then some (r * w.numOutputs + j)
            else none) := by
  rw [filterMap_steps _ fun _ _ => rfl]
  congr 1
  funext r
  rw [List.filterMap_cons_none rfl, List.filterMap_map]
  exact congrFun List.filterMap_eq_map' _

theorem requested_batch (r : Nat) :
    ((Script.events (batch w data start r)).filterMap Event.requested).length = w.numInputs := by
  simp [batch_events, Event.requested, Function.comp_def, List.filterMap_eq_map']

theorem requested_steps :
    ((Script.events (steps w data start) ++ [finalRequest w data]).filterMap
      Event.requested).length = data.inputs.length + 1 := by
  have hsum : ((List.range (wholeBatches w data)).flatMap fun r =>
      (Script.events (batch w data start r)).filterMap Event.requested).length =
        wholeBatches w data * w.numInputs := by
    rw [List.length_flatMap]
    simp only [requested_batch, List.map_const', List.length_range, List.sum_replicate_nat]
  have hdiv := Nat.div_add_mod' data.inputs.length w.numInputs
  rw [steps_events, List.filterMap_append, List.filterMap_append, List.filterMap_flatMap,
    List.length_append, List.length_append, hsum, List.filterMap_map]
  simp only [Event.requested, Function.comp_def, finalRequest, List.filterMap_cons,
    List.filterMap_nil, List.filterMap_eq_map', List.length_map, List.length_range,
    List.length_singleton, wholeBatches]
  omega

/-! ### The failures of the steps -/

theorem mem_steps (h : 0 < w.numInputs) {step : Event σ × Option (Result Int32)}
    (hstep : step ∈ steps w data start) :
    (∃ r i, i < w.numInputs ∧ r * w.numInputs + i < data.inputs.length ∧
      step = requestStep w data r i) ∨
    (∃ r < wholeBatches w data, step = invokeStep w data start r) ∨
    ∃ r < wholeBatches w data, ∃ j < w.numOutputs, step = handleStep w data start r j := by
  have hdiv := Nat.div_add_mod' data.inputs.length w.numInputs
  have hmod := Nat.mod_lt data.inputs.length h
  rcases List.mem_append.mp hstep with hbatch | hrest
  · obtain ⟨r, hr, hstep⟩ := List.mem_flatMap.mp hbatch
    have hr : r < wholeBatches w data := List.mem_range.mp hr
    rcases List.mem_append.mp hstep with hrequest | htail
    · obtain ⟨i, hi, rfl⟩ := List.mem_map.mp hrequest
      have hi : i < w.numInputs := List.mem_range.mp hi
      have hle : (r + 1) * w.numInputs ≤ wholeBatches w data * w.numInputs :=
        Nat.mul_le_mul_right _ hr
      rw [Nat.succ_mul] at hle
      exact .inl ⟨r, i, hi, by unfold wholeBatches at hle; omega, rfl⟩
    · rcases List.mem_cons.mp htail with rfl | hhandle
      · exact .inr (.inl ⟨r, hr, rfl⟩)
      · obtain ⟨j, hj, rfl⟩ := List.mem_map.mp hhandle
        exact .inr (.inr ⟨r, hr, j, List.mem_range.mp hj, rfl⟩)
  · obtain ⟨i, hi, rfl⟩ := List.mem_map.mp hrest
    have hi := List.mem_range.mp hi
    exact .inl ⟨_, i, by omega, by omega, rfl⟩

theorem handleStep_mem {r j : Nat} (hr : r < wholeBatches w data) (hj : j < w.numOutputs) :
    handleStep w data start r j ∈ steps w data start := by
  refine List.mem_append_left _ (List.mem_flatMap.mpr ⟨r, List.mem_range.mpr hr, ?_⟩)
  exact List.mem_append_right _
    (List.mem_cons_of_mem _ (List.mem_map_of_mem (List.mem_range.mpr hj)))

/-- No step ends the check with success or out of bounds. -/
theorem steps_stop (h : 0 < w.numInputs) {step : Event σ × Option (Result Int32)}
    (hstep : step ∈ steps w data start) :
    step.2 ≠ some (.done 0) ∧ step.2 ≠ some (.fault .outOfBounds) := by
  rcases mem_steps h hstep with ⟨r, i, -, -, rfl⟩ | ⟨r, -, rfl⟩ | ⟨r, -, j, -, rfl⟩
  · unfold requestStep
    dsimp only
    split
    · exact ⟨by decide, by decide⟩
    · exact ⟨by simp, by simp⟩
  · unfold invokeStep
    split
    next hcode => exact ⟨by simpa using hcode, by simp⟩
    next => exact ⟨by simp, by simp⟩
  · unfold handleStep
    dsimp only
    split <;> dsimp only <;> split <;> exact ⟨by simp, by simp⟩

/-- A check that ends with success goes through all steps. -/
theorem steps_passes (h : 0 < w.numInputs)
    (hresult : (checkScript w data start).outcome = some (.done 0)) :
    Script.Passes (steps w data start) := by
  by_contra hpass
  obtain ⟨before, event, stop, later, hsteps, hbefore⟩ := (Script.passes_or _).resolve_left hpass
  have hmem : (event, some stop) ∈ steps w data start := by
    rw [hsteps]
    simp
  rw [checkScript, hsteps, List.append_assoc, List.cons_append, Script.outcome_append hbefore]
    at hresult
  exact (steps_stop h hmem).1 hresult

theorem Clean.request {r i : Nat} (hclean : Clean w data start) (hi : i < w.numInputs)
    (hn : r * w.numInputs + i < data.inputs.length) : (requestStep w data r i).2 = none := by
  have hmod : (r * w.numInputs + i) % w.numInputs = i := Nat.mul_add_mod_of_lt hi
  have hsize := hclean.sizes _ hn
  rw [hmod] at hsize
  exact if_neg fun hwrong => hsize.elim hwrong.1 hwrong.2

theorem Clean.invoke {r : Nat} (hclean : Clean w data start) (hr : r < wholeBatches w data) :
    (invokeStep w data start r).2 = none :=
  if_neg fun hcode => hcode (hclean.codes r hr)

theorem Clean.handle {r j : Nat} (hclean : Clean w data start) (hr : r < wholeBatches w data)
    (hj : j < w.numOutputs) : (handleStep w data start r j).2 =
      if data.outputs.length ≠ 0 ∧ Prog.intMax ≤ r * w.numOutputs + j then
        some (.fault .signedOverflow)
      else none := by
  unfold handleStep
  by_cases hlt : r * w.numOutputs + j < data.outputs.length
  · have hmax := data.outputs_length
    have hfits : ¬ (data.outputs.length ≠ 0 ∧ Prog.intMax ≤ r * w.numOutputs + j) := by omega
    rw [if_pos hlt, if_neg hfits]
    exact if_pos (hclean.outputs r hr j hj hlt)
  · rw [if_neg hlt]

/-- The counter of the outputs does not overflow. -/
def CountFits (w : Wrapper σ) (data : DataSet) : Prop :=
  data.outputs.length = 0 ∨ wholeBatches w data * w.numOutputs ≤ Prog.intMax

/-- Without failures the check goes through all steps exactly when the counter does not
overflow. -/
theorem Clean.passes_iff (hclean : Clean w data start) (h : 0 < w.numInputs) :
    Script.Passes (steps w data start) ↔ CountFits w data := by
  constructor
  · intro hpass
    by_contra hover
    obtain ⟨hne, hlt⟩ := not_or.mp hover
    obtain ⟨r, hr⟩ : ∃ r, wholeBatches w data = r + 1 :=
      Nat.exists_eq_succ_of_ne_zero fun hzero => by simp [hzero] at hlt
    obtain ⟨j, hj⟩ : ∃ j, w.numOutputs = j + 1 :=
      Nat.exists_eq_succ_of_ne_zero fun hzero => by simp [hzero] at hlt
    have hlast := hclean.handle (r := r) (j := j) (by omega) (by omega)
    have hmul : wholeBatches w data * w.numOutputs = r * w.numOutputs + (j + 1) := by
      rw [hr, Nat.succ_mul, hj]
    rw [hpass _ (handleStep_mem (by omega) (by omega)),
      if_pos ⟨hne, by omega⟩] at hlast
    cases hlast
  · intro hfits step hstep
    rcases mem_steps h hstep with ⟨r, i, hi, hn, rfl⟩ | ⟨r, hr, rfl⟩ | ⟨r, hr, j, hj, rfl⟩
    · exact hclean.request hi hn
    · exact hclean.invoke hr
    · rw [hclean.handle hr hj]
      apply if_neg
      intro hover
      have hle := Nat.mul_le_mul_right w.numOutputs (Nat.succ_le_of_lt hr)
      rw [Nat.succ_mul] at hle
      have := hfits.resolve_left hover.1
      omega

theorem Clean.seen_input (hclean : Clean w data start) {r i : Nat}
    (hr : r < wholeBatches w data) (hi : i < w.numInputs) :
    let buffer := data.inputs.getD (r * w.numInputs + i) []
    if buffer.length = 0 then (seen w data start r).inputs i = (after w data start r).inputs i
    else ((seen w data start r).inputs i).load (w.inputSize i) = buffer := by
  intro buffer
  have hle := Nat.mul_le_mul_right w.numInputs (Nat.succ_le_of_lt hr)
  have hdiv := Nat.div_add_mod' data.inputs.length w.numInputs
  rw [Nat.succ_mul] at hle
  have hmod : (r * w.numInputs + i) % w.numInputs = i := Nat.mul_add_mod_of_lt hi
  have hsize := hclean.sizes (r * w.numInputs + i) (by unfold wholeBatches at hle; omega)
  rw [hmod] at hsize
  have hseen : (seen w data start r).inputs i = ((after w data start r).inputs i).store buffer :=
    if_pos hi
  rw [hseen]
  split
  next hzero => rw [List.eq_nil_of_length_eq_zero hzero, Memory.store_nil]
  next hne => rw [← hsize.resolve_left hne, Memory.load_store]

/-! ### The check -/

theorem follows_mlonmcuCheck {backend : Backend} (hbackend : backend ≠ .emx) {fuel : Nat}
    (hfuel : data.inputs.length < fuel) :
    Follows Machine.log (backend.mlonmcuCheck w data fuel) (.initial start)
      (checkScript w data start) := by
  rw [backend.mlonmcuCheck_eq hbackend]
  exact follows_check hfuel

theorem Clean.terminates_iff {backend : Backend} (hbackend : backend ≠ .emx)
    (hclean : Clean w data start) (h : 0 < w.numInputs) {fuel : Nat}
    (hfuel : data.inputs.length < fuel) :
    ((backend.mlonmcuCheck w data fuel).run (.initial start)).1 = .done 0 ↔ CountFits w data := by
  obtain ⟨result, t, hrun, hresult, -⟩ := follows_mlonmcuCheck hbackend hfuel
  rw [hrun]
  constructor
  · intro hdone
    obtain rfl : result = .done 0 := hdone
    exact (hclean.passes_iff h).mp (steps_passes h hresult)
  · intro hfits
    rw [checkScript, Script.outcome_append ((hclean.passes_iff h).mpr hfits)] at hresult
    exact (Option.some.inj hresult).symm

theorem runsBatches_pass {result : Result Int32} {log : List (Event σ)}
    (hpass : Script.Passes (steps w data start))
    (hresult : (checkScript w data start).outcome = some result)
    (hlog : log = (checkScript w data start).performed) : RunsBatches w data start result log := by
  rw [checkScript, Script.outcome_append hpass, Option.some.injEq] at hresult
  rw [checkScript, Script.performed_append hpass] at hlog
  subst hresult hlog
  exact {
    terminates := fun _ => rfl
    requests := fun _ => requested_steps
    invocations := fun _ => invoked_steps
    inputs := fun hclean r hr i hi => hclean.seen_input hr hi
    comparisons := fun _ => handled_steps
    failure := by
      intro before event stop later hsteps hbefore
      have := hpass (event, some stop) (by rw [hsteps]; simp)
      cases this
    bounded := by simp }

theorem runsBatches_failure {result : Result Int32} {log : List (Event σ)}
    (h : 0 < w.numInputs) (hfits : CountFits w data)
    (hpass : ¬ Script.Passes (steps w data start))
    (hresult : (checkScript w data start).outcome = some result)
    (hlog : log = (checkScript w data start).performed) : RunsBatches w data start result log := by
  have hdirty : ¬ Clean w data start := fun hclean => hpass ((hclean.passes_iff h).mpr hfits)
  have hfail : ∀ before event stop later,
      steps w data start = before ++ (event, some stop) :: later → Script.Passes before →
        result = stop ∧ log = Script.events before ++ [event] := by
    intro before event stop later hsteps hbefore
    rw [checkScript, hsteps, List.append_assoc, List.cons_append] at hresult hlog
    rw [Script.outcome_append hbefore, Option.some.injEq] at hresult
    rw [Script.performed_append hbefore] at hlog
    exact ⟨hresult.symm, hlog⟩
  obtain ⟨before, event, stop, later, hsteps, hbefore⟩ := (Script.passes_or _).resolve_left hpass
  have hstop := (hfail before event stop later hsteps hbefore).1
  exact {
    terminates := fun hclean => absurd hclean hdirty
    requests := fun hclean => absurd hclean hdirty
    invocations := fun hclean => absurd hclean hdirty
    inputs := fun hclean => absurd hclean hdirty
    comparisons := fun hclean => absurd hclean hdirty
    failure := hfail
    bounded := by
      have hmem : (event, some stop) ∈ steps w data start := by
        rw [hsteps]
        simp
      rw [hstop]
      exact fun hbound => (steps_stop h hmem).2 (congrArg some hbound) }

/-- The check of a backend refines the batch specification when the counter of the outputs, an
`int`, does not overflow. -/
theorem mlonmcuCheck_runsBatches {backend : Backend} (hbackend : backend ≠ .emx)
    (w : Wrapper σ) (data : DataSet) (start : ModelState σ) (h : 0 < w.numInputs)
    (hfits : CountFits w data) {fuel : Nat} (hfuel : data.inputs.length < fuel) :
    let run := (backend.mlonmcuCheck w data fuel).run (.initial start)
    RunsBatches w data start run.1 run.2.log := by
  obtain ⟨result, t, hrun, hresult, hlog⟩ := follows_mlonmcuCheck hbackend hfuel
  dsimp only
  rw [hrun]
  have hlog : t.log = (checkScript w data start).performed := hlog
  by_cases hpass : Script.Passes (steps w data start)
  · exact runsBatches_pass hpass hresult hlog
  · exact runsBatches_failure h hfits hpass hresult hlog

/-- A model that copies its inputs to its outputs, which all have the given size. -/
def copier (numInputs numOutputs size : Nat) : Wrapper Unit where
  numInputs := numInputs
  numOutputs := numOutputs
  inputSize _ := size
  outputSize _ := size
  invoke s := (0, { s with outputs := s.inputs })

def blank : ModelState Unit := ⟨(), fun _ _ => 0, fun _ _ => 0⟩

theorem mlonmcuCheck_runsBatches_copier :
    let data : DataSet := ⟨[[7], [8], [9]], [[7], [8]], by decide, by decide⟩
    let run := (Backend.tvm.mlonmcuCheck (copier 2 2 1) data 4).run (.initial blank)
    RunsBatches (copier 2 2 1) data blank run.1 run.2.log :=
  mlonmcuCheck_runsBatches (by decide) _ _ _ (by decide) (.inr (by decide)) (by decide)

def emptyBuffers : DataSet := ⟨[[]], [[]], by decide, by decide⟩

theorem clean_emptyBuffers (numOutputs : Nat) :
    Clean (copier 1 numOutputs 0) emptyBuffers blank where
  sizes n hn := by
    obtain rfl : n = 0 := Nat.lt_one_iff.mp hn
    exact .inl rfl
  codes r _ := rfl
  outputs r hr j hj hlt := by
    rw [Nat.lt_one_iff.mp hlt]
    exact ⟨rfl, rfl⟩

theorem countFits_emptyBuffers {numOutputs : Nat} :
    CountFits (copier 1 numOutputs 0) emptyBuffers ↔ numOutputs ≤ Prog.intMax := by
  simp [CountFits, wholeBatches, emptyBuffers, copier]

theorem not_runsBatches_emptyBuffers {numOutputs : Nat} (h : ¬ numOutputs ≤ Prog.intMax) :
    let run :=
      (Backend.tvm.mlonmcuCheck (copier 1 numOutputs 0) emptyBuffers 2).run (.initial blank)
    ¬ RunsBatches (copier 1 numOutputs 0) emptyBuffers blank run.1 run.2.log := by
  intro run hbatches
  have hdone := hbatches.terminates (clean_emptyBuffers numOutputs)
  have hfits := ((clean_emptyBuffers numOutputs).terminates_iff (by decide) Nat.one_pos
    Nat.one_lt_two).mp hdone
  exact h (countFits_emptyBuffers.mp hfits)

/-- One invocation with 2^31 outputs, of which the first one is compared. -/
theorem mlonmcuCheck_not_runsBatches :
    let run := (Backend.tvm.mlonmcuCheck (copier 1 (2 ^ 31) 0) emptyBuffers 2).run (.initial blank)
    ¬ RunsBatches (copier 1 (2 ^ 31) 0) emptyBuffers blank run.1 run.2.log :=
  not_runsBatches_emptyBuffers (by decide)

end Mlonmcu.V1
