import Mlonmcu.V1.Check

/-! What a successful check has validated: the buffers of whole batches.  The check compares neither
counter with the number of the buffers. -/

namespace Mlonmcu.V1

open CLib

variable {σ : Type} {w : Wrapper σ} {data : DataSet} {start : ModelState σ}

/-- The input buffer `n` is in an input when the model is invoked. -/
def TookPart (data : DataSet) (log : List (Event σ)) (n : Nat) : Prop :=
  ∃ before i between seen later,
    log = before ++ .request i (some n) :: (between ++ .invoke seen :: later) ∧
      (∀ buffer, .request i buffer ∉ between) ∧
      (seen.inputs i).load (data.inputs.getD n []).length = data.inputs.getD n []

/-- An output is equal to the expected buffer `n`, with which it is compared. -/
def ComparedEqual (data : DataSet) (log : List (Event σ)) (n : Nat) : Prop :=
  ∃ j contents, .handle j contents (some n) ∈ log ∧ data.outputs[n]? = some contents

/-- All buffers are used. -/
def Validates (data : DataSet) (log : List (Event σ)) : Prop :=
  (∀ n < data.inputs.length, TookPart data log n) ∧
    ∀ n < data.outputs.length, ComparedEqual data log n

theorem success_log {backend : Backend} (hbackend : backend ≠ .emx) (h : 0 < w.numInputs)
    {fuel : Nat} {t : Machine σ}
    (hrun : (backend.mlonmcuCheck w data fuel).run (.initial start) = (.done 0, t)) :
    Script.Passes (steps w data start) ∧
      t.log = Script.events (steps w data start) ++ [finalRequest w data] := by
  have hmore : (checkLoop w data (fuel + (data.inputs.length + 1)) 0).run (.initial start) =
      (.done 0, t) := by
    rw [backend.mlonmcuCheck_eq hbackend] at hrun
    exact checkLoop_extends_add w data fuel _ _ _ _ hrun (by simp)
  obtain ⟨result, t', hrun', hresult, hlog⟩ := follows_check
    (show data.inputs.length < fuel + (data.inputs.length + 1) by omega)
  obtain ⟨rfl, rfl⟩ := Prod.mk.inj (hmore.symm.trans hrun')
  have hpass := steps_passes h hresult
  rw [checkScript, Script.performed_append hpass] at hlog
  exact ⟨hpass, hlog⟩

theorem mem_of_append_eq {α : Type} {front back before later : List α} {a b : α}
    (h : front ++ back = before ++ a :: later) (ha : a ∉ front) (hb : b ∈ later) : b ∈ back := by
  rcases List.append_eq_append_iff.mp h with ⟨c, -, hback⟩ | ⟨c, hfront, hback⟩
  · rw [hback]
    simp [hb]
  · cases c with
    | nil => rw [List.nil_append] at hback; simp [← hback, hb]
    | cons first c =>
      rw [List.cons_append, List.cons.injEq] at hback
      exact absurd (by rw [hfront, hback.1]; simp) ha

/-! ### The inputs -/

theorem request_mem_batches {i n : Nat}
    (h : Event.request i (some n) ∈ (List.range (wholeBatches w data)).flatMap fun r =>
      Script.events (batch w data start r)) : n < wholeBatches w data * w.numInputs := by
  obtain ⟨r, hr, hmem⟩ := List.mem_flatMap.mp h
  rw [batch_events] at hmem
  rcases List.mem_append.mp hmem with hrequest | htail
  · obtain ⟨a, ha, heq⟩ := List.mem_map.mp hrequest
    have hle := Nat.mul_le_mul_right w.numInputs (Nat.succ_le_of_lt (List.mem_range.mp hr))
    have ha := List.mem_range.mp ha
    rw [Nat.succ_mul] at hle
    simp only [Event.request.injEq, Option.some.injEq] at heq
    omega
  · simp at htail

theorem steps_events_batch (start : ModelState σ) {r : Nat} (hr : r < wholeBatches w data) :
    ∃ earlier later,
      Script.events (steps w data start) =
        earlier ++ (Script.events (batch w data start r) ++ later) := by
  obtain ⟨front, back, hbatches⟩ := List.append_of_mem (List.mem_range.mpr hr)
  rw [steps_events, hbatches, List.flatMap_append, List.flatMap_cons, List.append_assoc,
    List.append_assoc]
  exact ⟨_, _, rfl⟩

/-- Between the request for an input and the invocation there is no other one for that input. -/
theorem batch_events_input (data : DataSet) (start : ModelState σ) (r : Nat) {i : Nat}
    (hi : i < w.numInputs) : ∃ earlier between later,
      Script.events (batch w data start r) =
        earlier ++ .request i (some (r * w.numInputs + i)) ::
          (between ++ .invoke (seen w data start r) :: later) ∧
      ∀ buffer, .request i buffer ∉ between := by
  obtain ⟨front, back, hinputs⟩ := List.append_of_mem (List.mem_range.mpr hi)
  have hnodup : i ∉ back := by
    have := List.nodup_range (n := w.numInputs)
    rw [hinputs, List.nodup_append] at this
    exact (List.nodup_cons.mp this.2.1).1
  rw [batch_events, hinputs, List.map_append, List.map_cons, List.append_assoc, List.cons_append]
  refine ⟨_, _, _, rfl, ?_⟩
  intro buffer hmem
  obtain ⟨a, ha, heq⟩ := List.mem_map.mp hmem
  rw [Event.request.injEq] at heq
  exact hnodup (heq.1 ▸ ha)

theorem tookPart_batch {log : List (Event σ)} {n : Nat}
    (hlog : log = Script.events (steps w data start) ++ [finalRequest w data])
    (hn : n < wholeBatches w data * w.numInputs) : TookPart data log n := by
  have h : 0 < w.numInputs := Nat.pos_of_ne_zero fun hzero => by simp [hzero] at hn
  have hi : n % w.numInputs < w.numInputs := Nat.mod_lt _ h
  have hr : n / w.numInputs < wholeBatches w data :=
    Nat.div_lt_of_lt_mul (by rwa [Nat.mul_comm] at hn)
  have hrn : n / w.numInputs * w.numInputs + n % w.numInputs = n := Nat.div_add_mod' n _
  obtain ⟨earlier, later, hsteps⟩ := steps_events_batch start hr
  obtain ⟨front, between, back, hbatch, hbetween⟩ :=
    batch_events_input data start (n / w.numInputs) hi
  rw [hrn] at hbatch
  refine ⟨earlier ++ front, _, between, seen w data start (n / w.numInputs),
    back ++ (later ++ [finalRequest w data]), ?_, hbetween, ?_⟩
  · rw [hlog, hsteps, hbatch]
    simp only [List.append_assoc, List.cons_append]
  · have hseen : (seen w data start (n / w.numInputs)).inputs (n % w.numInputs) =
        ((after w data start (n / w.numInputs)).inputs (n % w.numInputs)).store
          (data.inputs.getD n []) := by
      simp only [seen, fill, if_pos hi, hrn]
    rw [hseen, Memory.load_store]

/-- The buffers that took part are those of whole batches. -/
theorem tookPart_iff {log : List (Event σ)} {n : Nat}
    (hlog : log = Script.events (steps w data start) ++ [finalRequest w data]) :
    TookPart data log n ↔ n < wholeBatches w data * w.numInputs := by
  constructor
  · rintro ⟨before, i, between, model, later, heq, -⟩
    by_contra hn
    rw [hlog, steps_events, List.append_assoc] at heq
    have hinvoke := mem_of_append_eq (b := .invoke model) heq
      (fun hmem => hn (request_mem_batches hmem)) (by simp)
    simp [finalRequest] at hinvoke
  · exact tookPart_batch hlog

/-! ### The outputs -/

theorem contents_eq {r j : Nat} (hpass : Script.Passes (steps w data start))
    (hr : r < wholeBatches w data) (hj : j < w.numOutputs)
    (hlt : r * w.numOutputs + j < data.outputs.length) :
    data.outputs[r * w.numOutputs + j]? = some (contents w data start r j) := by
  have hstep := hpass _ (handleStep_mem hr hj)
  simp only [handleStep, if_pos hlt, ite_eq_left_iff, reduceCtorEq, imp_false, not_not] at hstep
  rw [hstep.2]
  simp [hlt]

theorem handled_iff {log : List (Event σ)} {j : Nat} {bytes : Bytes} {expected : Option Nat} :
    .handle j bytes expected ∈ log ↔ (j, bytes, expected) ∈ log.filterMap Event.handled := by
  rw [List.mem_filterMap]
  constructor
  · exact fun hmem => ⟨_, hmem, rfl⟩
  · rintro ⟨event, hmem, hevent⟩
    cases event with
    | request i buffer => cases hevent
    | invoke model => cases hevent
    | handle j' bytes' expected' =>
      rw [Event.handled, Option.some.injEq] at hevent
      cases hevent
      exact hmem

/-- The comparisons of a check are those of the outputs of whole batches. -/
theorem compared_iff {log : List (Event σ)} {j n : Nat} {bytes : Bytes}
    (hlog : log = Script.events (steps w data start) ++ [finalRequest w data]) :
    .handle j bytes (some n) ∈ log ↔ ∃ r < wholeBatches w data, j < w.numOutputs ∧
      n = r * w.numOutputs + j ∧ n < data.outputs.length ∧ bytes = contents w data start r j := by
  rw [handled_iff, hlog, handled_steps]
  simp only [List.mem_flatMap, List.mem_map, List.mem_range, Prod.mk.injEq,
    Option.ite_none_right_eq_some, Option.some.injEq]
  constructor
  · rintro ⟨r, hr, j, hj, rfl, rfl, hlt, rfl⟩
    exact ⟨r, hr, hj, rfl, hlt, rfl⟩
  · rintro ⟨r, hr, hj, rfl, hlt, rfl⟩
    exact ⟨r, hr, j, hj, rfl, rfl, hlt, rfl⟩

/-- The expected buffers that are compared are those of whole batches. -/
theorem comparedEqual_iff {log : List (Event σ)} {n : Nat}
    (hpass : Script.Passes (steps w data start))
    (hlog : log = Script.events (steps w data start) ++ [finalRequest w data])
    (hn : n < data.outputs.length) :
    ComparedEqual data log n ↔ n < wholeBatches w data * w.numOutputs := by
  constructor
  · rintro ⟨j, bytes, hmem, -⟩
    obtain ⟨r, hr, hj, rfl, -, -⟩ := (compared_iff hlog).mp hmem
    have hle := Nat.mul_le_mul_right w.numOutputs (Nat.succ_le_of_lt hr)
    rw [Nat.succ_mul] at hle
    omega
  · intro hlt
    have h : 0 < w.numOutputs := Nat.pos_of_ne_zero fun hzero => by simp [hzero] at hlt
    have hrn : n / w.numOutputs * w.numOutputs + n % w.numOutputs = n := Nat.div_add_mod' n _
    have hr : n / w.numOutputs < wholeBatches w data :=
      Nat.div_lt_of_lt_mul (by rwa [Nat.mul_comm] at hlt)
    have hj : n % w.numOutputs < w.numOutputs := Nat.mod_lt _ h
    have heq := contents_eq hpass hr hj (by rwa [hrn])
    rw [hrn] at heq
    exact ⟨_, _, (compared_iff hlog).mpr ⟨_, hr, hj, hrn.symm, hn, rfl⟩, heq⟩

/-! ### All buffers -/

/-- All buffers are used when they fill the inputs and the outputs reach the last expected one. -/
theorem validates_iff {log : List (Event σ)}
    (hpass : Script.Passes (steps w data start))
    (hlog : log = Script.events (steps w data start) ++ [finalRequest w data]) :
    Validates data log ↔ w.numInputs ∣ data.inputs.length ∧
      data.outputs.length ≤ wholeBatches w data * w.numOutputs := by
  have hdiv := Nat.div_add_mod' data.inputs.length w.numInputs
  constructor
  · rintro ⟨hinputs, houtputs⟩
    refine ⟨Nat.dvd_of_mod_eq_zero (Nat.eq_zero_of_not_pos fun hrest => ?_),
      Nat.le_of_not_lt fun hmore => ?_⟩
    · have hlast := (tookPart_iff hlog).mp (hinputs (wholeBatches w data * w.numInputs)
        (by unfold wholeBatches; omega))
      omega
    · have hlast := (comparedEqual_iff hpass hlog hmore).mp (houtputs _ hmore)
      omega
  · rintro ⟨hdvd, hle⟩
    have hmod := Nat.mod_eq_zero_of_dvd hdvd
    refine ⟨fun n hn => (tookPart_iff hlog).mpr (by unfold wholeBatches; omega), fun n hn => ?_⟩
    exact (comparedEqual_iff hpass hlog hn).mpr (by omega)

/-- When the check ends with success, the buffers that took part and those that were compared are
those of the whole batches. -/
theorem mlonmcuCheck_validates_iff {backend : Backend} (hbackend : backend ≠ .emx)
    (w : Wrapper σ) (data : DataSet) (start : ModelState σ) (h : 0 < w.numInputs) {fuel : Nat}
    {t : Machine σ}
    (hrun : (backend.mlonmcuCheck w data fuel).run (.initial start) = (.done 0, t)) :
    (∀ n < data.inputs.length,
      (TookPart data t.log n ↔ n < wholeBatches w data * w.numInputs)) ∧
    (∀ n < data.outputs.length,
      (ComparedEqual data t.log n ↔ n < wholeBatches w data * w.numOutputs)) ∧
    (Validates data t.log ↔ w.numInputs ∣ data.inputs.length ∧
      data.outputs.length ≤ wholeBatches w data * w.numOutputs) := by
  obtain ⟨hpass, hlog⟩ := success_log hbackend h hrun
  exact ⟨fun n _ => tookPart_iff hlog, fun n hn => comparedEqual_iff hpass hlog hn,
    validates_iff hpass hlog⟩

theorem mlonmcuCheck_validates_copier :
    let data : DataSet := ⟨[[7], [8]], [[7], [8]], by decide, by decide⟩
    let t := ((Backend.tvm.mlonmcuCheck (copier 1 1 1) data 3).run (.initial blank)).2
    Validates data t.log :=
  ((mlonmcuCheck_validates_iff (by decide) (copier 1 1 1) _ blank (by decide)
    (rfl : (Backend.tvm.mlonmcuCheck (copier 1 1 1) _ 3).run (.initial blank) =
      (.done 0, _))).2.2).mpr ⟨by decide, by decide⟩

/-- Three buffers for two inputs, and two expected buffers for one output: the last ones are not
used, and the check ends with success. -/
theorem mlonmcuCheck_not_validates :
    let data : DataSet := ⟨[[7], [8], [9]], [[7], [8]], by decide, by decide⟩
    let run := (Backend.tvm.mlonmcuCheck (copier 2 1 1) data 4).run (.initial blank)
    run.1 = .done 0 ∧ ¬ TookPart data run.2.log 2 ∧ ¬ ComparedEqual data run.2.log 1 ∧
      ¬ Validates data run.2.log := by
  intro data run
  have hrun : (Backend.tvm.mlonmcuCheck (copier 2 1 1) data 4).run (.initial blank) =
      (.done 0, run.2) := rfl
  obtain ⟨hpass, hlog⟩ := success_log (by decide) (by decide) hrun
  refine ⟨rfl, ?_, ?_, ?_⟩
  · rw [tookPart_iff hlog]
    decide
  · rw [comparedEqual_iff hpass hlog (by decide)]
    decide
  · rw [validates_iff hpass hlog]
    decide

end Mlonmcu.V1
