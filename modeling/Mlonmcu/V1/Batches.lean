import Mlonmcu.CLib.Script
import Mlonmcu.V1.Interface

/-! The batch specification of `mlonmcu_check`: batch `r` copies the buffers from number
`r * numInputs` on to the inputs, invokes the model once, and compares its outputs with the expected
buffers from number `r * numOutputs` on. -/

namespace Mlonmcu.V1

open CLib

variable {σ : Type} (w : Wrapper σ) (data : DataSet) (start : ModelState σ)

/-- The model after the first `i` buffers of batch `r` have been copied to its inputs. -/
def fill (r i : Nat) (model : ModelState σ) : ModelState σ :=
  { model with inputs := fun a =>
      if a < i then (model.inputs a).store (data.inputs.getD (r * w.numInputs + a) [])
      else model.inputs a }

/-- The model after `r` batches. -/
def after : Nat → ModelState σ
  | 0 => start
  | r + 1 => (w.invoke (fill w data r w.numInputs (after r))).2

/-- The model as the invocation of batch `r` sees it. -/
def seen (r : Nat) : ModelState σ := fill w data r w.numInputs (after w data start r)

def code (r : Nat) : Int32 := (w.invoke (seen w data start r)).1

/-- The contents of the output `j` after batch `r`. -/
def contents (r j : Nat) : Bytes :=
  ((after w data start (r + 1)).outputs j).load (w.outputSize j)

/-- A request for the input `i` in batch `r`. -/
def requestStep (r i : Nat) : Event σ × Option (Result Int32) :=
  let size := (data.inputs.getD (r * w.numInputs + i) []).length
  (.request i (some (r * w.numInputs + i)),
    if size ≠ 0 ∧ size ≠ w.inputSize i then some (.done exitMlifInvalidSize) else none)

def invokeStep (r : Nat) : Event σ × Option (Result Int32) :=
  (.invoke (seen w data start r),
    if code w data start r ≠ 0 then some (.done (code w data start r)) else none)

/-- The output `j` of batch `r`.  The counter of the hook overflows after `2^31 - 1` outputs. -/
def handleStep (r j : Nat) : Event σ × Option (Result Int32) :=
  let n := r * w.numOutputs + j
  let contents := contents w data start r j
  if n < data.outputs.length then
    (.handle j contents (some n),
      if w.outputSize j = (data.outputs.getD n []).length ∧
          contents = data.outputs.getD n [] then none
      else some (.exited exitMlifMissmatch))
  else
    (.handle j contents none,
      if data.outputs.length ≠ 0 ∧ Prog.intMax ≤ n then some (.fault .signedOverflow) else none)

def batch (r : Nat) : Script (Event σ) (Result Int32) :=
  (List.range w.numInputs).map (requestStep w data r) ++ invokeStep w data start r ::
    (List.range w.numOutputs).map (handleStep w data start r)

/-- The steps of all whole batches and of the buffers that are left over. -/
def steps : Script (Event σ) (Result Int32) :=
  (List.range (data.inputs.length / w.numInputs)).flatMap (batch w data start) ++
    (List.range (data.inputs.length % w.numInputs)).map
      (requestStep w data (data.inputs.length / w.numInputs))

/-- The request that finds no buffer. -/
def finalRequest : Event σ := .request (data.inputs.length % w.numInputs) none

/-- The steps of `mlonmcu_check`. -/
def checkScript : Script (Event σ) (Result Int32) :=
  steps w data start ++ [(finalRequest w data, some (.done 0))]

/-! ### The steps one after the other -/

/-- The steps from the input `i` of batch `r` on, with `n` buffers left. -/
def suffix (r : Nat) : Nat → Nat → Script (Event σ) (Result Int32)
  | i, 0 => [(.request i none, some (.done 0))]
  | i, n + 1 => requestStep w data r i ::
      if i + 1 = w.numInputs then
        invokeStep w data start r ::
          (List.range w.numOutputs).map (handleStep w data start r) ++ suffix (r + 1) 0 n
      else suffix r (i + 1) n

variable {w data start}

theorem requestStep_succ (r i : Nat) : (fun a => requestStep w data r (i + 1 + a)) =
    (fun a => requestStep w data r (i + a)) ∘ Nat.succ := by
  funext a
  exact congrArg (requestStep w data r) (by omega)

theorem suffix_short {r i n : Nat} (h : w.numInputs = 0 ∨ i + n < w.numInputs) :
    suffix w data start r i n = (List.range n).map (fun a => requestStep w data r (i + a)) ++
      [(.request (i + n) none, some (.done 0))] := by
  induction n generalizing i with
  | zero => rfl
  | succ n ih =>
    rw [suffix, if_neg (by omega), ih (by omega), List.range_succ_eq_map, List.map_cons,
      List.map_map, requestStep_succ, Nat.add_assoc, Nat.add_comm 1]
    rfl

theorem suffix_long {r i c : Nat} (h : i + c + 1 = w.numInputs) (n : Nat) :
    suffix w data start r i (c + 1 + n) =
      (List.range (c + 1)).map (fun a => requestStep w data r (i + a)) ++
        invokeStep w data start r ::
          (List.range w.numOutputs).map (handleStep w data start r) ++
        suffix w data start (r + 1) 0 n := by
  induction c generalizing i with
  | zero =>
    rw [show 0 + 1 + n = n + 1 by omega, suffix, if_pos (by omega)]
    rfl
  | succ c ih =>
    rw [show c + 1 + 1 + n = c + 1 + n + 1 by omega, suffix, if_neg (by omega), ih (by omega),
      List.range_succ_eq_map (n := c + 1), List.map_cons, List.map_map, requestStep_succ]
    rfl

/-- Whole batches, and the buffers that are left over. -/
theorem suffix_batches {rest : Nat} (hrest : rest < w.numInputs) (q r : Nat) :
    suffix w data start r 0 (q * w.numInputs + rest) =
      (List.range q).flatMap (fun b => batch w data start (r + b)) ++
        (List.range rest).map (requestStep w data (r + q)) ++
        [(.request rest none, some (.done 0))] := by
  induction q generalizing r with
  | zero =>
    rw [Nat.zero_mul, Nat.zero_add, suffix_short (.inr (by omega))]
    simp
  | succ q ih =>
    obtain ⟨c, hc⟩ : ∃ c, w.numInputs = c + 1 := ⟨w.numInputs - 1, by omega⟩
    have hsum : (q + 1) * w.numInputs + rest = c + 1 + (q * w.numInputs + rest) := by
      rw [Nat.add_mul]
      omega
    have hmap : (fun b => batch w data start (r + 1 + b)) =
        (fun b => batch w data start (r + b)) ∘ Nat.succ := by
      funext b
      exact congrArg (batch w data start) (by omega)
    have hbatch : batch w data start r =
        (List.range (c + 1)).map (fun a => requestStep w data r (0 + a)) ++
          invokeStep w data start r ::
            (List.range w.numOutputs).map (handleStep w data start r) := by
      simp only [batch, hc, Nat.zero_add]
    rw [hsum, suffix_long (by omega), ih, hmap, ← hbatch, List.range_succ_eq_map (n := q),
      List.flatMap_cons, List.flatMap_map, Nat.add_zero, show r + 1 + q = r + (q + 1) by omega]
    simp only [List.append_assoc]
    rfl

theorem suffix_eq : suffix w data start 0 0 data.inputs.length = checkScript w data start := by
  rcases Nat.eq_zero_or_pos w.numInputs with hzero | h
  · rw [suffix_short (.inl hzero), checkScript, steps, finalRequest, hzero, Nat.div_zero,
      Nat.mod_zero]
    simp only [Nat.zero_add]
    rfl
  have hdiv := Nat.div_add_mod' data.inputs.length w.numInputs
  conv_lhs => rw [← hdiv]
  rw [suffix_batches (Nat.mod_lt _ h)]
  simp only [Nat.zero_add]
  rfl

end Mlonmcu.V1
