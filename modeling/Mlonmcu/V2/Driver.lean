import Mlonmcu.CLib.Prog
import Mlonmcu.Model

/-! `ml_interface.c` of the second interface version, over the functions that can be overridden. -/

namespace Mlonmcu.V2

open CLib

/-- The functions behind a check.  A request gets the value of the flag `new_` and may store one. -/
structure Hooks (σ : Type) where
  processInputs : Nat → Bool → σ → Int32 × Option Bool × σ
  invoke : σ → Int32 × σ
  processOutputs : Nat → σ → Int32 × σ

inductive Call
  | request (batchIdx : Nat)
  | invoke
  | handle (batchIdx : Nat)
  deriving DecidableEq, Repr

/-- A call with its code.  `stored` is what it stored to `new_`. -/
structure Entry where
  call : Call
  code : Int32
  stored : Option Bool
  deriving DecidableEq, Repr

/-- The state of a check.  The log has no counterpart in the program. -/
structure Machine (σ : Type) where
  state : σ
  new : Bool
  log : List Entry

/-- The flag is false before the first batch. -/
def Machine.initial {σ : Type} (state : σ) : Machine σ := ⟨state, false, []⟩

variable {σ : Type}

def mlifRequestInputs (hooks : Hooks σ) (batchIdx : Nat) : Prog (Machine σ) Int32 := do
  let s ← Prog.get
  let (code, stored, state) := hooks.processInputs batchIdx s.new s.state
  Prog.modify fun s => { s with
    state
    new := stored.getD s.new
    log := s.log ++ [⟨.request batchIdx, code, stored⟩] }
  pure code

def mlifInvoke (hooks : Hooks σ) : Prog (Machine σ) Int32 := do
  let s ← Prog.get
  let (code, state) := hooks.invoke s.state
  Prog.modify fun s => { s with state, log := s.log ++ [⟨.invoke, code, none⟩] }
  pure code

def mlifHandleResults (hooks : Hooks σ) (batchIdx : Nat) : Prog (Machine σ) Int32 := do
  let s ← Prog.get
  let (code, state) := hooks.processOutputs batchIdx s.state
  Prog.modify fun s => { s with state, log := s.log ++ [⟨.handle batchIdx, code, none⟩] }
  pure code

/-- The loop of `mlonmcu_check` over `batchIdx` and the `n - 1` batches after it. -/
def checkLoop (hooks : Hooks σ) : Nat → Nat → Int32 → Prog (Machine σ) Int32
  | 0, _, ret => pure ret
  | n + 1, batchIdx, _ => do
    let ret ← mlifRequestInputs hooks batchIdx
    if ret ≠ 0 then pure ret
    else do
      let s ← Prog.get
      if s.new = false then pure ret
      else do
        let ret ← mlifInvoke hooks
        if ret ≠ 0 then pure ret
        else do
          let ret ← mlifHandleResults hooks batchIdx
          if ret ≠ 0 then pure ret else checkLoop hooks n (batchIdx + 1) ret

def mlonmcuCheck (hooks : Hooks σ) (batchSize : Nat) : Prog (Machine σ) Int32 :=
  checkLoop hooks batchSize 0 0

/-! ### The default support -/

/-- What the default functions use of a generated wrapper. -/
structure Wrapper (σ : Type) where
  numInputs : Nat
  inputSz : Nat → Nat
  invoke : ModelState σ → Int32 × ModelState σ

/-- The default `mlif_process_inputs` sets each input to zero and stores true each time. -/
def mlifProcessInputs (w : Wrapper σ) (_batchIdx : Nat) (model : ModelState σ) :
    Int32 × Option Bool × ModelState σ :=
  let step := fun (acc : Option Bool × ModelState σ) i =>
    (some true, acc.2.copy i (List.replicate (w.inputSz i) 0))
  (0, (List.range w.numInputs).foldl step (none, model))

def mlifProcessOutputs (_batchIdx : Nat) (model : ModelState σ) : Int32 × ModelState σ := (0, model)

/-- The functions of a program that overrides none of them. -/
def Wrapper.defaultHooks (w : Wrapper σ) : Hooks (ModelState σ) where
  processInputs batchIdx _ model := mlifProcessInputs w batchIdx model
  invoke := w.invoke
  processOutputs := mlifProcessOutputs

theorem mlifProcessInputs_stored (w : Wrapper σ) (batchIdx : Nat) (model : ModelState σ) :
    (mlifProcessInputs w batchIdx model).2.1 = if w.numInputs = 0 then none else some true := by
  unfold mlifProcessInputs
  cases w.numInputs with
  | zero => rfl
  | succ n => simp [List.range_succ]

end Mlonmcu.V2
