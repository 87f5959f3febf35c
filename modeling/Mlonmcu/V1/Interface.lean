import Mlonmcu.CLib.Prog
import Mlonmcu.Model

/-! The hooks of `ml_interface.c` and the default support of the first interface version. -/

namespace Mlonmcu.V1

open CLib

/-- What a generated wrapper reports, with the invocation of the model. -/
structure Wrapper (σ : Type) where
  numInputs : Nat
  numOutputs : Nat
  inputSize : Nat → Nat
  outputSize : Nat → Nat
  invoke : ModelState σ → Int32 × ModelState σ

/-- The input and the expected output buffers, in numbers of type `int`. -/
structure DataSet where
  inputs : List Bytes
  outputs : List Bytes
  inputs_length : inputs.length ≤ Prog.intMax
  outputs_length : outputs.length ≤ Prog.intMax

/-- What a driver does: it requests a buffer for an input, if there is one, invokes the model on
the memory that it sees, and handles the contents of an output together with the expected buffer
that they are compared with, if there is one. -/
inductive Event (σ : Type)
  | request (input : Nat) (buffer : Option Nat)
  | invoke (seen : ModelState σ)
  | handle (output : Nat) (contents : Bytes) (expected : Option Nat)

/-- The state of a driver: the model and the counters `num_done` of the two hooks.  The log has no
counterpart in the program. -/
structure Machine (σ : Type) where
  model : ModelState σ
  inDone : Nat
  outDone : Nat
  log : List (Event σ)

/-- The counters are static, and start at 0. -/
def Machine.initial {σ : Type} (model : ModelState σ) : Machine σ := ⟨model, 0, 0, []⟩

def exitMlifInvalidSize : Int32 := 0x11

def exitMlifMissmatch : Int32 := 0x12

variable {σ : Type}

def record (event : Event σ) : Prog (Machine σ) Unit :=
  Prog.modify fun s => { s with log := s.log ++ [event] }

/-- `mlif_process_input` for the input `i` of the model. -/
def mlifProcessInput (inData : Bytes) (i modelInputSz : Nat) : Prog (Machine σ) Int32 :=
  if inData.length ≠ 0 ∧ inData.length ≠ modelInputSz then pure exitMlifInvalidSize
  else do
    Prog.modify fun s => { s with model := s.model.copy i inData }
    pure 0

/-- `mlif_process_output` for the output `i` of the model. -/
def mlifProcessOutput (i modelOutputSz : Nat) (expected : Bytes) : Prog (Machine σ) Int32 := do
  let s ← Prog.get
  if modelOutputSz = expected.length ∧ (s.model.outputs i).load modelOutputSz = expected then pure 0
  else Prog.exit exitMlifMissmatch

/-- `mlif_request_input`, with the value that it stores to `new_`. -/
def mlifRequestInput (data : DataSet) (i modelInputSz : Nat) : Prog (Machine σ) (Int32 × Bool) := do
  let s ← Prog.get
  if s.inDone = data.inputs.length then do
    record (.request i none)
    pure (0, false)
  else
    match data.inputs[s.inDone]? with
    | none => Prog.fault .outOfBounds
    | some buffer => do
      record (.request i (some s.inDone))
      let ret ← mlifProcessInput buffer i modelInputSz
      let inDone ← Prog.increment s.inDone
      Prog.modify fun s => { s with inDone }
      pure (ret, true)

def mlifHandleResult (data : DataSet) (i modelOutputSz : Nat) : Prog (Machine σ) Int32 := do
  let s ← Prog.get
  let contents := (s.model.outputs i).load modelOutputSz
  if data.outputs.length = 0 then do
    record (.handle i contents none)
    pure 0
  else do
    let ret ←
      if s.outDone < data.outputs.length then
        match data.outputs[s.outDone]? with
        | none => Prog.fault .outOfBounds
        | some expected => do
          record (.handle i contents (some s.outDone))
          mlifProcessOutput i modelOutputSz expected
      else do
        record (.handle i contents none)
        pure 0
    let outDone ← Prog.increment s.outDone
    Prog.modify fun s => { s with outDone }
    pure ret

def Wrapper.run (w : Wrapper σ) : Prog (Machine σ) Int32 := do
  let s ← Prog.get
  record (.invoke s.model)
  Prog.modify fun s => { s with model := (w.invoke s.model).2 }
  pure (w.invoke s.model).1

end Mlonmcu.V1
