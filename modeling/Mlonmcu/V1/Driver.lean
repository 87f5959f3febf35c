import Mlonmcu.V1.Interface

/-! `mlonmcu_run` and `mlonmcu_check` of the five backends of the first interface version. -/

namespace Mlonmcu.V1

open CLib

variable {σ : Type}

/-- The loop over the outputs `i` and the `n - 1` ones after it. -/
def handleLoop (w : Wrapper σ) (data : DataSet) : Nat → Nat → Prog (Machine σ) Int32
  | 0, _ => pure 0
  | n + 1, i => do
    let ret ← mlifHandleResult data i (w.outputSize i)
    if ret ≠ 0 then pure ret else handleLoop w data n (i + 1)

/-- The loop of `mlonmcu_check`, for at most `fuel` requests, at the input `inputNum`.  The number
before the number of inputs is the largest `size_t` when there are no inputs, and is not reached. -/
def checkLoop (w : Wrapper σ) (data : DataSet) : Nat → Nat → Prog (Machine σ) Int32
  | 0, _ => Prog.timeout
  | fuel + 1, inputNum => do
    let (ret, new) ← mlifRequestInput data inputNum (w.inputSize inputNum)
    if ret ≠ 0 then pure ret
    else if new = false then pure ret
    else if inputNum + 1 = w.numInputs then do
      let ret ← w.run
      if ret ≠ 0 then pure ret
      else do
        let ret ← handleLoop w data w.numOutputs 0
        if ret ≠ 0 then pure ret else checkLoop w data fuel 0
    else checkLoop w data fuel (inputNum + 1)

/-- The loop of `mlonmcu_run`, for `remaining` invocations. -/
def runLoop (w : Wrapper σ) : Nat → Prog (Machine σ) Int32
  | 0 => pure 0
  | remaining + 1 => do
    let ret ← w.run
    if ret ≠ 0 then pure ret else runLoop w remaining

/-- The loop of `mlonmcu_run` in the backends that return the last code, which is `ret` before the
first invocation. -/
def runLoopRet (w : Wrapper σ) : Nat → Int32 → Prog (Machine σ) Int32
  | 0, ret => pure ret
  | remaining + 1, _ => do
    let ret ← w.run
    if ret ≠ 0 then pure ret else runLoopRet w remaining ret

namespace Tvm

def mlonmcuRun (w : Wrapper σ) (numRuns : Nat) : Prog (Machine σ) Int32 := runLoop w numRuns

def mlonmcuCheck (w : Wrapper σ) (data : DataSet) (fuel : Nat) : Prog (Machine σ) Int32 :=
  checkLoop w data fuel 0

end Tvm

namespace Iree

def mlonmcuRun (w : Wrapper σ) (numRuns : Nat) : Prog (Machine σ) Int32 := runLoop w numRuns

def mlonmcuCheck (w : Wrapper σ) (data : DataSet) (fuel : Nat) : Prog (Machine σ) Int32 :=
  checkLoop w data fuel 0

end Iree

namespace Tflm

/-- `ret` is not initialized. -/
def mlonmcuRun (w : Wrapper σ) (numRuns : Nat) (ret : Int32) : Prog (Machine σ) Int32 :=
  runLoopRet w numRuns ret

def mlonmcuCheck (w : Wrapper σ) (data : DataSet) (fuel : Nat) : Prog (Machine σ) Int32 :=
  checkLoop w data fuel 0

end Tflm

namespace Executorch

/-- `ret` is not initialized. -/
def mlonmcuRun (w : Wrapper σ) (numRuns : Nat) (ret : Int32) : Prog (Machine σ) Int32 :=
  runLoopRet w numRuns ret

def mlonmcuCheck (w : Wrapper σ) (data : DataSet) (fuel : Nat) : Prog (Machine σ) Int32 :=
  checkLoop w data fuel 0

end Executorch

namespace Emx

/-- The loop of `mlonmcu_run`, which invokes the model twice and does not look at the codes. -/
def runLoop (w : Wrapper σ) : Nat → Prog (Machine σ) Int32
  | 0 => pure 0
  | remaining + 1 => do
    let _ ← w.run
    let _ ← w.run
    runLoop w remaining

def mlonmcuRun (w : Wrapper σ) (numRuns : Nat) : Prog (Machine σ) Int32 := runLoop w numRuns

/-- The loop of `mlonmcu_check`, which does not look at the code of the invocation. -/
def checkLoop (w : Wrapper σ) (data : DataSet) : Nat → Nat → Prog (Machine σ) Int32
  | 0, _ => Prog.timeout
  | fuel + 1, inputNum => do
    let (ret, new) ← mlifRequestInput data inputNum (w.inputSize inputNum)
    if ret ≠ 0 then pure ret
    else if new = false then pure ret
    else if inputNum + 1 = w.numInputs then do
      let _ ← w.run
      let ret ← handleLoop w data w.numOutputs 0
      if ret ≠ 0 then pure ret else checkLoop w data fuel 0
    else checkLoop w data fuel (inputNum + 1)

def mlonmcuCheck (w : Wrapper σ) (data : DataSet) (fuel : Nat) : Prog (Machine σ) Int32 :=
  checkLoop w data fuel 0

end Emx

inductive Backend
  | tvm
  | iree
  | tflm
  | executorch
  | emx
  deriving DecidableEq, Repr

/-- `mlonmcu_run` of a backend, with the value of `ret` that some backends do not initialize. -/
def Backend.mlonmcuRun (backend : Backend) (w : Wrapper σ) (numRuns : Nat) (ret : Int32) :
    Prog (Machine σ) Int32 :=
  match backend with
  | tvm => Tvm.mlonmcuRun w numRuns
  | iree => Iree.mlonmcuRun w numRuns
  | tflm => Tflm.mlonmcuRun w numRuns ret
  | executorch => Executorch.mlonmcuRun w numRuns ret
  | emx => Emx.mlonmcuRun w numRuns

def Backend.mlonmcuCheck (backend : Backend) (w : Wrapper σ) (data : DataSet) (fuel : Nat) :
    Prog (Machine σ) Int32 :=
  match backend with
  | tvm => Tvm.mlonmcuCheck w data fuel
  | iree => Iree.mlonmcuCheck w data fuel
  | tflm => Tflm.mlonmcuCheck w data fuel
  | executorch => Executorch.mlonmcuCheck w data fuel
  | emx => Emx.mlonmcuCheck w data fuel

theorem Backend.mlonmcuCheck_eq {backend : Backend} (h : backend ≠ .emx) (w : Wrapper σ)
    (data : DataSet) (fuel : Nat) : backend.mlonmcuCheck w data fuel = checkLoop w data fuel 0 := by
  cases backend
  case emx => exact absurd rfl h
  all_goals rfl

end Mlonmcu.V1
