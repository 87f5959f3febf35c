import Mlonmcu.CLib.Bytes

/-! A model as its drivers see it: the memory at the pointers that its generated wrapper returns. -/

namespace Mlonmcu

open CLib

/-- The state of a model: what its input and output pointers point to, and the rest. -/
structure ModelState (σ : Type) where
  internal : σ
  inputs : Nat → Memory
  outputs : Nat → Memory

variable {σ : Type}

def ModelState.copy (model : ModelState σ) (i : Nat) (bytes : Bytes) : ModelState σ :=
  { model with inputs := Function.update model.inputs i ((model.inputs i).store bytes) }

end Mlonmcu
