import Mathlib.Data.UInt
import Mathlib.Data.List.TakeWhile

/-! Bytes, strings that end at a NUL, and memory. -/

namespace CLib

abbrev Bytes := List UInt8

/-- The bytes of an ASCII text. -/
def ascii (text : String) : Bytes := text.toList.map fun c => UInt8.ofNat c.toNat

/-- The C string that starts at the first byte. -/
def cString (bytes : Bytes) : Bytes := bytes.takeWhile (· ≠ 0)

/-- `bytes` stored over the start of `old`. -/
def overwrite (bytes old : Bytes) : Bytes := bytes ++ old.drop bytes.length

/-- The bytes from a pointer on. -/
abbrev Memory := Nat → UInt8

def Memory.load (m : Memory) (n : Nat) : Bytes := (List.range n).map m

/-- `bytes` stored at the pointer. -/
def Memory.store (m : Memory) (bytes : Bytes) : Memory := fun i => bytes[i]?.getD (m i)

/-- The memory from the `i`-th byte on. -/
def Memory.drop (m : Memory) (i : Nat) : Memory := fun j => m (i + j)

theorem length_cString_le (bytes : Bytes) : (cString bytes).length ≤ bytes.length :=
  (List.takeWhile_sublist _).length_le

theorem cString_eq_self {bytes : Bytes} (h : 0 ∉ bytes) : cString bytes = bytes :=
  List.takeWhile_eq_self_iff.mpr fun c hc => by
    have : c ≠ 0 := fun h0 => h (h0 ▸ hc)
    simpa using this

/-- The string of joined bytes goes into the second part only when the first one has no NUL. -/
theorem cString_append (a b : Bytes) :
    cString (a ++ b) = if 0 ∈ a then cString a else a ++ cString b := by
  induction a with
  | nil => rfl
  | cons c a ih =>
    by_cases hc : c = 0
    · simp [cString, hc]
    · have hmem : 0 ∈ c :: a ↔ 0 ∈ a := by simp [Ne.symm hc]
      simp only [cString, List.cons_append, List.takeWhile_cons, hc, ne_eq, not_false_eq_true,
        decide_true, ↓reduceIte, hmem] at ih ⊢
      rw [ih]
      split <;> rfl

theorem length_cString_lt {bytes : Bytes} (h : 0 ∈ bytes) :
    (cString bytes).length < bytes.length := by
  refine (length_cString_le bytes).lt_of_ne fun heq => ?_
  have hself : cString bytes = bytes := (List.takeWhile_sublist _).eq_of_length heq
  simpa using List.takeWhile_eq_self_iff.mp hself 0 h

@[simp] theorem Memory.length_load (m : Memory) (n : Nat) : (m.load n).length = n := by
  simp [Memory.load]

theorem Memory.getElem_load (m : Memory) {n i : Nat} (h : i < (m.load n).length) :
    (m.load n)[i] = m i := by
  simp [Memory.load]

theorem Memory.load_getElem? (m : Memory) {n i : Nat} (h : i < n) :
    (m.load n)[i]? = some (m i) := by
  simp [Memory.load, h]

@[simp] theorem Memory.drop_zero (m : Memory) : m.drop 0 = m :=
  funext fun j => congrArg m (Nat.zero_add j)

theorem Memory.load_add (m : Memory) (n k : Nat) :
    m.load (n + k) = m.load n ++ (m.drop n).load k := by
  rw [Memory.load, List.range_add, List.map_append, List.map_map]
  rfl

theorem Memory.store_of_lt (m : Memory) {bytes : Bytes} {i : Nat} (h : i < bytes.length) :
    m.store bytes i = bytes[i] := by
  simp [Memory.store, h]

theorem Memory.store_of_le (m : Memory) {bytes : Bytes} {i : Nat} (h : bytes.length ≤ i) :
    m.store bytes i = m i := by
  simp [Memory.store, h]

@[simp] theorem Memory.store_nil (m : Memory) : m.store [] = m := rfl

theorem Memory.load_store (m : Memory) (bytes : Bytes) :
    (m.store bytes).load bytes.length = bytes := by
  apply List.ext_getElem (by simp)
  intro i h _
  rw [Memory.getElem_load, Memory.store_of_lt]

end CLib
