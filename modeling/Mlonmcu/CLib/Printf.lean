import Mlonmcu.CLib.Decimal

/-! The conversions of `printf` with a width, lists of numbers as they are printed in a loop, and
texts that are passed as a format. -/

namespace CLib

def hexDigit (d : Nat) : UInt8 := UInt8.ofNat (if d < 10 then 48 + d else 87 + d)

/-- `%02x` of a byte. -/
def hexByte (b : UInt8) : Bytes := [hexDigit (b.toNat / 16), hexDigit (b.toNat % 16)]

/-- `%*s`: `text` in a field of `width` characters, on the left of the field when the width is
negative.  A text that is longer than the field is printed whole. -/
def padded (width : Int32) (text : Bytes) : Bytes :=
  let blanks := List.replicate (width.toInt.natAbs - text.length) 32
  if width < 0 then text ++ blanks else blanks ++ text

/-- A blank in a field is a field of blanks, with one blank when the width is 0. -/
theorem padded_blank (width : Int32) :
    padded width [32] = List.replicate (max 1 width.toInt.natAbs) 32 := by
  have h : max 1 width.toInt.natAbs = width.toInt.natAbs - 1 + 1 := by omega
  simp only [padded, List.length_singleton, h]
  split
  · rfl
  · exact List.replicate_succ'.symm

/-- The numbers of a list with a separator after each, as a loop prints them. -/
def eachThen (separator : Bytes) (numbers : List Nat) : Bytes :=
  numbers.flatMap fun n => decimal n ++ separator

/-- The numbers of a list with a separator between them. -/
def between (separator : Bytes) (numbers : List Nat) : Bytes :=
  separator.intercalate (numbers.map decimal)

@[simp] theorem eachThen_nil (separator : Bytes) : eachThen separator [] = [] := rfl

@[simp] theorem eachThen_cons (separator : Bytes) (n : Nat) (numbers : List Nat) :
    eachThen separator (n :: numbers) = decimal n ++ separator ++ eachThen separator numbers := by
  simp [eachThen]

theorem between_singleton (separator : Bytes) (n : Nat) : between separator [n] = decimal n := by
  simp [between]

theorem between_cons_cons (separator : Bytes) (n m : Nat) (numbers : List Nat) :
    between separator (n :: m :: numbers) =
      decimal n ++ separator ++ between separator (m :: numbers) := by
  simp [between, List.intercalate]

theorem eachThen_eq (separator : Bytes) (n : Nat) (numbers : List Nat) :
    eachThen separator (n :: numbers) = between separator (n :: numbers) ++ separator := by
  induction numbers generalizing n with
  | nil => simp [between_singleton]
  | cons m numbers ih => rw [eachThen_cons, ih, between_cons_cons, List.append_assoc]; simp

/-- What `printf` writes for a format without arguments.  The behavior of any directive other than
`%%` is undefined. -/
def expand : Bytes → Option Bytes
  | [] => some []
  | [c] => if c = 37 then none else some [c]
  | c :: d :: rest =>
    if c ≠ 37 then (expand (d :: rest)).map (c :: ·)
    else if d = 37 then (expand rest).map (37 :: ·)
    else none

theorem expand_eq_self {format : Bytes} (h : 37 ∉ format) : expand format = some format := by
  induction format using expand.induct with
  | case1 => rfl
  | case2 => simp at h
  | case3 c hc => rw [expand, if_neg hc]
  | case4 c d rest hc ih =>
    rw [expand, if_pos hc, ih fun hmem => h (List.mem_cons_of_mem _ hmem)]
    rfl
  | case5 c rest hc ih => exact absurd (not_not.mp hc ▸ List.mem_cons_self) h
  | case6 c d rest hc hd => exact absurd (not_not.mp hc ▸ List.mem_cons_self) h

/-- What is written has half of the percent signs of the format. -/
theorem count_expand {format text : Bytes} (h : expand format = some text) :
    2 * text.count 37 = format.count 37 ∧ text.length ≤ format.length := by
  induction format using expand.induct generalizing text with
  | case1 =>
    cases h
    exact ⟨rfl, Nat.le_refl 0⟩
  | case2 => simp [expand] at h
  | case3 c hc =>
    rw [expand, if_neg hc] at h
    cases h
    simp [hc]
  | case4 c d rest hc ih =>
    rw [expand, if_pos hc, Option.map_eq_some_iff] at h
    obtain ⟨tail, htail, rfl⟩ := h
    have hih := ih htail
    rw [List.count_cons_of_ne hc, List.count_cons_of_ne hc, List.length_cons, List.length_cons]
    exact ⟨hih.1, Nat.succ_le_succ hih.2⟩
  | case5 c rest hc ih =>
    rw [expand, if_neg hc, if_pos rfl, Option.map_eq_some_iff] at h
    obtain ⟨tail, htail, rfl⟩ := h
    have hih := ih htail
    rw [not_not.mp hc, List.count_cons_self, List.count_cons_self, List.count_cons_self,
      List.length_cons, List.length_cons, List.length_cons]
    omega
  | case6 c d rest hc hd =>
    rw [expand, if_neg hc, if_neg hd] at h
    cases h

end CLib
