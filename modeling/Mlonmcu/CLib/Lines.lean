import Mlonmcu.CLib.Decimal
import Mlonmcu.CLib.Printf

/-! `fgets` and `strtok`: lines of input and the tokens of a line. -/

namespace CLib

/-- The characters up to a newline, which is one of them, and at most `n`. -/
def takeLine : Nat → Bytes → Bytes
  | 0, _ => []
  | _ + 1, [] => []
  | n + 1, c :: input => if c = 10 then [c] else c :: takeLine n input

/-- `fgets` to a buffer of `size` bytes, with the input that is left.  The NUL that it stores is not
part of the result. -/
def fgets (size : Nat) (input : Bytes) : Option (Bytes × Bytes) :=
  if input = [] then none
  else
    let line := takeLine (size - 1) input
    some (line, input.drop line.length)

/-- The tokens that calls of `strtok` with one delimiter return before a null pointer. -/
def strtok (delimiter : UInt8) (text : Bytes) : List Bytes :=
  (text.splitOn delimiter).filter (· ≠ [])

/-- The lines of a text, each with its newline, which the last one may lack. -/
def textLines : Bytes → List Bytes
  | [] => []
  | c :: text =>
    if c = 10 then [c] :: textLines text
    else
      match textLines text with
      | [] => [[c]]
      | line :: lines => (c :: line) :: lines

/-- A text in pieces of `n` characters, of which the last may have less. -/
def pieces (n : Nat) (text : Bytes) : List Bytes :=
  if 0 < n ∧ 0 < text.length then text.take n :: pieces n (text.drop n) else []
termination_by text.length
decreasing_by
  rw [List.length_drop]
  omega

theorem takeLine_line {text : Bytes} (h : 10 ∉ text) {n : Nat} (hn : text.length < n)
    (rest : Bytes) : takeLine n (text ++ 10 :: rest) = text ++ [10] := by
  induction text generalizing n with
  | nil =>
    obtain ⟨n, rfl⟩ : ∃ m, n = m + 1 := ⟨n - 1, by simp at hn; omega⟩
    rfl
  | cons c text ih =>
    obtain ⟨n, rfl⟩ : ∃ m, n = m + 1 := ⟨n - 1, by simp at hn; omega⟩
    have hc : c ≠ 10 := fun hc => h (by simp [hc])
    rw [List.cons_append, takeLine, if_neg hc, ih (fun ht => h (List.mem_cons_of_mem _ ht))
      (by simpa using hn)]
    rfl

/-- A line that does not fit, or input without a newline. -/
theorem takeLine_full {text : Bytes} (h : 10 ∉ text) {n : Nat} {rest : Bytes}
    (hn : n ≤ text.length ∨ rest = []) : takeLine n (text ++ rest) = text.take n := by
  induction text generalizing n with
  | nil =>
    cases n with
    | zero => rfl
    | succ n =>
      obtain rfl : rest = [] := by simpa using hn
      rfl
  | cons c text ih =>
    cases n with
    | zero => rfl
    | succ n =>
      have hc : c ≠ 10 := fun hc => h (by simp [hc])
      rw [List.cons_append, takeLine, if_neg hc, ih (fun ht => h (List.mem_cons_of_mem _ ht))
        (by simpa using hn)]
      rfl

theorem fgets_length {size : Nat} (hsize : 1 < size) {input line rest : Bytes}
    (h : fgets size input = some (line, rest)) : rest.length < input.length := by
  unfold fgets at h
  split at h
  · simp at h
  · next hne =>
    obtain ⟨hline, hrest⟩ : takeLine (size - 1) input = line ∧ input.drop line.length = rest := by
      simp only [Option.some.injEq, Prod.mk.injEq] at h
      exact ⟨h.1, h.1 ▸ h.2⟩
    obtain ⟨c, input, rfl⟩ := List.exists_cons_of_ne_nil hne
    obtain ⟨n, hn⟩ : ∃ n, size - 1 = n + 1 := ⟨size - 2, by omega⟩
    have hpos : 0 < line.length := by
      rw [← hline, hn, takeLine]
      split <;> simp
    rw [← hrest, List.length_drop, List.length_cons]
    omega

theorem takeLine_length_le (n : Nat) (input : Bytes) : (takeLine n input).length ≤ n := by
  induction n generalizing input with
  | zero => simp [takeLine]
  | succ n ih =>
    cases input with
    | nil => simp [takeLine]
    | cons c input =>
      rw [takeLine]
      split
      · simp
      · simpa using ih input

theorem fgets_line_length {size : Nat} {input line rest : Bytes}
    (h : fgets size input = some (line, rest)) : line.length ≤ size - 1 := by
  unfold fgets at h
  split at h
  · simp at h
  · rw [Option.some.injEq, Prod.mk.injEq] at h
    rw [← h.1]
    exact takeLine_length_le _ _

/-! ### Lines in pieces -/

variable {delimiter : UInt8}

@[simp] theorem strtok_nil : strtok delimiter [] = [] := by simp [strtok, List.splitOn_nil]

/-- Texts with delimiters between them are the tokens, up to an empty last text. -/
theorem strtok_intercalate {texts : List Bytes} (h : ∀ text ∈ texts, delimiter ∉ text)
    (hne : ∀ text ∈ texts, text ≠ []) {last : Bytes} (hlast : delimiter ∉ last) :
    strtok delimiter ([delimiter].intercalate (texts ++ [last])) =
      texts ++ if last = [] then [] else [last] := by
  have hall : ∀ text ∈ texts ++ [last], delimiter ∉ text := by
    intro text ht
    rcases List.mem_append.mp ht with ht | ht
    · exact h text ht
    · exact List.mem_singleton.mp ht ▸ hlast
  have hfilter : texts.filter (· ≠ []) = texts :=
    List.filter_eq_self.mpr fun text ht => by simpa using hne text ht
  rw [strtok, List.splitOn_intercalate _ hall (by simp), List.filter_append, hfilter]
  split <;> simp [*]

theorem intercalate_append_last (separator : Bytes) (texts : List Bytes) (last more : Bytes) :
    separator.intercalate (texts ++ [last ++ more]) =
      separator.intercalate (texts ++ [last]) ++ more := by
  induction texts with
  | nil => simp
  | cons text texts ih =>
    rw [List.cons_append, List.cons_append, List.intercalate_cons_of_ne_nil (by simp),
      List.intercalate_cons_of_ne_nil (by simp), ih]
    simp only [List.append_assoc]

/-- A character makes a new token when it is no delimiter and no token starts after it. -/
theorem length_strtok_cons (c : UInt8) (text : Bytes) :
    (strtok delimiter (c :: text)).length = (strtok delimiter text).length +
      if c ≠ delimiter ∧ text.headD delimiter = delimiter then 1 else 0 := by
  have hhead : (text.splitOn delimiter).head? = some [] ↔ text.headD delimiter = delimiter := by
    cases text with
    | nil => simp [List.splitOn_nil]
    | cons d text =>
      rw [List.splitOn_cons_eq_if_modifyHead]
      obtain ⟨first, texts, hsplit⟩ :=
        List.exists_cons_of_ne_nil (List.splitOn_ne_nil delimiter text)
      by_cases hd : d = delimiter <;> simp [hd, hsplit]
  rw [strtok, strtok, List.splitOn_cons_eq_if_modifyHead]
  simp only [← hhead]
  obtain ⟨first, texts, hsplit⟩ :=
    List.exists_cons_of_ne_nil (List.splitOn_ne_nil delimiter text)
  by_cases hc : c = delimiter
  · simp [hc]
  · cases first <;> simp [hc, hsplit]

theorem strtok_pos {c : UInt8} (hc : c ≠ delimiter) (text : Bytes) :
    0 < (strtok delimiter (c :: text)).length := by
  induction text generalizing c with
  | nil => simp [length_strtok_cons, hc]
  | cons d text ih =>
    rw [length_strtok_cons]
    by_cases hd : d = delimiter
    · simp [hc, hd]
    · exact Nat.lt_add_right _ (ih hd)

theorem length_strtok_le (delimiter : UInt8) (text more : Bytes) :
    (strtok delimiter text).length ≤ (strtok delimiter (text ++ more)).length := by
  induction text with
  | nil => simp
  | cons c text ih =>
    cases text with
    | nil =>
      rw [length_strtok_cons]
      by_cases hc : c = delimiter
      · simp [hc]
      · simpa [hc] using Nat.succ_le_of_lt (strtok_pos hc more)
    | cons d text =>
      rw [List.cons_append, length_strtok_cons c, length_strtok_cons c]
      exact Nat.add_le_add_right ih _

theorem length_strtok (delimiter : UInt8) (text : Bytes) :
    (strtok delimiter text).length ≤ text.length := by
  induction text with
  | nil => simp
  | cons c text ih =>
    rw [length_strtok_cons, List.length_cons]
    split <;> omega

end CLib
