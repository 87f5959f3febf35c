import Mlonmcu.CLib.Printf
import Mlonmcu.Mlifio.Status
import Mlonmcu.Mlifio.ToFile

/-! Headers of `.npy` files in the canonical layout, and what `mlifio_from_file` takes from them. -/

namespace Mlonmcu.Mlifio

open CLib

/-- The two characters of the type in an `.npy` header. -/
def MlifDatatype.tag (t : MlifDatatype) : Bytes := t.type :: decimal t.size

/-- The dictionary of a header. -/
def dictionary (byteOrder : UInt8) (t : MlifDatatype) (order : MlifDataOrder)
    (extents : List Nat) : Bytes :=
  ascii "\x7b'descr': '" ++ [byteOrder] ++ t.tag ++ ascii "', 'fortran_order': " ++ order.text ++
    ascii ", 'shape': (" ++ between (ascii ", ") extents ++ ascii "), \x7d"

/-- The bytes of a header of `length` bytes, which ends with blanks and a newline. -/
def headerBytes (length : UInt16) (dictionary : Bytes) : Bytes :=
  magicString ++ littleEndian16 length ++ dictionary ++
    List.replicate (length.toNat - (dictionary.length + 1)) 32 ++ [10]

theorem length_headerBytes {length : UInt16} {dictionary : Bytes}
    (h : dictionary.length + 1 ≤ length.toNat) :
    (headerBytes length dictionary).length = 10 + length.toNat := by
  have hmagic : magicString.length = 8 := rfl
  simp [headerBytes, littleEndian16, hmagic]
  omega

theorem datatypeOf_tag (t : MlifDatatype) : datatypeOf (t.tag ++ [0]) = t := by cases t <;> rfl

theorem tag_eq (t : MlifDatatype) : t.tag = [t.tag.getD 0 0, t.tag.getD 1 0] := by cases t <;> rfl

/-! ### The fixed positions -/

section

variable (length : UInt16) (byteOrder : UInt8) (t : MlifDatatype) (order : MlifDataOrder)
  (extents : List Nat) (rest : Bytes)

theorem headerLength_npy :
    headerLength (magicString ++ littleEndian16 length ++ rest) = length.toNat := by
  have h := length.toNat_lt
  show (UInt8.ofNat (length.toNat % 256)).toNat + 256 * (UInt8.ofNat (length.toNat / 256)).toNat = _
  rw [UInt8.toNat_ofNat', UInt8.toNat_ofNat']
  omega

theorem fileHeader_npy (charSigned : Bool) {stack : Vector UInt8 3} (hstack : stack.get 2 = 0) :
    fileHeader charSigned stack
        (magicString ++ littleEndian16 length ++ dictionary byteOrder t order extents ++ rest) =
      ⟨headerOffset charSigned (littleEndian16 length), t, order⟩ := by
  have hdtype : datatypeOf [t.tag.getD 0 0, t.tag.getD 1 0, 0] = t := by
    conv_rhs => rw [← datatypeOf_tag t, tag_eq]
    rfl
  rw [fileHeader, hstack, dictionary, tag_eq, Header.mk.injEq]
  refine ⟨rfl, hdtype, ?_⟩
  cases order <;> rfl

theorem drop_dictionary_cOrder :
    (magicString ++ littleEndian16 length ++ dictionary byteOrder t .cOrder extents ++
        rest).drop 61 =
      between (ascii ", ") extents ++ (ascii "), \x7d" ++ rest) := by
  rw [dictionary, tag_eq]
  simp only [List.append_assoc]
  rfl

/-- The extents start at byte 60 when the storage order is spelled `True`. -/
theorem drop_dictionary_fortranOrder :
    (magicString ++ littleEndian16 length ++ dictionary byteOrder t .fortranOrder extents ++
        rest).drop 60 =
      between (ascii ", ") extents ++ (ascii "), \x7d" ++ rest) := by
  rw [dictionary, tag_eq]
  simp only [List.append_assoc]
  rfl

theorem length_dictionary : (dictionary byteOrder t order extents).length =
    50 + order.text.length + (between (ascii ", ") extents).length := by
  rw [dictionary, tag_eq]
  simp [ascii]
  omega

end

/-! ### The counts -/

/-- The field that a scan for a comma takes from the text. -/
theorem CountField.eq_takeWhile {text field tail : Bytes} (h : CountField text field tail) :
    field = text.takeWhile (· ≠ 44) := by
  rw [h.split, List.takeWhile_append_of_pos fun c hc => by
    have : c ≠ 44 := fun h44 => h.noComma (h44 ▸ hc)
    simpa using this]
  simp

theorem CountField.unique {text field tail field' tail' : Bytes} (h : CountField text field tail)
    (h' : CountField text field' tail') : field = field' ∧ tail = tail' := by
  have hfield : field = field' := h.eq_takeWhile.trans h'.eq_takeWhile.symm
  refine ⟨hfield, ?_⟩
  have := h.split.symm.trans h'.split
  rw [hfield] at this
  simpa using List.append_cancel_left this

theorem Counted.unique {bytes first second first' second' : Bytes}
    (h : Counted bytes first second) (h' : Counted bytes first' second') :
    first = first' ∧ second = second' := by
  obtain ⟨tail, rest, h1, h2⟩ := h.fields
  obtain ⟨tail', rest', h1', h2'⟩ := h'.fields
  obtain ⟨hfirst, rfl⟩ := h1.unique h1'
  exact ⟨hfirst, (h2.unique h2').1⟩

theorem filter_decimal (n : Nat) : (decimal n).filter isDigit = decimal n :=
  List.filter_eq_self.mpr fun _ => isDigit_of_mem_decimal

theorem countField_digits {digits : Bytes} (hd : ∀ c ∈ digits, isDigit c = true)
    (hlen : digits.length ≤ 9) (punctuation : Bytes)
    (hp : ∀ c ∈ punctuation, c ≠ 44 ∧ isDigit c = false) (tail : Bytes) :
    CountField (digits ++ punctuation ++ 44 :: tail) (digits ++ punctuation) tail := by
  refine ⟨rfl, ?_, ?_⟩
  · rw [List.mem_append]
    rintro (h | h)
    · exact absurd (hd 44 h) (by decide)
    · exact (hp 44 h).1 rfl
  · rw [List.filter_append, List.filter_eq_self.mpr hd,
      List.filter_eq_nil_iff.mpr fun c hc => by simp [(hp c hc).2], List.append_nil]
    exact hlen

theorem countField_decimal {n : Nat} (hn : n < 10 ^ 9) (punctuation : Bytes)
    (hp : ∀ c ∈ punctuation, c ≠ 44 ∧ isDigit c = false) (tail : Bytes) :
    CountField (decimal n ++ punctuation ++ 44 :: tail) (decimal n ++ punctuation) tail :=
  countField_digits (fun _ => isDigit_of_mem_decimal) (decimal_length_le (by decide) hn)
    punctuation hp tail

theorem countOf_decimal (n : Nat) (punctuation : Bytes)
    (hp : ∀ c ∈ punctuation, c ≠ 44 ∧ isDigit c = false) :
    countOf (decimal n ++ punctuation) = n := by
  have hdigits : punctuation.filter isDigit = [] :=
    List.filter_eq_nil_iff.mpr fun c hc => by simp [(hp c hc).2]
  rw [countOf, List.filter_append, hdigits, filter_decimal, List.append_nil, digitsValue_decimal]

/-- What stands between the second extent and the comma after it. -/
def afterSecond (shape : List Nat) : Bytes := if shape = [] then ascii ")" else []

/-- The text after the second extent and its comma. -/
def afterCounts (shape : List Nat) (rest : Bytes) : Bytes :=
  match shape with
  | [] => ascii " \x7d" ++ rest
  | _ :: _ => ascii " " ++ between (ascii ", ") shape ++ ascii "), \x7d" ++ rest

theorem between_extents (nbatch per : Nat) (shape : List Nat) (rest : Bytes) :
    between (ascii ", ") (nbatch :: per :: shape) ++ (ascii "), \x7d" ++ rest) =
      decimal nbatch ++ 44 :: 32 :: (decimal per ++ afterSecond shape ++
        44 :: afterCounts shape rest) := by
  cases shape with
  | nil =>
    rw [between_cons_cons, between_singleton]
    simp [ascii, afterSecond, afterCounts]
  | cons n shape =>
    rw [between_cons_cons, between_cons_cons]
    simp [ascii, afterSecond, afterCounts]

theorem afterSecond_punctuation (shape : List Nat) :
    ∀ c ∈ afterSecond shape, c ≠ 44 ∧ isDigit c = false := by
  cases shape <;> simp [afterSecond, ascii, isDigit]

theorem counted_npy (length : UInt16) (byteOrder : UInt8) (t : MlifDatatype) {nbatch per : Nat}
    (hpos : 0 < nbatch) (hnbatch : nbatch < 10 ^ 9) (hper : per < 10 ^ 9) (shape : List Nat)
    (rest : Bytes) :
    Counted (magicString ++ littleEndian16 length ++
        dictionary byteOrder t .cOrder (nbatch :: per :: shape) ++ rest)
      (decimal nbatch) (decimal per ++ afterSecond shape) := by
  have hfirst := countField_decimal hnbatch [] (by simp)
    (32 :: (decimal per ++ afterSecond shape ++ 44 :: afterCounts shape rest))
  have hcount := countOf_decimal nbatch [] (by simp)
  rw [List.append_nil] at hfirst hcount
  refine ⟨⟨32 :: _, afterCounts shape rest, ?_,
    countField_decimal hper (afterSecond shape) (afterSecond_punctuation shape) _⟩, ?_⟩
  · rw [drop_dictionary_cOrder, between_extents]
    exact hfirst
  · rw [hcount]
    omega

end Mlonmcu.Mlifio
