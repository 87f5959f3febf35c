import Mlonmcu.Mlifio.Rows

/-! Matrices that `mlifio_from_stdin` reads in mode `MLIF_STDIO_PLAIN`: every row has to fit the
buffer of `fgets`. -/

namespace Mlonmcu.Mlifio

open CLib

/-! ### Lines -/

/-- Text in which no line and no string ends. -/
def Inline (text : Bytes) : Prop := ∀ c ∈ text, c ≠ 10 ∧ c ≠ 0

theorem inline_rowText (row : List UInt8) : Inline (rowText row) := fun _ hc =>
  ⟨fun h => not_mem_rowText (by decide) (by decide) row (h ▸ hc),
    fun h => not_mem_rowText (by decide) (by decide) row (h ▸ hc)⟩

theorem lines_newline (rest : Bytes) : lines (10 :: rest) = [] :=
  @lines_break (10 :: rest) [10] rest rfl (by decide)

theorem lines_line {text : Bytes} (h : Inline text) (hne : text ≠ [])
    (hlen : text.length < bufferSize - 1) (rest : Bytes) :
    lines (text ++ 10 :: rest) = (text ++ [10]) :: lines rest := by
  have hget : fgets bufferSize (text ++ 10 :: rest) = some (text ++ [10], rest) := by
    have hline := takeLine_line (fun h10 => (h 10 h10).1 rfl) hlen rest
    simp [fgets, hline]
  have hself : cString (text ++ [10]) = text ++ [10] := by
    apply cString_eq_self
    intro h0
    rcases List.mem_append.mp h0 with h0 | h0
    · exact (h 0 h0).2 rfl
    · simp at h0
  have hbreak : cString (text ++ [10]) ≠ ascii "\n" := by
    rw [hself]
    intro heq
    exact hne (by simpa [ascii] using congrArg List.length heq)
  rw [lines_cons hget hbreak, hself]

/-- Text that fills the buffer, or that the input ends with. -/
theorem lines_full {text rest : Bytes} (h : Inline text) (hne : text ≠ [])
    (hlen : bufferSize - 1 ≤ text.length ∨ rest = []) :
    lines (text ++ rest) = text.take (bufferSize - 1) ::
      lines (text.drop (bufferSize - 1) ++ rest) := by
  have hline := takeLine_full (fun h10 => (h 10 h10).1 rfl) hlen
  have hdrop : (text ++ rest).drop (text.take (bufferSize - 1)).length =
      text.drop (bufferSize - 1) ++ rest := by
    conv_lhs => rw [← List.take_append_drop (bufferSize - 1) text, List.append_assoc]
    simp
  have hget : fgets bufferSize (text ++ rest) =
      some (text.take (bufferSize - 1), text.drop (bufferSize - 1) ++ rest) := by
    rw [fgets, if_neg (by simp [hne])]
    simp only [hline, hdrop]
  have hself : cString (text.take (bufferSize - 1)) = text.take (bufferSize - 1) :=
    cString_eq_self fun h0 => (h 0 (List.mem_of_mem_take h0)).2 rfl
  have hbreak : cString (text.take (bufferSize - 1)) ≠ ascii "\n" := by
    rw [hself]
    intro heq
    have : (10 : UInt8) ∈ text.take (bufferSize - 1) := by rw [heq]; decide
    exact (h 10 (List.mem_of_mem_take this)).1 rfl
  rw [lines_cons hget hbreak, hself]

/-! ### Matrices -/

/-- What follows the last row: a newline and the end of the input, the end of the input, or an
empty line and more text. -/
inductive Ending
  | newline
  | endOfInput
  | emptyLine (rest : Bytes)

def Ending.text : Ending → Bytes
  | newline => [10]
  | endOfInput => []
  | emptyLine rest => 10 :: 10 :: rest

/-- The rows of a matrix on lines of their own. -/
def matrixText (rows : List (List UInt8)) (ending : Ending) : Bytes :=
  [10].intercalate (rows.map rowText) ++ ending.text

/-- The rows of a matrix that fit the buffer: with their newline, except for the last one, and in a
number that an `int` counts. -/
structure FitsBuffer (rows : List (List UInt8)) : Prop where
  count : rows.length ≤ Prog.intMax
  inner : ∀ row ∈ rows.dropLast, (rowText row).length < bufferSize - 1
  all : ∀ row ∈ rows, (rowText row).length < bufferSize

theorem matrixText_singleton (row : List UInt8) (ending : Ending) :
    matrixText [row] ending = rowText row ++ ending.text := by simp [matrixText]

theorem matrixText_cons_cons (row row' : List UInt8) (rows : List (List UInt8)) (ending : Ending) :
    matrixText (row :: row' :: rows) ending =
      rowText row ++ 10 :: matrixText (row' :: rows) ending := by
  simp only [matrixText, List.map_cons, List.intercalate_cons_cons, List.append_assoc]
  rfl

theorem rowText_ne_nil {row : List UInt8} (h : row ≠ []) : rowText row ≠ [] := by
  rw [← List.length_pos_iff] at h ⊢
  exact Nat.lt_of_lt_of_le h (length_le_rowText row)

theorem lines_before {before : List (List UInt8)} (hne : ∀ row ∈ before, row ≠ [])
    (hfits : ∀ row ∈ before, (rowText row).length < bufferSize - 1) (row : List UInt8)
    (after : List (List UInt8)) (ending : Ending) :
    lines (matrixText (before ++ row :: after) ending) =
      before.map (fun row => rowText row ++ [10]) ++ lines (matrixText (row :: after) ending) := by
  induction before with
  | nil => rfl
  | cons first before ih =>
    obtain ⟨second, rest, hsecond⟩ : ∃ second rest, before ++ row :: after = second :: rest :=
      List.exists_cons_of_ne_nil (by simp)
    rw [List.cons_append, hsecond, matrixText_cons_cons, ← hsecond,
      lines_line (inline_rowText first) (rowText_ne_nil (hne first (by simp)))
        (hfits first (by simp)),
      ih (fun r hr => hne r (by simp [hr])) (fun r hr => hfits r (by simp [hr]))]
    rfl

theorem lines_last {row : List UInt8} (hne : row ≠ []) (hfits : (rowText row).length < bufferSize)
    (ending : Ending) : ∃ stop, (stop = [] ∨ stop = [10]) ∧
      lines (matrixText [row] ending) = [rowText row ++ stop] := by
  have hinline := inline_rowText row
  have htext := rowText_ne_nil hne
  have hnil : lines [] = [] := lines_nil rfl
  have htake : (rowText row).take (bufferSize - 1) = rowText row :=
    List.take_of_length_le (by omega)
  have hdrop : (rowText row).drop (bufferSize - 1) = [] := List.drop_of_length_le (by omega)
  rw [matrixText_singleton]
  cases ending with
  | endOfInput =>
    refine ⟨[], .inl rfl, ?_⟩
    rw [Ending.text, lines_full hinline htext (.inr rfl), htake, hdrop, List.append_nil, hnil,
      List.append_nil]
  | newline =>
    by_cases hlt : (rowText row).length < bufferSize - 1
    · exact ⟨[10], .inr rfl, by rw [Ending.text, lines_line hinline htext hlt, hnil]⟩
    · refine ⟨[], .inl rfl, ?_⟩
      rw [lines_full hinline htext (.inl (Nat.not_lt.mp hlt)), htake, hdrop, List.append_nil,
        Ending.text, List.nil_append, lines_newline]
  | emptyLine rest =>
    by_cases hlt : (rowText row).length < bufferSize - 1
    · exact ⟨[10], .inr rfl, by rw [Ending.text, lines_line hinline htext hlt, lines_newline]⟩
    · refine ⟨[], .inl rfl, ?_⟩
      rw [lines_full hinline htext (.inl (Nat.not_lt.mp hlt)), htake, hdrop, List.append_nil,
        Ending.text, List.nil_append, lines_newline]

theorem lineValues_before {before : List (List UInt8)} (hne : ∀ row ∈ before, row ≠ []) :
    (before.map fun row => rowText row ++ [10]).map lineValues = before := by
  rw [List.map_map]
  conv_rhs => rw [← List.map_id before]
  exact List.map_congr_left fun row hrow => lineValues_row (hne row hrow) (.inr rfl)

/-- The lines of a matrix that fits have its rows. -/
theorem lineValues_matrix {rows : List (List UInt8)} (hrows : rows ≠ [])
    (hne : ∀ row ∈ rows, row ≠ []) (hfits : FitsBuffer rows) (ending : Ending) :
    (lines (matrixText rows ending)).map lineValues = rows := by
  obtain ⟨before, last, rfl⟩ : ∃ before last, rows = before ++ [last] :=
    ⟨rows.dropLast, rows.getLast hrows, (List.dropLast_append_getLast hrows).symm⟩
  have hbefore : ∀ row ∈ before, row ≠ [] := fun row hrow => hne row (by simp [hrow])
  have hlast : last ≠ [] := hne last (by simp)
  obtain ⟨stop, hstop, hlines⟩ := lines_last hlast (hfits.all last (by simp)) ending
  rw [lines_before hbefore (fun row hrow => hfits.inner row (by simpa using hrow)), hlines,
    List.map_append, lineValues_before hbefore, List.map_singleton, lineValues_row hlast hstop]

/-! ### Decoding -/

/-- The call on the input stores every number of the matrix in its cell and counts the rows,
whatever the memory and the other fields of the configuration were. -/
def DecodesPlain (rows : List (List UInt8)) (col : UInt64) (input : Bytes) : Prop :=
  ∀ s : Reading, s.config.col = col → s.stdin = input → ∃ fuel s',
    (mlifioFromStdin fuel .plain).run s = (.done .success, s') ∧
      s'.config.nsample.toNat = rows.length ∧
      ∀ i row, rows[i]? = some row → ∀ j v, row[j]? = some v → s'.data (i * col.toNat + j) = v

/-- What the call has to do with the lines of the input. -/
theorem decodesPlain_iff (rows : List (List UInt8)) (col : UInt64)
    (input : Bytes) : DecodesPlain rows col input ↔
      (lines input).length ≤ Prog.intMax ∧ max 1 (lines input).length = rows.length ∧
        ∀ m : Memory, ∀ i row, rows[i]? = some row → ∀ j v, row[j]? = some v →
          storeRows col 0 ((lines input).map lineValues) m (i * col.toNat + j) = v := by
  constructor
  · intro h
    have hrun := fun m => h ⟨⟨0, 0, [], 0, col, .raw, .cOrder⟩, m, input⟩ rfl rfl
    obtain ⟨fuel, s', hdone, hnsample, -⟩ := hrun fun _ => 0
    obtain ⟨hle, hcount, -⟩ := of_plain hdone
    refine ⟨hle, hcount.symm.trans hnsample, fun m => ?_⟩
    obtain ⟨fuel, s', hdone, -, hcells⟩ := hrun m
    obtain ⟨-, -, hdata⟩ := of_plain hdone
    rwa [hdata] at hcells
  · rintro ⟨hle, hcount, hcells⟩ s rfl rfl
    obtain ⟨fuel, s', hdone, hnsample, hdata⟩ := run_plain hle
    refine ⟨fuel, s', hdone, hnsample.trans hcount, ?_⟩
    rw [hdata]
    exact hcells s.data

/-- The indices of rows that an `int` counts and that fit the buffer stay below `2^64` when the
cells of the matrix do. -/
theorem index_fits {count k col len : Nat} (hcount : count ≤ Prog.intMax)
    (hcells : count * col ≤ 2 ^ 64) (hk : k < count) (hlen : len < bufferSize) :
    k * col + len ≤ 2 ^ 64 := by
  simp only [bufferSize, Prog.intMax] at hlen hcount
  have hle := Nat.mul_le_mul_right col (Nat.succ_le_of_lt hk)
  rw [Nat.succ_mul] at hle
  by_cases hcol : len ≤ col
  · omega
  · have := Nat.mul_le_mul (show k ≤ 2 ^ 31 by omega) (show col ≤ 2048 by omega)
    omega

theorem indicesFit {rows : List (List UInt8)} {col : UInt64} (hcount : rows.length ≤ Prog.intMax)
    (hcells : rows.length * col.toNat ≤ 2 ^ 64) (hlen : ∀ row ∈ rows, row.length < bufferSize) :
    IndicesFit col rows := fun _ row hk =>
  index_fits hcount hcells (List.getElem?_eq_some_iff.mp hk).1 (hlen row (List.mem_of_getElem? hk))

theorem IndicesFit.left {col : UInt64} {rows rows' : List (List UInt8)}
    (h : IndicesFit col (rows ++ rows')) : IndicesFit col rows := fun k row hk =>
  h k row ((List.getElem?_append_left (List.getElem?_eq_some_iff.mp hk).1).trans hk)

theorem eq_append_of_getElem? {rows : List (List UInt8)} {i : Nat} {row : List UInt8}
    (h : rows[i]? = some row) :
    ∃ before after, rows = before ++ row :: after ∧ before.length = i := by
  obtain ⟨hi, rfl⟩ := List.getElem?_eq_some_iff.mp h
  refine ⟨rows.take i, rows.drop (i + 1), ?_, by simp; omega⟩
  rw [← List.drop_eq_getElem_cons hi, List.take_append_drop]

theorem decodesPlain_of_fits {rows : List (List UInt8)} {col : UInt64} (hrows : rows ≠ [])
    (hpos : 0 < col.toNat) (hcol : ∀ row ∈ rows, row.length = col.toNat) (hfits : FitsBuffer rows)
    (ending : Ending) : DecodesPlain rows col (matrixText rows ending) := by
  have hne : ∀ row ∈ rows, row ≠ [] := by
    rintro row hrow rfl
    have := hcol [] hrow
    simp at this
    omega
  have hvalues := lineValues_matrix hrows hne hfits ending
  have hlength : (lines (matrixText rows ending)).length = rows.length := by
    rw [← List.length_map lineValues, hvalues]
  have hlen : ∀ row ∈ rows, row.length < bufferSize := fun row hrow =>
    Nat.lt_of_le_of_lt (length_le_rowText row) (hfits.all row hrow)
  have hcount := hfits.count
  have hindices : IndicesFit col rows := by
    refine indicesFit hcount ?_ hlen
    obtain ⟨first, hfirst⟩ := List.exists_mem_of_ne_nil rows hrows
    have hbound := hlen first hfirst
    rw [hcol first hfirst] at hbound
    simp only [bufferSize, Prog.intMax] at hbound hcount
    have := Nat.mul_le_mul hcount (Nat.le_of_lt hbound)
    omega
  rw [decodesPlain_iff, hvalues, hlength]
  have hpos' := List.length_pos_iff.mpr hrows
  refine ⟨hcount, by omega, fun m i row hi j v hj => ?_⟩
  obtain ⟨before, after, rfl, rfl⟩ := eq_append_of_getElem? hi
  obtain ⟨hlt, rfl⟩ := List.getElem?_eq_some_iff.mp hj
  have hrow := hcol row (by simp)
  have hfit := hindices before.length row (by simp)
  rw [storeRows_after hindices (by rw [Nat.succ_mul]; omega),
    ← Nat.add_zero (before.length * col.toNat), storeRow_apply (by omega) hlt]

theorem exists_overflow {rows : List (List UInt8)}
    (h : ¬ ((∀ row ∈ rows.dropLast, (rowText row).length < bufferSize - 1) ∧
      ∀ row ∈ rows, (rowText row).length < bufferSize)) :
    ∃ before row after, rows = before ++ row :: after ∧
      (∀ row ∈ before, (rowText row).length < bufferSize - 1) ∧
      (bufferSize ≤ (rowText row).length ∨
        (rowText row).length = bufferSize - 1 ∧ after ≠ []) := by
  induction rows with
  | nil => simp at h
  | cons row rows ih =>
    by_cases hlong : bufferSize ≤ (rowText row).length
    · exact ⟨[], row, rows, rfl, by simp, .inl hlong⟩
    by_cases hfull : (rowText row).length = bufferSize - 1 ∧ rows ≠ []
    · exact ⟨[], row, rows, rfl, by simp, .inr hfull⟩
    have hshort : rows ≠ [] → (rowText row).length < bufferSize - 1 := by
      intro hne
      by_contra hlt
      exact hfull ⟨by omega, hne⟩
    by_cases hrows : rows = []
    · subst hrows
      exact absurd ⟨by simp, by simpa using hlong⟩ h
    · obtain ⟨before, bad, after, rfl, hbefore, hbad⟩ := ih fun hrest => h ⟨by
        rw [List.dropLast_cons_of_ne_nil hrows]
        simpa [hshort hrows] using hrest.1, by
        simpa [Nat.not_le.mp hlong] using hrest.2⟩
      refine ⟨row :: before, bad, after, rfl, ?_, hbad⟩
      simpa [hshort hrows] using hbefore

/-- A number cut short by the end of the buffer is read as another byte. -/
theorem charOfInt_take_decimal {v : UInt8} {size : Nat} (hpos : 0 < size)
    (hsize : size < (decimal v.toNat).length) :
    charOfInt (atoi ((decimal v.toNat).take size)) ≠ v := by
  have hlength : ((decimal v.toNat).take size).length = size := by
    rw [List.length_take]
    omega
  have hne : (decimal v.toNat).take size ≠ [] := by
    rw [← List.length_pos_iff, hlength]
    exact hpos
  have hdigit : ∀ c ∈ (decimal v.toNat).take size, isDigit c = true := by
    intro c hc
    exact isDigit_of_mem_decimal (List.mem_of_mem_take hc)
  have hv : 0 < v.toNat := by
    by_contra hzero
    have hone := decimal_length_le (n := v.toNat) (show 0 < 1 by decide) (by omega)
    omega
  have hlt := digitsValue_lt_of_length_lt hdigit hv (by omega)
  have hlt256 := v.toNat_lt
  have hvalue := charOfInt_atoi hdigit [] (by simp) hne (by omega)
  rw [List.append_nil] at hvalue
  intro heq
  rw [heq] at hvalue
  omega

/-- A row that does not fit leaves its last number out of the first line, or cuts its digits. -/
theorem lineValues_take {row : List UInt8} {v : UInt8}
    (h : bufferSize ≤ (rowText (row ++ [v])).length) :
    let values := lineValues ((rowText (row ++ [v])).take (bufferSize - 1))
    values.length ≤ row.length ∨ ∃ w ≠ v, values = row ++ [w] := by
  let numbers := row.map fun v => decimal v.toNat
  let start := [44].intercalate (numbers ++ [[]])
  have htext : rowText (row ++ [v]) = start ++ decimal v.toNat := by
    rw [rowText_eq, ← intercalate_append_last, List.nil_append]
  have hnumbers : ∀ number ∈ numbers, 44 ∉ number ∧ number ≠ [] := by
    simp [numbers, comma_not_mem_decimal, decimal_ne_nil]
  intro values
  by_cases hstart : bufferSize - 1 ≤ start.length
  · left
    have htake : (rowText (row ++ [v])).take (bufferSize - 1) = start.take (bufferSize - 1) := by
      rw [htext, List.take_append_of_le_length hstart]
    have htokens : (strtok 44 start).length = row.length := by
      rw [strtok_intercalate (fun n hn => (hnumbers n hn).1) (fun n hn => (hnumbers n hn).2)
        (by simp)]
      simp [numbers]
    have hle := length_strtok_le 44 (start.take (bufferSize - 1)) (start.drop (bufferSize - 1))
    rw [List.take_append_drop, htokens] at hle
    simp only [values, lineValues, htake, List.length_map]
    exact hle
  · right
    let digits := (decimal v.toNat).take (bufferSize - 1 - start.length)
    have htake : (rowText (row ++ [v])).take (bufferSize - 1) =
        [44].intercalate (numbers ++ [digits]) := by
      rw [htext, List.take_append, List.take_of_length_le (by omega), ← intercalate_append_last,
        List.nil_append]
    have hsum := congrArg List.length htext
    rw [List.length_append] at hsum
    have hne : digits ≠ [] := by
      rw [← List.length_pos_iff, List.length_take]
      omega
    have hcomma : 44 ∉ digits := by
      intro h44
      exact absurd (isDigit_of_mem_decimal (List.mem_of_mem_take h44)) (by decide)
    have hother := charOfInt_take_decimal (v := v)
      (show 0 < bufferSize - 1 - start.length by omega) (by omega)
    refine ⟨charOfInt (atoi digits), hother, ?_⟩
    simp only [values, htake]
    exact lineValues_intercalate row hcomma hne

theorem matrixText_cons (row : List UInt8) (after : List (List UInt8)) (ending : Ending) :
    ∃ tail, matrixText (row :: after) ending = rowText row ++ tail ∧
      (after ≠ [] → ∃ rest, tail = 10 :: rest) := by
  cases after with
  | nil => exact ⟨ending.text, matrixText_singleton row ending, fun h => absurd rfl h⟩
  | cons next after =>
    exact ⟨_, matrixText_cons_cons row next after ending, fun _ => ⟨_, rfl⟩⟩

theorem cells_fit {rows : List (List UInt8)} {col : UInt64} (hrows : rows ≠ [])
    (hpos : 0 < col.toNat) (hcol : ∀ row ∈ rows, row.length = col.toNat)
    {values : List (List UInt8)}
    (h : ∀ m : Memory, ∀ i row, rows[i]? = some row → ∀ j v, row[j]? = some v →
      storeRows col 0 values m (i * col.toNat + j) = v) :
    rows.length * col.toNat ≤ 2 ^ 64 := by
  by_contra hover
  have hlength := List.length_pos_iff.mpr hrows
  let last := rows[rows.length - 1]
  have hlast : rows[rows.length - 1]? = some last := List.getElem?_eq_getElem (by omega)
  have hlen : last.length = col.toNat := hcol last (List.mem_of_getElem? hlast)
  let v := last[col.toNat - 1]
  have hv : last[col.toNat - 1]? = some v := List.getElem?_eq_getElem (by omega)
  have hcell := h (fun _ => v + 1) _ last hlast _ v hv
  have hindex : (rows.length - 1) * col.toNat + (col.toNat - 1) + 1 = rows.length * col.toNat := by
    obtain ⟨n, hn⟩ : ∃ n, rows.length = n + 1 := ⟨rows.length - 1, by omega⟩
    rw [hn, Nat.add_sub_cancel, Nat.succ_mul]
    omega
  rw [storeRows_of_ne fun k row _ j _ => by
    have := dataIndex_lt col (0 + k) j
    omega] at hcell
  exact absurd hcell (by simp)

/-- The last cell of a row keeps its byte or gets a wrong number when the numbers of the row are too
few or end with a wrong one. -/
theorem storeRows_ne {col : UInt64} {before after : List (List UInt8)} {init values : List UInt8}
    {v : UInt8} (hbefore : ∀ row ∈ before, row.length = col.toNat)
    (hinit : init.length + 1 = col.toNat)
    (hvalues : values.length ≤ init.length ∨ ∃ w ≠ v, values = init ++ [w])
    (hfit : IndicesFit col (before ++ values :: after)) :
    storeRows col 0 (before ++ values :: after) (fun _ => v + 1)
      (before.length * col.toNat + init.length) ≠ v := by
  have hrow : before.length * col.toNat + values.length ≤ 2 ^ 64 :=
    hfit before.length values (by simp)
  rw [storeRows_after hfit (by rw [Nat.succ_mul]; omega)]
  rcases hvalues with hshort | ⟨w, hw, rfl⟩
  · rw [storeRow_of_ne fun j hj => by rw [Nat.zero_add, dataIndex_eq (by omega)]; omega,
      storeRows_before hfit.left (fun r hr => Nat.le_of_eq (hbefore r hr)) (by omega)]
    simp
  · rw [← Nat.add_zero (before.length * col.toNat), storeRow_apply (by omega) (by simp)]
    simpa using hw

theorem fits_of_decodesPlain {rows : List (List UInt8)} {col : UInt64} (hrows : rows ≠ [])
    (hpos : 0 < col.toNat) (hcol : ∀ row ∈ rows, row.length = col.toNat) {ending : Ending}
    (h : DecodesPlain rows col (matrixText rows ending)) : FitsBuffer rows := by
  rw [decodesPlain_iff] at h
  obtain ⟨hle, hcount, hcells⟩ := h
  have hfitCells := cells_fit hrows hpos hcol hcells
  have hone : 1 ≤ Prog.intMax := by decide
  by_contra hunfit
  obtain ⟨before, row, after, rfl, hbefore, hbad⟩ := exists_overflow fun hall =>
    hunfit ⟨by omega, hall.1, hall.2⟩
  have hne : ∀ r ∈ before ++ row :: after, r ≠ [] := by
    rintro r hr rfl
    have := hcol [] hr
    simp at this
    omega
  have hrow : row ≠ [] := hne row (by simp)
  obtain ⟨tail, htail, hnewline⟩ := matrixText_cons row after ending
  have hlines : lines (matrixText (before ++ row :: after) ending) =
      before.map (fun row => rowText row ++ [10]) ++ (rowText row).take (bufferSize - 1) ::
        lines ((rowText row).drop (bufferSize - 1) ++ tail) := by
    rw [lines_before (fun r hr => hne r (by simp [hr])) hbefore, htail,
      lines_full (inline_rowText row) (rowText_ne_nil hrow) (.inl (by omega))]
  rcases hbad with hlong | ⟨hfull, hafter⟩
  · obtain ⟨init, v, rfl⟩ : ∃ init v, row = init ++ [v] :=
      ⟨row.dropLast, row.getLast hrow, (List.dropLast_append_getLast hrow).symm⟩
    have hindices : IndicesFit col ((lines (matrixText (before ++ (init ++ [v]) :: after)
        ending)).map lineValues) := by
      refine indicesFit (by simpa using hle) ?_ fun r hr => ?_
      · apply Nat.le_trans _ hfitCells
        apply Nat.mul_le_mul_right
        rw [List.length_map]
        omega
      · obtain ⟨line, hline, rfl⟩ := List.mem_map.mp hr
        exact Nat.lt_of_le_of_lt (length_lineValues_le line) (length_line_lt hline)
    have hcell := hcells (fun _ => v + 1) before.length (init ++ [v]) (by simp) init.length v
      (by simp)
    rw [hlines, List.map_append, lineValues_before fun r hr => hne r (by simp [hr]),
      List.map_cons] at hcell hindices
    exact storeRows_ne (fun r hr => hcol r (by simp [hr]))
      (by simpa using hcol (init ++ [v]) (by simp))
      (lineValues_take hlong) hindices hcell
  · obtain ⟨rest, rfl⟩ := hnewline hafter
    have hpos' := List.length_pos_iff.mpr hafter
    rw [hlines, List.drop_of_length_le (by omega), List.nil_append, lines_newline] at hcount
    simp only [List.length_append, List.length_map, List.length_cons, List.length_nil] at hcount
    omega

/-- A matrix is decoded exactly when it fits the buffer. -/
theorem mlifioFromStdin_plain_iff {rows : List (List UInt8)} {col : UInt64} (hrows : rows ≠ [])
    (hpos : 0 < col.toNat) (hcol : ∀ row ∈ rows, row.length = col.toNat) (ending : Ending) :
    DecodesPlain rows col (matrixText rows ending) ↔ FitsBuffer rows :=
  ⟨fits_of_decodesPlain hrows hpos hcol, fun hfits =>
    decodesPlain_of_fits hrows hpos hcol hfits ending⟩

theorem mlifioFromStdin_plain_small :
    DecodesPlain [[10, 255], [0, 7]] 2 (matrixText [[10, 255], [0, 7]] .endOfInput) := by
  refine (mlifioFromStdin_plain_iff (by simp) (by decide) (by decide) .endOfInput).mpr ?_
  constructor <;> decide

theorem mlifioFromStdin_plain_long : ¬ DecodesPlain [List.replicate 2048 0] 2048
    (matrixText [List.replicate 2048 0] .newline) := by
  intro h
  have hcol : ∀ row ∈ [List.replicate 2048 (0 : UInt8)], row.length = (2048 : UInt64).toNat := by
    intro row hrow
    rw [List.mem_singleton.mp hrow, List.length_replicate]
    rfl
  have hfits := fits_of_decodesPlain (List.cons_ne_nil _ _) (by decide) hcol h
  have hle := length_le_rowText (List.replicate 2048 0)
  have hlt := hfits.all _ (List.mem_singleton.mpr rfl)
  rw [List.length_replicate] at hle
  exact absurd (Nat.lt_of_le_of_lt hle hlt) (by decide)

end Mlonmcu.Mlifio
