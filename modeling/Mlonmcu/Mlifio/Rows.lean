import Mlonmcu.Mlifio.FromStdin

/-! Rows of numbers: their text with commas, and the cells to which their numbers are stored. -/

namespace Mlonmcu.Mlifio

open CLib

/-! ### Rows -/

/-- The numbers of a row with commas between them. -/
def rowText (row : List UInt8) : Bytes := between (ascii ",") (row.map UInt8.toNat)

theorem rowText_eq (row : List UInt8) (v : UInt8) : rowText (row ++ [v]) =
    [44].intercalate (row.map (fun v => decimal v.toNat) ++ [decimal v.toNat]) := by
  rw [rowText, between, List.map_map, List.map_append]
  rfl

theorem rowText_cons_cons (v w : UInt8) (row : List UInt8) :
    rowText (v :: w :: row) = decimal v.toNat ++ 44 :: rowText (w :: row) := by
  simp only [rowText, List.map_cons, between_cons_cons, List.append_assoc]
  rfl

theorem rowText_singleton (v : UInt8) : rowText [v] = decimal v.toNat := between_singleton _ _

theorem isDigit_or_comma {row : List UInt8} {c : UInt8} (h : c ∈ rowText row) :
    isDigit c = true ∨ c = 44 := by
  induction row with
  | nil => simp [rowText, between] at h
  | cons v row ih =>
    cases row with
    | nil =>
      rw [rowText_singleton] at h
      exact .inl (isDigit_of_mem_decimal h)
    | cons w row =>
      rw [rowText_cons_cons, List.mem_append, List.mem_cons] at h
      rcases h with h | rfl | h
      · exact .inl (isDigit_of_mem_decimal h)
      · exact .inr rfl
      · exact ih h

theorem not_mem_rowText {c : UInt8} (hd : isDigit c = false) (hc : c ≠ 44) (row : List UInt8) :
    c ∉ rowText row := by
  intro h
  rcases isDigit_or_comma h with h | h
  · simp [hd] at h
  · exact hc h

theorem length_le_rowText (row : List UInt8) : row.length ≤ (rowText row).length := by
  induction row with
  | nil => simp
  | cons v row ih =>
    have hpos := List.length_pos_iff.mpr (decimal_ne_nil v.toNat)
    cases row with
    | nil =>
      rw [rowText_singleton]
      exact hpos
    | cons w row =>
      rw [rowText_cons_cons, List.length_append, List.length_cons (a := 44), List.length_cons]
      omega

theorem charOfInt_atoi {digits : Bytes} (hd : ∀ c ∈ digits, isDigit c = true) (rest : Bytes)
    (hr : ∀ c ∈ rest.head?, isDigit c = false) (hne : digits ≠ [])
    (hlt : digitsValue digits < 256) :
    (charOfInt (atoi (digits ++ rest))).toNat = digitsValue digits := by
  have hatoi := atoi_digits hd hr (fun h => absurd h hne) (by omega)
  have h := toNat_toUInt8 (atoi (digits ++ rest)).toInt8
  rw [Int32.toInt_toInt8, hatoi, Int.bmod_def] at h
  rw [charOfInt]
  omega

theorem charOfInt_atoi_decimal (v : UInt8) (rest : Bytes)
    (hr : ∀ c ∈ rest.head?, isDigit c = false) :
    charOfInt (atoi (decimal v.toNat ++ rest)) = v := by
  apply UInt8.toNat_inj.mp
  rw [charOfInt_atoi (fun _ => isDigit_of_mem_decimal) rest hr (decimal_ne_nil _),
    digitsValue_decimal]
  rw [digitsValue_decimal]
  exact v.toNat_lt

theorem comma_not_mem_decimal (n : Nat) : 44 ∉ decimal n := fun h =>
  absurd (isDigit_of_mem_decimal h) (by decide)

theorem lineValues_intercalate (row : List UInt8) {last : Bytes} (hlast : 44 ∉ last)
    (hne : last ≠ []) :
    lineValues ([44].intercalate (row.map (fun v => decimal v.toNat) ++ [last])) =
      row ++ [charOfInt (atoi last)] := by
  have hmap :
      (row.map fun v => decimal v.toNat).map (fun token => charOfInt (atoi token)) = row := by
    rw [List.map_map]
    apply List.map_id''
    intro v
    have h := charOfInt_atoi_decimal v [] (by simp)
    rwa [List.append_nil] at h
  rw [lineValues, strtok_intercalate (by simp [comma_not_mem_decimal])
    (by simp [decimal_ne_nil]) hlast, if_neg hne, List.map_append, hmap]
  rfl

theorem lineValues_row {row : List UInt8} (hne : row ≠ []) {stop : Bytes}
    (hstop : stop = [] ∨ stop = [10]) : lineValues (rowText row ++ stop) = row := by
  obtain ⟨row, v, rfl⟩ : ∃ init v, row = init ++ [v] :=
    ⟨row.dropLast, row.getLast hne, (List.dropLast_append_getLast hne).symm⟩
  have hdigit : ∀ c ∈ stop.head?, isDigit c = false := by
    rcases hstop with rfl | rfl <;> simp [isDigit]
  have hcomma : 44 ∉ decimal v.toNat ++ stop := by
    rw [List.mem_append]
    rintro (h | h)
    · exact comma_not_mem_decimal _ h
    · rcases hstop with rfl | rfl <;> simp at h
  rw [rowText_eq, ← intercalate_append_last, lineValues_intercalate row hcomma
    (by simp [decimal_ne_nil]), charOfInt_atoi_decimal v stop hdigit]

/-! ### Cells -/

theorem dataIndex_mod (col : UInt64) (cnt ptr : Nat) :
    dataIndex col cnt ptr = (cnt * col.toNat + ptr) % 2 ^ 64 := by
  have hmul : (UInt64.ofNat cnt * col).toNat = cnt * col.toNat % 2 ^ 64 := by
    rw [UInt64.toNat_mul, UInt64.toNat_ofNat', Nat.mod_mul_mod]
  rw [dataIndex, UInt64.toNat_add, hmul, UInt64.toNat_ofNat', ← Nat.add_mod]

theorem dataIndex_eq {col : UInt64} {cnt ptr : Nat} (h : cnt * col.toNat + ptr < 2 ^ 64) :
    dataIndex col cnt ptr = cnt * col.toNat + ptr := by
  rw [dataIndex_mod, Nat.mod_eq_of_lt h]

theorem dataIndex_lt (col : UInt64) (cnt ptr : Nat) : dataIndex col cnt ptr < 2 ^ 64 :=
  UInt64.toNat_lt _

theorem storeRow_of_ne {col : UInt64} {cnt ptr a : Nat} {row : List UInt8}
    (h : ∀ j < row.length, dataIndex col cnt (ptr + j) ≠ a) (m : Memory) :
    storeRow col cnt ptr row m a = m a := by
  induction row generalizing ptr m with
  | nil => rfl
  | cons v row ih =>
    have htail : ∀ j < row.length, dataIndex col cnt (ptr + 1 + j) ≠ a := fun j hj => by
      rw [Nat.add_assoc, Nat.add_comm 1]
      exact h (j + 1) (by simpa using hj)
    have hhead : dataIndex col cnt ptr ≠ a := h 0 (by simp)
    rw [storeRow, ih htail, Function.update_of_ne hhead.symm]

/-- The cells of a row whose indices fit a `size_t`. -/
theorem storeRow_apply {col : UInt64} {cnt ptr : Nat} {row : List UInt8}
    (h : cnt * col.toNat + ptr + row.length ≤ 2 ^ 64) {j : Nat} (hj : j < row.length) (m : Memory) :
    storeRow col cnt ptr row m (cnt * col.toNat + ptr + j) = row[j] := by
  induction row generalizing ptr j m with
  | nil => simp at hj
  | cons v row ih =>
    rw [List.length_cons] at h hj
    cases j with
    | zero =>
      have hother : ∀ i < row.length,
          dataIndex col cnt (ptr + 1 + i) ≠ cnt * col.toNat + ptr := fun i hi => by
        rw [dataIndex_eq (by omega)]
        omega
      rw [Nat.add_zero, storeRow, storeRow_of_ne hother, ← Nat.add_zero ptr,
        ← dataIndex_eq (by omega), Function.update_self]
      rfl
    | succ j =>
      have hindex : cnt * col.toNat + ptr + (j + 1) = cnt * col.toNat + (ptr + 1) + j := by omega
      rw [storeRow, hindex, ih (by omega) (by omega)]
      rfl

theorem storeRows_append (col : UInt64) (cnt : Nat) (rows rows' : List (List UInt8)) (m : Memory) :
    storeRows col cnt (rows ++ rows') m =
      storeRows col (cnt + rows.length) rows' (storeRows col cnt rows m) := by
  induction rows generalizing cnt m with
  | nil => rfl
  | cons row rows ih =>
    rw [List.cons_append, storeRows, ih, List.length_cons, Nat.add_assoc, Nat.add_comm 1]
    rfl

theorem storeRows_of_ne {col : UInt64} {cnt a : Nat} {rows : List (List UInt8)}
    (h : ∀ k row, rows[k]? = some row → ∀ j < row.length, dataIndex col (cnt + k) j ≠ a)
    (m : Memory) : storeRows col cnt rows m a = m a := by
  induction rows generalizing cnt m with
  | nil => rfl
  | cons row rows ih =>
    have htail : ∀ k row, rows[k]? = some row → ∀ j < row.length,
        dataIndex col (cnt + 1 + k) j ≠ a := fun k row hk j hj => by
      rw [Nat.add_assoc, Nat.add_comm 1]
      exact h (k + 1) row hk j hj
    rw [storeRows, ih htail, storeRow_of_ne fun j hj => by
      rw [Nat.zero_add]
      exact h 0 row rfl j hj]

/-- The indices of the numbers stay below `2^64`. -/
def IndicesFit (col : UInt64) (rows : List (List UInt8)) : Prop :=
  ∀ k row, rows[k]? = some row → k * col.toNat + row.length ≤ 2 ^ 64

theorem getElem?_after (before after : List (List UInt8)) (row : List UInt8) (k : Nat) :
    (before ++ row :: after)[before.length + 1 + k]? = after[k]? := by
  rw [List.getElem?_append_right (by omega), Nat.add_assoc, Nat.add_sub_cancel_left, Nat.add_comm 1,
    List.getElem?_cons_succ]

theorem storeRows_after {col : UInt64} {before after : List (List UInt8)} {row : List UInt8}
    (hfit : IndicesFit col (before ++ row :: after)) {a : Nat}
    (ha : a < (before.length + 1) * col.toNat) (m : Memory) :
    storeRows col 0 (before ++ row :: after) m a =
      storeRow col before.length 0 row (storeRows col 0 before m) a := by
  rw [storeRows_append, storeRows, Nat.zero_add]
  apply storeRows_of_ne
  intro k line hk j hj
  have hbound := hfit (before.length + 1 + k) line ((getElem?_after before after row k).trans hk)
  have hle := Nat.mul_le_mul_right col.toNat
    (show before.length + 1 ≤ before.length + 1 + k by omega)
  rw [dataIndex_eq (by omega)]
  omega

theorem storeRows_before {col : UInt64} {before : List (List UInt8)}
    (hfit : IndicesFit col before) (hcol : ∀ row ∈ before, row.length ≤ col.toNat) {a : Nat}
    (ha : before.length * col.toNat ≤ a) (m : Memory) : storeRows col 0 before m a = m a := by
  apply storeRows_of_ne
  intro k row hk j hj
  have hbound := hfit k row hk
  have hlen := hcol row (List.mem_of_getElem? hk)
  have hle := Nat.mul_le_mul_right col.toNat (List.getElem?_eq_some_iff.mp hk).1
  rw [Nat.succ_mul] at hle
  rw [Nat.zero_add, dataIndex_eq (by omega)]
  omega

end Mlonmcu.Mlifio
