import Mlonmcu.Mlifio.FromFile

/-! The scan of `mlifio_from_file` for a count: it ends exactly when a comma follows, and fits the
buffer exactly when at most 9 digits stand before that comma. -/

namespace Mlonmcu.Mlifio

open CLib

/-- `field` is the text before the first comma, and it has room for a NUL after its digits. -/
structure CountField (text field tail : Bytes) : Prop where
  split : text = field ++ 44 :: tail
  noComma : 44 ∉ field
  digits : (field.filter isDigit).length ≤ 9

def countOf (field : Bytes) : Nat := digitsValue (field.filter isDigit)

theorem charIsDigit_eq (charSigned : Bool) (c : UInt8) : charIsDigit charSigned c = isDigit c := by
  have hc := c.toNat_lt
  rw [Bool.eq_iff_iff]
  simp only [charIsDigit, isDigit, Bool.and_eq_true, decide_eq_true_eq, Int32.le_iff_toInt_le,
    intOfChar_toInt, charValue, Int32.reduceToInt]
  split <;> omega

theorem tmp_ne_comma_iff (charSigned : Bool) (c : UInt8) :
    intOfChar charSigned c ≠ 44 ↔ c ≠ 44 :=
  not_congr (intOfChar_eq_iff charSigned c 44 (by decide))

theorem Scan.next_cons {s : Scan} {c : UInt8} {tail : Bytes} (h : s.fp.rest = c :: tail) :
    s.next = { s with tmp := c, fp := { s.fp with pos := s.fp.pos + 1 } } := by
  simp [Scan.next, Stream.fgetc_cons _ h, charOfInt_ofNat]

theorem Scan.next_text {s : Scan} {field tail : Bytes} (h : s.fp.rest = field ++ 44 :: tail) :
    s.next.tmp :: s.next.fp.rest = field ++ 44 :: tail := by
  obtain ⟨c, rest, hc⟩ : ∃ c rest, field ++ 44 :: tail = c :: rest := by
    cases field <;> exact ⟨_, _, rfl⟩
  rw [Scan.next_cons (h.trans hc), Stream.rest_succ _ (h.trans hc), hc]

theorem Scan.next_pos {s : Scan} {field tail : Bytes} (h : s.fp.rest = field ++ 44 :: tail) :
    s.next.fp = { s.fp with pos := s.fp.pos + 1 } := by
  obtain ⟨c, rest, hc⟩ : ∃ c rest, field ++ 44 :: tail = c :: rest := by
    cases field <;> exact ⟨_, _, rfl⟩
  rw [Scan.next_cons (h.trans hc)]

/-- At the end of the file the scan reads the character 255 again and again. -/
theorem Scan.next_nil {s : Scan} (h : s.fp.rest = []) : s.next = { s with tmp := 255 } := by
  simp only [Scan.next, Stream.fgetc_nil _ h]
  rfl

section

variable {σ : Type} {charSigned : Bool}

theorem scanLoop_comma {s : Scan} (h : s.tmp = 44) (fuel : Nat) (t : σ) :
    (scanLoop charSigned (fuel + 1) s).run t = (.done s, t) := by
  have := not_congr (tmp_ne_comma_iff charSigned s.tmp)
  simp only [scanLoop, if_neg (this.mpr (by simpa using h)), Prog.run_pure]

/-- The scan after its character has been collected, if it is a digit. -/
def Scan.collect (s : Scan) : Scan :=
  if h : isDigit s.tmp = true ∧ s.cnt < 10 then
    { s with buffer := s.buffer.set s.cnt s.tmp h.2, cnt := s.cnt + 1 }
  else s

theorem Scan.collect_fp (s : Scan) : s.collect.fp = s.fp := by
  unfold Scan.collect
  split <;> rfl

theorem Scan.collect_cnt {s : Scan} (hroom : isDigit s.tmp = true → s.cnt < 10) :
    s.collect.cnt = s.cnt + ([s.tmp].filter isDigit).length := by
  unfold Scan.collect
  by_cases hd : isDigit s.tmp = true
  · simp [hd, hroom hd]
  · simp [hd]

/-- A character that is no comma is collected, if there is room, and the next one is read. -/
theorem scanLoop_collect {s : Scan} (h : s.tmp ≠ 44) (hroom : isDigit s.tmp = true → s.cnt < 10)
    (fuel : Nat) : scanLoop (σ := σ) charSigned (fuel + 1) s =
      scanLoop charSigned fuel s.collect.next := by
  rw [scanLoop, if_pos ((tmp_ne_comma_iff charSigned s.tmp).mpr h), charIsDigit_eq, Scan.collect]
  by_cases hd : isDigit s.tmp = true
  · rw [if_pos hd, dif_pos (hroom hd), dif_pos ⟨hd, hroom hd⟩]
  · rw [if_neg hd, dif_neg fun hroom => hd hroom.1]

theorem scanLoop_full {s : Scan} (h : s.tmp ≠ 44) (hd : isDigit s.tmp = true) (hc : 10 ≤ s.cnt)
    (fuel : Nat) : scanLoop (σ := σ) charSigned (fuel + 1) s = Prog.fault .outOfBounds := by
  rw [scanLoop, if_pos ((tmp_ne_comma_iff charSigned s.tmp).mpr h), charIsDigit_eq, if_pos hd,
    dif_neg (Nat.not_lt.mpr hc)]

/-- A digit has room, or the buffer is full. -/
theorem room_or_full (s : Scan) : (isDigit s.tmp = true → s.cnt < 10) ∨
    isDigit s.tmp = true ∧ 10 ≤ s.cnt := by
  by_cases hd : isDigit s.tmp = true
  · exact (Nat.lt_or_ge s.cnt 10).imp (fun hlt _ => hlt) fun hle => ⟨hd, hle⟩
  · exact .inl fun h => absurd h hd

theorem comma_of_scanLoop {fuel : Nat} {s s' : Scan} {t t' : σ}
    (h : (scanLoop charSigned fuel s).run t = (.done s', t')) : 44 ∈ s.tmp :: s.fp.rest := by
  induction fuel generalizing s with
  | zero => simp [scanLoop] at h
  | succ fuel ih =>
    by_cases hc : s.tmp = 44
    · simp [hc]
    rcases room_or_full s with hroom | ⟨hd, hfull⟩
    · rw [scanLoop_collect hc hroom] at h
      have hmem := ih h
      cases hrest : s.fp.rest with
      | nil =>
        rw [Scan.next_nil (s.collect_fp ▸ hrest)] at hmem
        simp [s.collect_fp, hrest] at hmem
      | cons c tail =>
        have hrest' : s.collect.fp.rest = c :: tail := s.collect_fp ▸ hrest
        rw [Scan.next_cons hrest', Stream.rest_succ _ hrest'] at hmem
        exact List.mem_cons_of_mem _ hmem
    · rw [scanLoop_full hc hd hfull] at h
      simp at h

/-- `digits` are in the buffer, and the rest of it is NUL. -/
structure Collected (s : Scan) (digits : Bytes) : Prop where
  buffer : s.buffer.toList = digits ++ List.replicate (10 - digits.length) 0
  cnt : s.cnt = digits.length

theorem Collected.collect {s : Scan} {digits : Bytes} (h : Collected s digits)
    (hroom : isDigit s.tmp = true → s.cnt < 10) :
    Collected s.collect (digits ++ [s.tmp].filter isDigit) := by
  refine ⟨?_, by rw [Scan.collect_cnt hroom, h.cnt, List.length_append]⟩
  unfold Scan.collect
  by_cases hd : isDigit s.tmp = true
  · have hlen : 10 - digits.length = 10 - (digits.length + 1) + 1 := by
      have := hroom hd
      have := h.cnt
      omega
    have hfilter : [s.tmp].filter isDigit = [s.tmp] := List.filter_eq_self.mpr (by simpa using hd)
    rw [dif_pos ⟨hd, hroom hd⟩, hfilter]
    simp only [Vector.toList_set, h.buffer, h.cnt, List.set_append_right _ _ (Nat.le_refl _),
      Nat.sub_self, hlen, List.replicate_succ, List.set_cons_zero, List.length_append,
      List.length_singleton, List.append_assoc, List.cons_append, List.nil_append]
  · simp [hd, h.buffer]

/-- The scan before the first comma collects the digits. -/
theorem scanLoop_field (charSigned : Bool) {field tail : Bytes} (hf : 44 ∉ field) {s : Scan}
    {digits : Bytes} (htext : s.tmp :: s.fp.rest = field ++ 44 :: tail) (hcol : Collected s digits)
    (hroom : digits.length + (field.filter isDigit).length ≤ 10) :
    ∃ s', Collected s' (digits ++ field.filter isDigit) ∧
      s'.fp = { s.fp with pos := s.fp.pos + field.length } ∧
      ∀ (fuel : Nat) (t : σ), (scanLoop charSigned fuel s).run t =
        if field.length < fuel then (.done s', t) else (.timeout, t) := by
  induction field generalizing s digits with
  | nil =>
    refine ⟨s, by simpa using hcol, by simp, fun fuel t => ?_⟩
    cases fuel with
    | zero => rfl
    | succ fuel => rw [scanLoop_comma (List.cons.inj htext).1]; simp
  | cons c field ih =>
    obtain ⟨rfl, hrest⟩ := List.cons.inj htext
    obtain ⟨hne, hf'⟩ := not_or.mp (mt List.mem_cons.mpr hf)
    have hsplit : (s.tmp :: field).filter isDigit =
        [s.tmp].filter isDigit ++ field.filter isDigit := List.filter_append [s.tmp] field
    rw [hsplit, List.length_append] at hroom
    have hlt : isDigit s.tmp = true → s.cnt < 10 := by
      intro hd
      have := hcol.cnt
      simp [hd] at hroom
      omega
    have hrest' : s.collect.fp.rest = field ++ 44 :: tail := s.collect_fp ▸ hrest
    obtain ⟨s', hcol', hfp, hrun⟩ := ih hf' (Scan.next_text hrest')
      ⟨(hcol.collect hlt).buffer, (hcol.collect hlt).cnt⟩ (by rw [List.length_append]; omega)
    refine ⟨s', by rwa [hsplit, ← List.append_assoc], ?_, fun fuel t => ?_⟩
    · rw [hfp, Scan.next_pos hrest', s.collect_fp, List.length_cons, Nat.add_assoc, Nat.add_comm 1]
    · cases fuel with
      | zero => rfl
      | succ fuel => rw [scanLoop_collect (Ne.symm hne) hlt, hrun]; simp

/-- A scan of more digits than the buffer holds does not end. -/
theorem scanLoop_ne_done {field tail : Bytes} (hf : 44 ∉ field) {s : Scan}
    (htext : s.tmp :: s.fp.rest = field ++ 44 :: tail)
    (hover : 10 < s.cnt + (field.filter isDigit).length) (hcnt : s.cnt ≤ 10) (fuel : Nat)
    (s' : Scan) (t t' : σ) : (scanLoop charSigned fuel s).run t ≠ (.done s', t') := by
  induction field generalizing s fuel with
  | nil =>
    simp at hover
    omega
  | cons c field ih =>
    obtain ⟨rfl, hrest⟩ := List.cons.inj htext
    obtain ⟨hne, hf'⟩ := not_or.mp (mt List.mem_cons.mpr hf)
    have hsplit : (s.tmp :: field).filter isDigit =
        [s.tmp].filter isDigit ++ field.filter isDigit := List.filter_append [s.tmp] field
    rw [hsplit, List.length_append] at hover
    cases fuel with
    | zero => simp [scanLoop]
    | succ fuel =>
      rcases room_or_full s with hroom | ⟨hd, hfull⟩
      · have hcount : s.collect.next.cnt = s.cnt + ([s.tmp].filter isDigit).length :=
          Scan.collect_cnt hroom
        have hle : s.collect.next.cnt ≤ 10 := by
          rw [hcount]
          by_cases hd : isDigit s.tmp = true
          · have := hroom hd
            simp [hd]
            omega
          · simpa [hd] using hcnt
        rw [scanLoop_collect (Ne.symm hne) hroom]
        exact ih hf' (Scan.next_text (s.collect_fp ▸ hrest)) (by omega) hle fuel
      · rw [scanLoop_full (Ne.symm hne) hd hfull]
        simp

theorem atoiBuffer_apply {s : Scan} {digits : Bytes} (h : Collected s digits)
    (hlen : digits.length ≤ 9) (hd : ∀ c ∈ digits, isDigit c = true) (t : σ) :
    (atoiBuffer s.buffer).run t = (.done (atoi digits), t) := by
  have hpad : 10 - digits.length = 10 - digits.length - 1 + 1 := by omega
  have hstr : cString s.buffer.toList = digits := by
    rw [cString, h.buffer, hpad, List.takeWhile_append_of_pos, List.replicate_succ]
    · simp
    · intro c hc
      have := hd c hc
      simp [isDigit] at this
      simp [← UInt8.toNat_inj]
      omega
  have hnul : (0 : UInt8) ∈ s.buffer.toList := by
    rw [h.buffer, hpad, List.replicate_succ]
    simp
  rw [atoiBuffer, if_pos hnul, hstr, Prog.run_pure]

theorem atoiBuffer_full {s : Scan} {digits : Bytes} (h : Collected s digits)
    (hlen : 9 < digits.length) (hd : ∀ c ∈ digits, isDigit c = true) (t : σ) :
    (atoiBuffer s.buffer).run t = (.fault .outOfBounds, t) := by
  have hnul : (0 : UInt8) ∉ s.buffer.toList := by
    rw [h.buffer, show 10 - digits.length = 0 by omega]
    intro h0
    have := hd 0 (by simpa using h0)
    simp [isDigit] at this
  rw [atoiBuffer, if_neg hnul, Prog.run_fault]

theorem countOf_lt {text field tail : Bytes} (h : CountField text field tail) :
    countOf field < 10 ^ 9 :=
  Nat.lt_of_lt_of_le (digitsValue_lt fun c hc => (List.mem_filter.mp hc).2)
    (Nat.pow_le_pow_right (by decide) h.digits)

def countSize (field : Bytes) : UInt64 := sizeOfInt (atoi (field.filter isDigit))

theorem sizeOfInt_atoi (field : Bytes) :
    sizeOfInt (atoi (field.filter isDigit)) = countSize field := rfl

theorem countSize_toNat {text field tail : Bytes} (h : CountField text field tail) :
    (countSize field).toNat = countOf field := by
  have hlt := countOf_lt h
  have hval : (atoi (field.filter isDigit ++ [])).toInt = countOf field :=
    atoi_digits (fun c hc => (List.mem_filter.mp hc).2) (by simp) (fun _ => rfl)
      (by rw [countOf] at hlt; omega)
  rw [List.append_nil] at hval
  rw [countSize, sizeOfInt_of_nonneg (by omega), hval, Int.toNat_natCast]

theorem charOfInt_fgetc {fp : Stream} {c : UInt8} {tail : Bytes} (h : fp.rest = c :: tail)
    (buffer : Vector UInt8 10) :
    Scan.next ⟨fp, 0, buffer, 0⟩ = ⟨{ fp with pos := fp.pos + 1 }, c, buffer, 0⟩ := by
  rw [Scan.next_cons h]

/-- A count is read exactly when its field ends with a comma and fits the buffer, and the stream
is then past the comma and the character after it. -/
theorem readCount_field {fp : Stream} {field tail : Bytes} (h : CountField fp.rest field tail)
    (fuel : Nat) (t : σ) :
    (readCount charSigned fuel fp).run t =
      if field.length < fuel then
        (.done (atoi (field.filter isDigit), { fp with pos := fp.pos + (field.length + 2) }), t)
      else (.timeout, t) := by
  obtain ⟨c, rest, hc⟩ : ∃ c rest, fp.rest = c :: rest := by
    rw [h.split]
    cases field <;> exact ⟨_, _, rfl⟩
  have hstart := charOfInt_fgetc hc (Vector.replicate 10 0)
  have hempty : Collected (Scan.next ⟨fp, 0, Vector.replicate 10 0, 0⟩) [] := by
    rw [hstart]
    exact ⟨rfl, rfl⟩
  obtain ⟨s', hcol, hfp, hrun⟩ := scanLoop_field (σ := σ) charSigned h.noComma
    (by rw [hstart, Stream.rest_succ _ hc, ← hc, h.split]) hempty
    (by have := h.digits; simpa using by omega)
  rw [readCount]
  by_cases hlt : field.length < fuel
  · rw [Prog.bind_done (by rw [hrun, if_pos hlt])]
    simp only
    rw [Prog.bind_done (atoiBuffer_apply hcol h.digits (fun c hc => (List.mem_filter.mp hc).2) t),
      hfp, hstart, Stream.fseek_cur _ (n := 1) rfl, if_pos hlt, Prog.run_pure]
    simp only [List.nil_append, Nat.add_assoc, Nat.add_comm 1]
  · rw [Prog.bind_timeout (by rw [hrun, if_neg hlt]), if_neg hlt]

theorem countField_of_readCount {fp : Stream} {fuel : Nat} {t t' : σ} {r : Int32 × Stream}
    (h : (readCount charSigned fuel fp).run t = (.done r, t')) :
    ∃ field tail, CountField fp.rest field tail := by
  obtain ⟨s', t1, hscan, hbuf⟩ := Prog.bind_eq_done h
  obtain ⟨count, t2, hatoi, -⟩ := Prog.bind_eq_done hbuf
  cases hrest : fp.rest with
  | nil =>
    have hmem := comma_of_scanLoop hscan
    rw [Scan.next_nil hrest, hrest] at hmem
    simp at hmem
  | cons c rest =>
    have hstart := charOfInt_fgetc hrest (Vector.replicate 10 0)
    have hmem := comma_of_scanLoop hscan
    rw [hstart, Stream.rest_succ _ hrest] at hmem
    obtain ⟨field, tail, hsplit, hf⟩ := List.eq_append_cons_of_mem hmem
    have htext : (Scan.next ⟨fp, 0, Vector.replicate 10 0, 0⟩).tmp ::
        (Scan.next ⟨fp, 0, Vector.replicate 10 0, 0⟩).fp.rest = field ++ 44 :: tail := by
      rw [hstart, Stream.rest_succ _ hrest, hsplit]
    have hcol : Collected (Scan.next ⟨fp, 0, Vector.replicate 10 0, 0⟩) [] := by
      rw [hstart]
      exact ⟨rfl, rfl⟩
    refine ⟨field, tail, hsplit, hf, ?_⟩
    by_contra hmany
    by_cases hten : (field.filter isDigit).length ≤ 10
    · obtain ⟨s2, hcol2, -, hrun⟩ := scanLoop_field (σ := σ) charSigned hf
        htext hcol (by simpa using hten)
      have hs : s' = s2 := by
        rw [hrun] at hscan
        split at hscan
        · exact (by simpa using hscan.symm : s' = s2 ∧ t1 = t).1
        · simp at hscan
      rw [hs, atoiBuffer_full hcol2 (by simpa using hmany)
        (fun c hc => (List.mem_filter.mp (by simpa using hc)).2)] at hatoi
      simp at hatoi
    · exact scanLoop_ne_done hf htext (by rw [hstart]; simpa using hten) (by rw [hstart]; simp)
        fuel s' t t1 hscan

end

end Mlonmcu.Mlifio
