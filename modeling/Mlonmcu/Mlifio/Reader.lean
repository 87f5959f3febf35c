import Mathlib.Data.List.GetD
import Mlonmcu.Mlifio.Counts

/-! What `mlifio_from_file` does in mode `MLIF_FILE_NPY` on every file: it returns exactly when both
counts can be read and the first is not 0, and then its result is `loading`. -/

namespace Mlonmcu.Mlifio

open CLib

/-- The fields that the function takes from fixed positions of a file. -/
def fileHeader (charSigned : Bool) (stack : Vector UInt8 3) (bytes : Bytes) : Header where
  offset := headerOffset charSigned [bytes.getD 8 0, bytes.getD 9 0]
  dtype := datatypeOf [bytes.getD 22 0, bytes.getD 23 0, stack.get 2]
  order := if bytes.getD 44 0 = 70 then .cOrder else .fortranOrder

theorem drop_eq_cons {bytes : Bytes} {i : Nat} (h : i < bytes.length) :
    bytes.drop i = bytes.getD i 0 :: bytes.drop (i + 1) := by
  rw [List.drop_eq_getElem_cons h, List.getD_eq_getElem _ _ h]

theorem fread_two {bytes : Bytes} {i : Nat} (h : i + 2 ≤ bytes.length) :
    (⟨bytes, i, false⟩ : Stream).fread 2 =
      ([bytes.getD i 0, bytes.getD (i + 1) 0], ⟨bytes, i + 2, false⟩) := by
  rw [Stream.fread_eq _ h]
  show ((bytes.drop i).take 2, _) = _
  rw [drop_eq_cons (show i < bytes.length by omega),
    drop_eq_cons (show i + 1 < bytes.length by omega)]
  rfl

theorem readHeader_eq {charSigned : Bool} {stack : Vector UInt8 3} {bytes : Bytes}
    (h : 45 ≤ bytes.length) : readHeader charSigned stack ⟨bytes, 0, false⟩ =
      (fileHeader charSigned stack bytes, ⟨bytes, 61, false⟩) := by
  have horder : (⟨bytes, 44, false⟩ : Stream).fgetc =
      (Int32.ofNat (bytes.getD 44 0).toNat, ⟨bytes, 45, false⟩) :=
    Stream.fgetc_cons _ (drop_eq_cons h)
  have hF : (Int32.ofNat (bytes.getD 44 0).toNat = 70) ↔ bytes.getD 44 0 = 70 := by
    have hlt := (bytes.getD 44 0).toNat_lt
    rw [← Int32.toInt_inj, Int32.toInt_ofNat_of_lt (by omega), ← UInt8.toNat_inj]
    simp
    omega
  have hstack (a b : UInt8) : overwrite [a, b] stack.toList = [a, b, stack.get 2] := by
    have hlen : stack.toList.length = 3 := Vector.length_toList
    simp only [overwrite, List.length_cons, List.length_nil, List.drop_eq_getElem_cons
      (show 2 < stack.toList.length by omega), List.drop_of_length_le (Nat.le_of_eq hlen)]
    simp only [List.nil_append, List.cons_append, Vector.getElem_toList]
    rfl
  simp only [readHeader, Stream.fseek_set _ (show 0 ≤ (8 : Int64).toInt by decide),
    Stream.fseek_cur _ (show (12 : Int64).toInt = (12 : Nat) from rfl),
    Stream.fseek_cur _ (show (20 : Int64).toInt = (20 : Nat) from rfl),
    Stream.fseek_cur _ (show (16 : Int64).toInt = (16 : Nat) from rfl),
    show (8 : Int64).toInt.toNat = 8 from rfl, fread_two (show 8 + 2 ≤ bytes.length by omega),
    fread_two (show 8 + 2 + 12 + 2 ≤ bytes.length by omega), horder, hF, hstack]
  rfl

/-- A file without byte 44 ends before the counts. -/
theorem readHeader_rest (charSigned : Bool) (stack : Vector UInt8 3) (bytes : Bytes) :
    (readHeader charSigned stack ⟨bytes, 0, false⟩).2.rest = bytes.drop 61 := by
  by_cases h : 45 ≤ bytes.length
  · rw [readHeader_eq h]
    rfl
  · have hpos : 56 ≤ (readHeader charSigned stack ⟨bytes, 0, false⟩).2.pos := by
      simp only [readHeader, Stream.fseek_set _ (show 0 ≤ (8 : Int64).toInt by decide),
        Stream.fseek_cur _ (show (12 : Int64).toInt = (12 : Nat) from rfl),
        Stream.fseek_cur _ (show (20 : Int64).toInt = (20 : Nat) from rfl),
        Stream.fseek_cur _ (show (16 : Int64).toInt = (16 : Nat) from rfl), Stream.fread]
      refine Nat.le_trans ?_ (Nat.add_le_add_right (Stream.le_fgetc_pos _) 16)
      simp
      omega
    have hbytes : (readHeader charSigned stack ⟨bytes, 0, false⟩).2.bytes = bytes := by
      simp only [readHeader, Stream.fseek_set _ (show 0 ≤ (8 : Int64).toInt by decide),
        Stream.fseek_cur _ (show (12 : Int64).toInt = (12 : Nat) from rfl),
        Stream.fseek_cur _ (show (20 : Int64).toInt = (20 : Nat) from rfl),
        Stream.fseek_cur _ (show (16 : Int64).toInt = (16 : Nat) from rfl), Stream.fread,
        Stream.fgetc_bytes]
    rw [Stream.rest, hbytes, List.drop_of_length_le (by omega), List.drop_of_length_le (by omega)]

/-- Both counts of a file can be read, from the fields `first` and `second`, and the division by
the first is defined. -/
structure Counted (bytes first second : Bytes) : Prop where
  fields : ∃ tail rest, CountField (bytes.drop 61) first tail ∧ CountField (tail.drop 1) second rest
  pos : countOf first ≠ 0

/-- The configuration after the header of a file has been read. -/
def headerConfig (header : Header) (first second : Bytes) (config : MlifDataConfig) :
    MlifDataConfig :=
  { config with
    dtype := header.dtype
    order := header.order
    nbatch := countSize first
    nsample := countSize second * countSize first }

/-- The stream at the first byte to load, after the seek from the end of the counts. -/
def payloadStream (header : Header) (bytes first second : Bytes) (idx size : UInt64) : Stream :=
  (⟨bytes, 61 + (first.length + 2) + (second.length + 2), false⟩ : Stream).fseek
    (sizeOfInt (header.offset.toInt32 + 10) + idx * size).toInt64 .set

/-- The result of reading a file with the counts `first` and `second`. -/
def loading (header : Header) (bytes first second : Bytes) (idx : UInt64) (s : Loading) :
    Loading :=
  let size := sampleSize header.dtype s.config.shape
  let fp := payloadStream header bytes first second idx size
  let got := (fp.fread (size * countSize second).toNat).1
  { config := headerConfig header first second s.config
    data := s.data.store got
    loaded := ⟨fp.pos, got.length⟩ }

section

variable {charSigned : Bool} {stack : Vector UInt8 3} {bytes first second : Bytes}

theorem Counted.length (h : Counted bytes first second) : 45 ≤ bytes.length := by
  obtain ⟨tail, rest, h1, -⟩ := h.fields
  have := congrArg List.length h1.split
  simp at this
  omega

theorem Counted.quotient (h : Counted bytes first second) :
    countSize first ≠ 0 ∧ countSize second * countSize first / countSize first =
      countSize second := by
  obtain ⟨tail, rest, h1, h2⟩ := h.fields
  have hlt1 := countOf_lt h1
  have hlt2 := countOf_lt h2
  have hprod : countOf second * countOf first < 2 ^ 64 :=
    Nat.lt_of_lt_of_le (Nat.mul_lt_mul'' hlt2 hlt1) (by decide)
  have hpos := h.pos
  constructor
  · intro hz
    apply hpos
    rw [← countSize_toNat h1, hz]
    rfl
  · apply UInt64.toNat_inj.mp
    rw [UInt64.toNat_div, UInt64.toNat_mul, countSize_toNat h1, countSize_toNat h2,
      Nat.mod_eq_of_lt hprod, Nat.mul_div_cancel _ (by omega)]

theorem run_freadData (fp : Stream) (n : Nat) (s : Loading) :
    (freadData fp n).run s = (.done (), { s with
      data := s.data.store (fp.fread n).1
      loaded := ⟨fp.pos, (fp.fread n).1.length⟩ }) := rfl

theorem CountField.rest {fp : Stream} {field tail : Bytes} (h : CountField fp.rest field tail) :
    ({ fp with pos := fp.pos + (field.length + 2) } : Stream).rest = tail.drop 1 := by
  have hsplit : fp.bytes.drop fp.pos = field ++ 44 :: tail := h.split
  rw [Stream.rest, ← List.drop_drop, hsplit, List.drop_append]
  simp

/-- With enough fuel the function loads what `loading` says. -/
theorem run_fromNpy (h : Counted bytes first second) {fuel : Nat} (h1 : first.length < fuel)
    (h2 : second.length < fuel) (idx : UInt64) (s : Loading) :
    (fromNpy charSigned stack fuel ⟨bytes, 0, false⟩ idx).run s =
      (.done .success, loading (fileHeader charSigned stack bytes) bytes first second idx s) := by
  obtain ⟨tail, rest, hf1, hf2⟩ := h.fields
  obtain ⟨hne, hdiv⟩ := h.quotient
  have hf1' : CountField (⟨bytes, 61, false⟩ : Stream).rest first tail := hf1
  have hf2' : CountField (⟨bytes, 61 + (first.length + 2), false⟩ : Stream).rest second rest := by
    rw [hf1'.rest]
    exact hf2
  rw [fromNpy, readHeader_eq h.length]
  simp only [Prog.run_modify_bind]
  rw [Prog.bind_done (by rw [readCount_field hf1', if_pos h1])]
  simp only [Prog.run_modify_bind]
  rw [Prog.bind_done (by rw [readCount_field hf2', if_pos h2])]
  simp only [Prog.run_modify_bind, Prog.run_get_bind, sizeOfInt_atoi]
  rw [Prog.bind_done (Prog.run_div hne _), hdiv, Prog.bind_done (run_freadData _ _ _)]
  rfl

/-- A run that returns has read both counts within its fuel. -/
theorem counted_of_fromNpy {fuel : Nat} {idx : UInt64} {s s' : Loading} {status : MlifIoStatus}
    (h : (fromNpy charSigned stack fuel ⟨bytes, 0, false⟩ idx).run s = (.done status, s')) :
    ∃ first second, Counted bytes first second ∧ first.length < fuel ∧ second.length < fuel := by
  rw [fromNpy] at h
  simp only [Prog.run_modify_bind] at h
  obtain ⟨r1, t1, hr1, h⟩ := Prog.bind_eq_done h
  obtain ⟨first, tail, hf1⟩ := countField_of_readCount hr1
  rw [readCount_field hf1] at hr1
  split at hr1
  case isFalse => simp at hr1
  case isTrue hfuel1 =>
  obtain ⟨hr, rfl⟩ : _ ∧ _ := by simpa using hr1
  subst hr
  simp only [Prog.run_modify_bind] at h
  obtain ⟨r2, t2, hr2, h⟩ := Prog.bind_eq_done h
  obtain ⟨second, rest, hf2⟩ := countField_of_readCount hr2
  rw [readCount_field hf2] at hr2
  split at hr2
  case isFalse => simp at hr2
  case isTrue hfuel2 =>
  obtain ⟨hr, rfl⟩ : _ ∧ _ := by simpa using hr2
  subst hr
  simp only [Prog.run_modify_bind, Prog.run_get_bind, sizeOfInt_atoi] at h
  obtain ⟨per, t3, hdiv, h⟩ := Prog.bind_eq_done h
  have hrest := hf1.rest
  rw [readHeader_rest] at hf1
  rw [hrest] at hf2
  refine ⟨first, second, ⟨⟨tail, rest, hf1, hf2⟩, fun hz => ?_⟩, hfuel1, hfuel2⟩
  have : countSize first = 0 := UInt64.toNat_inj.mp ((countSize_toNat hf1).trans hz)
  rw [this, Prog.run_div_zero] at hdiv
  simp at hdiv

end

end Mlonmcu.Mlifio
