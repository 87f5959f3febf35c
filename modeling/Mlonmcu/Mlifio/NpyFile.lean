import Mlonmcu.Mlifio.Npy

/-! Reading the `.npy` files that have a header in the canonical layout: the function finds the
payload exactly when the header length keeps its value as a `short` made of two `char`s. -/

namespace Mlonmcu.Mlifio

open CLib

/-- A file with a canonical header of `length` bytes in C order, which announces `nbatch` times
`per` samples, and with any bytes after the header. -/
structure NpyFile where
  length : UInt16
  byteOrder : UInt8
  dtype : MlifDatatype
  nbatch : Nat
  per : Nat
  shape : List UInt64
  payload : Bytes
  nbatch_pos : 0 < nbatch
  nbatch_lt : nbatch < 10 ^ 9
  per_pos : 0 < per
  per_lt : per < 10 ^ 9
  fits : (dictionary byteOrder dtype .cOrder (nbatch :: per :: shape.map UInt64.toNat)).length + 1 ≤
    length.toNat

namespace NpyFile

variable (f : NpyFile)

def dictionary : Bytes :=
  Mlifio.dictionary f.byteOrder f.dtype .cOrder (f.nbatch :: f.per :: f.shape.map UInt64.toNat)

def bytes : Bytes := headerBytes f.length f.dictionary ++ f.payload

def size : Nat := sampleBytes f.dtype f.shape

def region (idx : UInt64) : Region where
  start := 10 + f.length.toNat + idx.toNat * f.size
  count := f.size * f.per

theorem bytes_eq : ∃ rest, f.bytes =
    magicString ++ littleEndian16 f.length ++ f.dictionary ++ rest :=
  ⟨List.replicate (f.length.toNat - (f.dictionary.length + 1)) 32 ++ [10] ++ f.payload, by
    simp [bytes, headerBytes]⟩

theorem length_bytes : f.bytes.length = 10 + f.length.toNat + f.payload.length := by
  rw [bytes, List.length_append]
  exact congrArg (· + _) (length_headerBytes f.fits)

/-- The field of the second count. -/
def second : Bytes := decimal f.per ++ afterSecond (f.shape.map UInt64.toNat)

theorem counted : Counted f.bytes (decimal f.nbatch) f.second := by
  obtain ⟨rest, h⟩ := f.bytes_eq
  rw [h]
  exact counted_npy f.length f.byteOrder f.dtype f.nbatch_pos f.nbatch_lt f.per_lt _ rest

theorem countOf_second : countOf f.second = f.per :=
  countOf_decimal f.per _ (afterSecond_punctuation _)

theorem counts_lt :
    61 + ((decimal f.nbatch).length + 2) + (f.second.length + 2) < 10 + f.length.toNat := by
  have hfits := f.fits
  rw [length_dictionary] at hfits
  have horder : MlifDataOrder.cOrder.text.length = 5 := rfl
  have hlen := congrArg List.length
    (between_extents f.nbatch f.per (f.shape.map UInt64.toNat) [])
  have hclose : (ascii "), \x7d").length = 4 := rfl
  simp only [List.length_append, List.length_cons, List.append_nil] at hlen
  have hafter : 2 ≤ (afterCounts (f.shape.map UInt64.toNat) []).length := by
    unfold afterCounts
    split <;> simp [ascii]
  simp only [second, List.length_append]
  omega

variable {f}

theorem fileHeader_eq (charSigned : Bool) {stack : Vector UInt8 3} (hstack : stack.get 2 = 0) :
    fileHeader charSigned stack f.bytes =
      ⟨headerOffset charSigned (littleEndian16 f.length), f.dtype, .cOrder⟩ := by
  obtain ⟨rest, h⟩ := f.bytes_eq
  rw [h]
  exact fileHeader_npy f.length f.byteOrder f.dtype .cOrder _ rest charSigned hstack

theorem headerLength_eq : headerLength f.bytes = f.length.toNat := by
  obtain ⟨rest, h⟩ := f.bytes_eq
  rw [h, List.append_assoc]
  exact headerLength_npy f.length _

theorem lengthBytes : (f.bytes.getD 8 0).toNat = f.length.toNat % 256 ∧
    (f.bytes.getD 9 0).toNat = f.length.toNat / 256 := by
  have h := headerLength_eq (f := f)
  have h8 := (f.bytes.getD 8 0).toNat_lt
  rw [headerLength] at h
  omega

theorem seekReaches_iff (charSigned : Bool) (idx : UInt64) :
    SeekReaches charSigned f.bytes (decimal f.nbatch) f.second idx.toNat f.size
        (f.region idx).start ↔
      f.length.toNat < 2 ^ 15 ∧ (charSigned = true → f.length.toNat % 256 < 128) ∧
        (f.region idx).start < 2 ^ 63 := by
  have hcounts := f.counts_lt
  have hstart : 10 + f.length.toNat ≤ (f.region idx).start := Nat.le_add_right _ _
  have hhi : f.length.toNat / 256 < 128 ↔ f.length.toNat < 2 ^ 15 := by omega
  rw [SeekReaches, lengthBytes.1, lengthBytes.2, hhi]
  refine ⟨?_, Or.inl⟩
  rintro (h | ⟨-, h⟩)
  · exact h
  · omega

section

variable {charSigned : Bool} {stack : Vector UInt8 3} {s : Loading}

theorem requested_eq (hstack : stack.get 2 = 0) (hshape : s.config.shape = f.shape) (idx : UInt64) :
    requested .npy f.bytes idx
        (headerConfig (fileHeader charSigned stack f.bytes) (decimal f.nbatch) f.second s.config) =
      f.region idx := by
  obtain ⟨tail, rest, -, hsecond⟩ := f.counted.fields
  have hper : (countSize f.second * countSize (decimal f.nbatch)).toNat /
      (countSize (decimal f.nbatch)).toNat = f.per := by
    rw [← UInt64.toNat_div, f.counted.quotient.2, countSize_toNat hsecond, countOf_second]
  rw [fileHeader_eq charSigned hstack]
  simp only [requested, headerConfig, headerLength_eq, hshape, hper]
  rfl

theorem loads_iff (hstack : stack.get 2 = 0) (hshape : s.config.shape = f.shape) {idx : UInt64}
    (hin : (f.region idx).start + (f.region idx).count ≤ f.bytes.length) :
    Loads f.bytes (f.region idx) s
        (loading (fileHeader charSigned stack f.bytes) f.bytes (decimal f.nbatch) f.second idx s) ↔
      (f.region idx).count = 0 ∨ (f.length.toNat < 2 ^ 15 ∧
        (charSigned = true → f.length.toNat % 256 < 128) ∧ (f.region idx).start < 2 ^ 63 ∧
        (f.region idx).count < 2 ^ 64) := by
  have hdtype : (fileHeader charSigned stack f.bytes).dtype = f.dtype := by
    rw [fileHeader_eq charSigned hstack]
  have hiff := @loads_loading_iff charSigned stack _ _ _ f.counted idx s
  dsimp only at hiff
  rw [requested_eq hstack hshape, hdtype, hshape, countOf_second, headerLength_eq] at hiff
  rw [hiff]
  refine or_congr_right ⟨fun ⟨hcount, _, hseek⟩ => ?_, fun ⟨h1, h2, h3, hcount⟩ => ?_⟩
  · obtain ⟨h1, h2, h3⟩ := (seekReaches_iff charSigned idx).mp hseek
    exact ⟨h1, h2, h3, hcount⟩
  · exact ⟨hcount, hin, (seekReaches_iff charSigned idx).mpr ⟨h1, h2, h3⟩⟩

variable {Path : Type} {fs : FileSystem Path} {path : Path} {idx : UInt64}

theorem run_eq (hfile : fs path = some f.bytes) : ∃ fuel,
    (mlifioFromFile charSigned stack fuel fs .npy path idx).run s = (.done .success,
      loading (fileHeader charSigned stack f.bytes) f.bytes (decimal f.nbatch) f.second idx s) := by
  refine ⟨(decimal f.nbatch).length + f.second.length + 1, ?_⟩
  rw [run_npy_some hfile]
  exact run_fromNpy f.counted (by omega) (by omega) idx s

theorem eq_of_run (hfile : fs path = some f.bytes) {fuel : Nat} {status : MlifIoStatus}
    {s' : Loading}
    (h : (mlifioFromFile charSigned stack fuel fs .npy path idx).run s = (.done status, s')) :
    s' = loading (fileHeader charSigned stack f.bytes) f.bytes (decimal f.nbatch) f.second
      idx s := by
  rw [run_npy_some hfile] at h
  obtain ⟨first, second, hcounted, h1, h2⟩ := counted_of_fromNpy h
  obtain ⟨rfl, rfl⟩ := hcounted.unique f.counted
  rw [run_fromNpy hcounted h1 h2] at h
  exact (Prod.mk.inj h).2.symm

end

end NpyFile

/-- A file with all the samples that its header announces. -/
structure CompleteFile extends NpyFile where
  payload_length : payload.length = nbatch * per * sampleBytes dtype shape

theorem CompleteFile.region_le (f : CompleteFile) {idx : UInt64}
    (hidx : idx.toNat + f.per ≤ f.nbatch * f.per) :
    (f.region idx).start + (f.region idx).count ≤ f.bytes.length := by
  have hle := Nat.mul_le_mul_right f.size hidx
  have hpayload : f.payload.length = f.nbatch * f.per * f.size := f.payload_length
  rw [Nat.add_mul, Nat.mul_comm f.per] at hle
  rw [NpyFile.length_bytes, hpayload]
  simp only [NpyFile.region]
  omega

/-- A call for samples of the file finds them exactly when the header length is below `2^15` and,
with a signed `char`, its low byte is below 128, and the samples are in the ranges of `size_t` and
of the seek. -/
theorem mlifioFromFile_npyFile_iff (f : CompleteFile) (charSigned : Bool) {stack : Vector UInt8 3}
    (hstack : stack.get 2 = 0) {Path : Type} {fs : FileSystem Path} {path : Path}
    (hfile : fs path = some f.bytes) {s : Loading} (hshape : s.config.shape = f.shape)
    {idx : UInt64} (hidx : idx.toNat + f.per ≤ f.nbatch * f.per) :
    (∃ fuel s', (mlifioFromFile charSigned stack fuel fs .npy path idx).run s =
        (.done .success, s') ∧ Loads f.bytes (f.region idx) s s') ↔
      (f.region idx).count = 0 ∨ (f.length.toNat < 2 ^ 15 ∧
        (charSigned = true → f.length.toNat % 256 < 128) ∧ (f.region idx).start < 2 ^ 63 ∧
        (f.region idx).count < 2 ^ 64) := by
  rw [← NpyFile.loads_iff hstack hshape (f.region_le hidx)]
  constructor
  · rintro ⟨fuel, s', hrun, hloads⟩
    rwa [NpyFile.eq_of_run hfile hrun] at hloads
  · intro hloads
    obtain ⟨fuel, hrun⟩ := NpyFile.run_eq hfile
    exact ⟨fuel, _, hrun, hloads⟩

/-- Two batches of three matrices of type `int16_t`. -/
def matrixFile : CompleteFile where
  length := 118
  byteOrder := 60
  dtype := .int16
  nbatch := 2
  per := 3
  shape := [2, 2]
  payload := (List.range 48).map UInt8.ofNat
  nbatch_pos := by decide
  nbatch_lt := by decide
  per_pos := by decide
  per_lt := by decide
  fits := by decide
  payload_length := by decide

def matrixLoading : Loading := ⟨⟨0, 0, [2, 2], 0, 0, .raw, .cOrder⟩, fun _ => 0, ⟨0, 0⟩⟩

theorem mlifioFromFile_npyFile_matrix : ∃ fuel s',
    (mlifioFromFile true (Vector.replicate 3 0) fuel (fun _ : Unit => some matrixFile.bytes) .npy ()
        3).run matrixLoading = (.done .success, s') ∧
    Loads matrixFile.bytes (matrixFile.region 3) matrixLoading s' :=
  (mlifioFromFile_npyFile_iff matrixFile true rfl rfl rfl (by decide)).mpr (.inr (by decide))

def oneByteFile (length : UInt16) (h : 60 ≤ length.toNat) : CompleteFile where
  length := length
  byteOrder := 124
  dtype := .uint8
  nbatch := 1
  per := 1
  shape := []
  payload := [42]
  nbatch_pos := by decide
  nbatch_lt := by decide
  per_pos := by decide
  per_lt := by decide
  fits := h
  payload_length := by decide

def emptyLoading : Loading := ⟨⟨0, 0, [], 0, 0, .raw, .cOrder⟩, fun _ => 0, ⟨0, 0⟩⟩

/-- With a signed `char`, the seek goes to the byte 0 of a file with a header of 246 bytes. -/
theorem mlifioFromFile_npyFile_246 : ¬ ∃ fuel s',
    (mlifioFromFile true (Vector.replicate 3 0) fuel
        (fun _ : Unit => some (oneByteFile 246 (by decide)).bytes) .npy () 0).run emptyLoading =
      (.done .success, s') ∧
    Loads (oneByteFile 246 (by decide)).bytes ((oneByteFile 246 (by decide)).region 0)
      emptyLoading s' := by
  rintro ⟨fuel, s', hrun, hloads⟩
  rw [NpyFile.eq_of_run rfl hrun, NpyFile.loads_iff rfl rfl (CompleteFile.region_le _ (by decide))]
    at hloads
  revert hloads
  decide

end Mlonmcu.Mlifio
