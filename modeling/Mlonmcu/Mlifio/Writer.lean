import Mlonmcu.Mlifio.Npy

/-! What `mlifio_to_file` writes: a new `.npy` file gets a header in the canonical layout and the
bytes of a batch, and an existing file gets the bytes of a batch at its end. -/

namespace Mlonmcu.Mlifio

open CLib

namespace MlifDataConfig

variable (c : MlifDataConfig)

def per : Nat := c.nsample.toNat / c.nbatch.toNat

/-- The bytes of a batch. -/
def batchBytes : Nat := sampleBytes c.dtype c.shape * c.per

def extents : List Nat := c.nbatch.toNat :: c.per :: c.shape.map UInt64.toNat

def dictionary : Bytes := Mlifio.dictionary 60 c.dtype c.order c.extents

def header : Bytes := headerBytes (UInt16.ofNat (npyHeaderSize - 10)) c.dictionary

/-- The text that a new file starts with, whether or not it fits `NPY_HEADER_SIZE` bytes. -/
def headerText : Bytes :=
  let text := magicString ++ littleEndian16 (UInt16.ofNat (npyHeaderSize - 10)) ++ c.dictionary
  text ++ padded (Int32.ofNat (npyHeaderSize - 1) - (Stream.written text).ftell.toInt32)
    (ascii " ") ++ ascii "\n"

/-- The bytes that a call asks `fwrite` for. -/
def writtenBytes : Nat :=
  (sizeOfInt (sampleSizeInt c.dtype c.shape) * (c.nsample / c.nbatch)).toNat

end MlifDataConfig

/-- Configurations of whole batches with a header text, from the magic string to the newline, that
fits its `NPY_HEADER_SIZE` bytes. -/
structure Announced (c : MlifDataConfig) : Prop where
  nbatch_pos : 0 < c.nbatch.toNat
  nbatch_lt : c.nbatch.toNat < 10 ^ 9
  nbatch_dvd : c.nbatch.toNat ∣ c.nsample.toNat
  per_pos : 0 < c.per
  per_lt : c.per < 10 ^ 9
  fits : 10 + c.dictionary.length + 2 ≤ npyHeaderSize

/-- Such configurations with samples of a size that an `int` holds. -/
structure Writable (c : MlifDataConfig) : Prop extends Announced c where
  extents_pos : ∀ n ∈ c.shape, 0 < n
  size_lt : sampleBytes c.dtype c.shape < 2 ^ 31

section

variable {c : MlifDataConfig}

theorem Announced.length_header (h : Announced c) : c.header.length = npyHeaderSize :=
  length_headerBytes (by have := h.fits; simp only [npyHeaderSize] at this ⊢; simp; omega)

theorem foldl_fwrite (shape : List UInt64) (bytes : Bytes) :
    shape.foldl (fun fp n => fp.fwrite (decimal n.toNat ++ ascii ", ")) (Stream.written bytes) =
      Stream.written (bytes ++ eachThen (ascii ", ") (shape.map UInt64.toNat)) := by
  induction shape generalizing bytes with
  | nil => simp
  | cons n shape ih =>
    rw [List.foldl_cons, Stream.fwrite_written, ih, List.map_cons, eachThen_cons]
    simp only [List.append_assoc]

theorem padding {n : Nat} (h : 10 + n + 2 ≤ npyHeaderSize) :
    padded (Int32.ofNat (npyHeaderSize - 1) - (Int64.ofNat (10 + n)).toInt32) (ascii " ") =
      List.replicate (npyHeaderSize - 10 - (n + 1)) 32 := by
  simp only [npyHeaderSize] at h ⊢
  have hpos : (Int64.ofNat (10 + n)).toInt32.toInt = 10 + n := by
    rw [Int64.toInt_toInt32, Int64.toInt_ofNat_of_lt (by omega), Int.bmod_def]
    omega
  have hwidth : (Int32.ofNat (128 - 1) - (Int64.ofNat (10 + n)).toInt32).toInt = 117 - n := by
    rw [Int32.toInt_sub, hpos, Int32.toInt_ofNat_of_lt (by decide), Int.bmod_def]
    omega
  have hblank : ascii " " = [32] := rfl
  rw [hblank, padded_blank, hwidth]
  congr 1
  omega

/-- The text of a header before the extents. -/
def opening (c : MlifDataConfig) : Bytes :=
  magicString ++ littleEndian16 (UInt16.ofNat (npyHeaderSize - 10)) ++
    (ascii "\x7b'descr': '" ++ [60] ++ c.dtype.tag ++ ascii "', 'fortran_order': " ++
      c.order.text ++ ascii ", 'shape': (")

theorem opening_pieces (c : MlifDataConfig) :
    magicString ++ littleEndian16 (UInt16.ofNat (npyHeaderSize - 10)) ++
        (ascii "\x7b'descr': '<" ++ [c.dtype.type] ++ decimal c.dtype.size ++
          ascii "', 'fortran_order': " ++ c.order.text ++ ascii ", 'shape': (" ++
          decimal c.nbatch.toNat ++ ascii ", " ++ decimal c.per ++ ascii ", ") ++
        eachThen (ascii ", ") (c.shape.map UInt64.toNat) =
      opening c ++ between (ascii ", ") c.extents ++ ascii ", " := by
  have hdescr : ascii "\x7b'descr': '<" = ascii "\x7b'descr': '" ++ [60] := rfl
  rw [List.append_assoc (opening c), MlifDataConfig.extents, ← eachThen_eq, eachThen_cons,
    eachThen_cons, hdescr]
  simp only [opening, MlifDatatype.tag, List.append_assoc, List.cons_append, List.nil_append]

theorem opening_dictionary (c : MlifDataConfig) :
    opening c ++ between (ascii ", ") c.extents ++ ascii "), \x7d" =
      magicString ++ littleEndian16 (UInt16.ofNat (npyHeaderSize - 10)) ++ c.dictionary := by
  simp only [opening, MlifDataConfig.dictionary, dictionary, List.append_assoc]

/-- The writer's pieces make the text of a header in the canonical layout. -/
theorem writeHeader_text (c : MlifDataConfig) :
    writeHeader c (c.nsample / c.nbatch) FileSystem.fopenTruncate =
      Stream.written c.headerText := by
  have hper : (c.nsample / c.nbatch).toNat = c.per := UInt64.toNat_div _ _
  have hstart : FileSystem.fopenTruncate = Stream.written [] := rfl
  have hover : ∀ bytes, ((Stream.written (bytes ++ ascii ", ")).fseek (-2) .cur).fwrite
      (ascii "), \x7d") = Stream.written (bytes ++ ascii "), \x7d") := fun bytes =>
    Stream.fwrite_over (by rfl) (by decide) (by decide)
  rw [writeHeader, hstart]
  simp only [Stream.fwrite_written, foldl_fwrite, List.nil_append, hper, opening_pieces, hover,
    opening_dictionary, MlifDataConfig.headerText]
  simp only [List.append_assoc]

/-- A text that fits is a whole header. -/
theorem headerText_eq (hfits : 10 + c.dictionary.length + 2 ≤ npyHeaderSize) :
    c.headerText = c.header := by
  have htell : (Stream.written (magicString ++
      littleEndian16 (UInt16.ofNat (npyHeaderSize - 10)) ++ c.dictionary)).ftell =
      Int64.ofNat (10 + c.dictionary.length) := by
    have hlength : (Stream.written (magicString ++
        littleEndian16 (UInt16.ofNat (npyHeaderSize - 10)) ++ c.dictionary)).pos =
        10 + c.dictionary.length := List.length_append
    have hlt : 10 + c.dictionary.length < 2 ^ 63 := by
      simp only [npyHeaderSize] at hfits
      omega
    rw [Stream.ftell_of_lt _ (hlength ▸ hlt), hlength]
  have hlength : (UInt16.ofNat (npyHeaderSize - 10)).toNat = npyHeaderSize - 10 := rfl
  simp only [MlifDataConfig.headerText, htell, padding hfits]
  rw [MlifDataConfig.header, headerBytes, hlength]
  rfl

/-! ### The calls -/

section

variable {Path : Type} [DecidableEq Path] {fs : FileSystem Path} {path : Path}

theorem run_create_text (hnbatch : c.nbatch ≠ 0) (data : Memory) (hfile : fs path = none) :
    (mlifioToFile .npy path (some c) (some data)).run fs = (.done .success,
      Function.update fs path (some (c.headerText ++ data.load c.writtenBytes))) := by
  have hopen : fs.fopen path = none := by simp [FileSystem.fopen, hfile]
  simp only [mlifioToFile, Prog.run_get_bind, hopen]
  rw [Prog.bind_done (Prog.run_div hnbatch _)]
  simp only [Prog.run_modify_bind, Prog.run_pure, writeHeader_text, Stream.fwrite_written,
    FileSystem.fclose]
  rfl

theorem run_append_bytes (hnbatch : c.nbatch ≠ 0) (data : Memory) {bytes : Bytes}
    (hfile : fs path = some bytes) :
    (mlifioToFile .npy path (some c) (some data)).run fs = (.done .success,
      Function.update fs path (some (bytes ++ data.load c.writtenBytes))) := by
  have hopen : fs.fopen path = some ⟨bytes, 0, false⟩ := by simp [FileSystem.fopen, hfile]
  have hend : (⟨bytes, 0, false⟩ : Stream).fseek 0 .fin = Stream.written bytes :=
    Stream.fseek_end _
  simp only [mlifioToFile, Prog.run_get_bind, hopen]
  rw [Prog.bind_done (Prog.run_div hnbatch _)]
  simp only [Prog.run_modify_bind, Prog.run_pure, hend, Stream.fwrite_written, FileSystem.fclose]
  rfl

/-- A call in mode `MLIF_FILE_BIN` makes the file or appends to it. -/
theorem run_bin (hnbatch : c.nbatch ≠ 0) (data : Memory) (path : Path) (fs : FileSystem Path) :
    (mlifioToFile .bin path (some c) (some data)).run fs = (.done .success,
      Function.update fs path (some ((fs path).getD [] ++ data.load c.writtenBytes))) := by
  simp only [mlifioToFile, Prog.run_get_bind]
  rw [Prog.bind_done (Prog.run_div hnbatch _)]
  simp only [Prog.run_modify_bind, Prog.run_pure, FileSystem.fopenAppend, FileSystem.fclose,
    Stream.fwrite_append]
  rfl

theorem Announced.nbatch_ne (h : Announced c) : c.nbatch ≠ 0 := by
  intro hz
  have := h.nbatch_pos
  rw [hz] at this
  simp at this

theorem Writable.writtenBytes_eq (h : Writable c) : c.writtenBytes = c.batchBytes := by
  have hlt : sampleBytes c.dtype c.shape * c.per < 2 ^ 64 :=
    Nat.lt_of_lt_of_le (Nat.mul_lt_mul'' h.size_lt h.per_lt) (by decide)
  rw [MlifDataConfig.writtenBytes, UInt64.toNat_mul, UInt64.toNat_div,
    sampleSizeInt_of_lt h.size_lt]
  exact Nat.mod_eq_of_lt hlt

theorem run_create (h : Writable c) (data : Memory) (hfile : fs path = none) :
    (mlifioToFile .npy path (some c) (some data)).run fs = (.done .success,
      Function.update fs path (some (c.header ++ data.load c.batchBytes))) := by
  rw [run_create_text h.nbatch_ne data hfile, headerText_eq h.fits, h.writtenBytes_eq]

end

end

end Mlonmcu.Mlifio
