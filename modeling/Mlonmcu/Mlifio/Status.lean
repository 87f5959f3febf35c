import Mlonmcu.Mlifio.Region

/-! When `mlifio_from_file` returns, and when its status tells the truth about the bytes that it
loaded. -/

namespace Mlonmcu.Mlifio

open CLib

/-- The header length of a file. -/
def headerLength (bytes : Bytes) : Nat := (bytes.getD 8 0).toNat + 256 * (bytes.getD 9 0).toNat

/-- The region that a call asks for: in mode `MLIF_FILE_NPY` the samples of a batch from the
`idx`-th sample on, after the header, and in mode `MLIF_FILE_BIN` the `idx`-th sample. -/
def requested (fmode : MlifFileMode) (bytes : Bytes) (idx : UInt64) (config : MlifDataConfig) :
    Region :=
  let size := sampleBytes config.dtype config.shape
  match fmode with
  | .npy => ⟨10 + headerLength bytes + idx.toNat * size,
      size * (config.nsample.toNat / config.nbatch.toNat)⟩
  | _ => ⟨idx.toNat * size, size⟩

theorem payloadStream_pos (header : Header) (bytes first second : Bytes) (idx size : UInt64) :
    ((payloadStream header bytes first second idx size).pos : Int) =
      if (header.offset.toInt + 10 + (idx.toNat * size.toNat : Nat) : Int).bmod (2 ^ 64) < 0 then
        ((61 + (first.length + 2) + (second.length + 2) : Nat) : Int)
      else (header.offset.toInt + 10 + (idx.toNat * size.toNat : Nat) : Int).bmod (2 ^ 64) := by
  rw [payloadStream, Nat.cast_mul, ← seekTarget]
  split
  next h => rw [Stream.fseek_set_neg _ h]
  next h => rw [Stream.fseek_set _ (by omega)]; simp only; omega

/-- A seek to a negative position leaves the stream at the end of the counts. -/
theorem payloadStream_pos_of_neg {header : Header} (bytes first second : Bytes) {idx size : UInt64}
    (h : (header.offset.toInt + 10 + (idx.toNat * size.toNat : Nat) : Int).bmod (2 ^ 64) < 0) :
    (payloadStream header bytes first second idx size).pos =
      61 + (first.length + 2) + (second.length + 2) := by
  have hpos := payloadStream_pos header bytes first second idx size
  rw [if_pos h] at hpos
  exact Int.natCast_inj.mp hpos

theorem payloadStream_bytes (header : Header) (bytes first second : Bytes) (idx size : UInt64) :
    (payloadStream header bytes first second idx size).bytes = bytes := by
  rw [payloadStream, Stream.fseek]
  split <;> rfl

theorem loading_data_zero (header : Header) {bytes first second : Bytes} {idx : UInt64}
    (s : Loading) {pos : Nat}
    (hpos : (payloadStream header bytes first second idx
      (sampleSize header.dtype s.config.shape)).pos = pos)
    (hn : 0 < (sampleSize header.dtype s.config.shape * countSize second).toNat)
    (hin : pos < bytes.length) :
    bytes[pos]? = some ((loading header bytes first second idx s).data 0) := by
  let fp := payloadStream header bytes first second idx (sampleSize header.dtype s.config.shape)
  have hbytes : fp.bytes = bytes := payloadStream_bytes ..
  have hlen : 0 < (fp.fread (sampleSize header.dtype s.config.shape *
      countSize second).toNat).1.length := by
    rw [length_fread, hbytes, hpos]
    omega
  have hbyte := fread_getElem? fp hlen
  rw [hbytes, hpos, Nat.add_zero] at hbyte
  rw [hbyte]
  exact congrArg some (Memory.store_of_lt s.data hlen).symm

/-- The seek to the payload ends at its byte `start`: the header length keeps its value as a `short`
made of `char`s and the position is a `long`, or the seek fails where the counts end at `start`. -/
def SeekReaches (charSigned : Bool) (bytes first second : Bytes) (idx size start : Nat) : Prop :=
  ((bytes.getD 9 0).toNat < 128 ∧ (charSigned = true → (bytes.getD 8 0).toNat < 128) ∧
      start < 2 ^ 63) ∨
    (((headerOffset charSigned [bytes.getD 8 0, bytes.getD 9 0]).toInt + 10 +
        (idx * size : Nat)).bmod (2 ^ 64) < 0 ∧
      61 + (first.length + 2) + (second.length + 2) = start)

/-- Of all 16-bit lengths, only that of the header itself takes the seek to the payload. -/
theorem seek_eq_iff {offset pos : Int} {length skip counted : Nat} (hlow : -2 ^ 15 ≤ offset)
    (hhigh : offset < 2 ^ 15) (hlength : length < 2 ^ 16)
    (hpos : pos = if (offset + 10 + skip).bmod (2 ^ 64) < 0 then (counted : Int)
      else (offset + 10 + skip).bmod (2 ^ 64)) :
    pos = (10 + length + skip : Nat) ↔ (offset = length ∧ 10 + length + skip < 2 ^ 63) ∨
      ((offset + 10 + skip).bmod (2 ^ 64) < 0 ∧ counted = 10 + length + skip) := by
  rw [Int.bmod_def] at hpos ⊢
  split at hpos <;> omega

theorem payloadStream_pos_eq_iff {charSigned : Bool} {stack : Vector UInt8 3}
    {bytes first second : Bytes} {idx size : UInt64} :
    (payloadStream (fileHeader charSigned stack bytes) bytes first second idx size).pos =
        10 + headerLength bytes + idx.toNat * size.toNat ↔
      SeekReaches charSigned bytes first second idx.toNat size.toNat
        (10 + headerLength bytes + idx.toNat * size.toNat) := by
  have hlo := (bytes.getD 8 0).toNat_lt
  have hhi := (bytes.getD 9 0).toNat_lt
  have hlength : headerLength bytes < 2 ^ 16 := by
    rw [headerLength]
    omega
  rw [SeekReaches, ← and_assoc, ← headerOffset_eq_iff charSigned, ← Int.natCast_inj]
  exact seek_eq_iff (Int16.le_toInt _) (Int16.toInt_lt _) hlength (payloadStream_pos _ _ _ _ _ _)

/-- The requested samples are those of one batch. -/
theorem requested_count {charSigned : Bool} {stack : Vector UInt8 3} {bytes first second : Bytes}
    (h : Counted bytes first second) (idx : UInt64) (config : MlifDataConfig) :
    let header := fileHeader charSigned stack bytes
    (requested .npy bytes idx (headerConfig header first second config)).count =
      sampleBytes header.dtype config.shape * countOf second := by
  obtain ⟨tail, rest, -, hf⟩ := h.fields
  have hper : (countSize second * countSize first).toNat / (countSize first).toNat =
      countOf second := by
    rw [← countSize_toNat hf, ← UInt64.toNat_div]
    exact congrArg UInt64.toNat h.quotient.2
  exact congrArg (_ * ·) hper

/-- The bytes of the requested samples are counted in a `size_t`. -/
theorem loading_eq {charSigned : Bool} {stack : Vector UInt8 3} {bytes first second : Bytes}
    (h : Counted bytes first second) (idx : UInt64) (s : Loading) :
    let header := fileHeader charSigned stack bytes
    let config := headerConfig header first second s.config
    loading header bytes first second idx s =
      afterFread
        (payloadStream header bytes first second idx (sampleSize config.dtype config.shape))
        ((requested .npy bytes idx config).count % 2 ^ 64) config s := by
  intro header config
  obtain ⟨tail, rest, -, hf⟩ := h.fields
  have hread : (sampleSize config.dtype config.shape * countSize second).toNat =
      (requested .npy bytes idx config).count % 2 ^ 64 := by
    rw [UInt64.toNat_mul, sampleSize_toNat, countSize_toNat hf, requested_count h, Nat.mod_mul_mod]
    rfl
  rw [← hread]
  rfl

/-- A call on a file with counts loads the requested samples exactly when they lie in the file,
their bytes are counted in a `size_t`, and the seek reaches them. -/
theorem loads_loading_iff {charSigned : Bool} {stack : Vector UInt8 3} {bytes first second : Bytes}
    (h : Counted bytes first second) (idx : UInt64) (s : Loading) :
    let header := fileHeader charSigned stack bytes
    let size := sampleBytes header.dtype s.config.shape
    let start := 10 + headerLength bytes + idx.toNat * size
    Loads bytes (requested .npy bytes idx (headerConfig header first second s.config)) s
        (loading header bytes first second idx s) ↔
      size * countOf second = 0 ∨ (size * countOf second < 2 ^ 64 ∧
        start + size * countOf second ≤ bytes.length ∧
        SeekReaches charSigned bytes first second idx.toNat size start) := by
  intro header size start
  let config := headerConfig header first second s.config
  have hcount : (requested .npy bytes idx config).count = size * countOf second :=
    requested_count h idx s.config
  have hbytes := payloadStream_bytes header bytes first second idx
    (sampleSize config.dtype config.shape)
  have hloading : loading header bytes first second idx s =
      afterFread
        (payloadStream header bytes first second idx (sampleSize config.dtype config.shape))
        ((requested .npy bytes idx config).count % 2 ^ 64) config s := loading_eq h idx s
  rw [hloading, ← hcount]
  by_cases hzero : (requested .npy bytes idx config).count = 0
  · simp only [hzero, true_or, iff_true, Nat.zero_mod]
    have hloads := loads_afterFread_zero (payloadStream header bytes first second idx
      (sampleSize config.dtype config.shape)) config s hzero
    rwa [hbytes] at hloads
  · have hiff := loads_afterFread_mod_iff (payloadStream header bytes first second idx
      (sampleSize config.dtype config.shape)) config s (Nat.pos_of_ne_zero hzero)
    rw [hbytes] at hiff
    rw [hiff]
    simp only [hzero, false_or]
    apply and_congr_right
    intro hlt
    have hsize : (sampleSize config.dtype config.shape).toNat = size := by
      apply sampleSize_of_lt
      apply Nat.lt_of_le_of_lt _ hlt
      rw [hcount] at hzero ⊢
      exact Nat.le_mul_of_pos_right _ (Nat.pos_of_ne_zero (Nat.ne_zero_of_mul_ne_zero_right hzero))
    have hstart : (requested .npy bytes idx config).start = 10 + headerLength bytes +
        idx.toNat * (sampleSize config.dtype config.shape).toNat := by
      rw [hsize]
      rfl
    rw [hstart, payloadStream_pos_eq_iff, hsize, and_comm]

/-! ### Mode `MLIF_FILE_BIN` -/

def binConfig (bytes : Bytes) (config : MlifDataConfig) : MlifDataConfig :=
  { config with
    nsample := (Stream.written bytes).ftell.toUInt64 / sampleSize config.dtype config.shape }

/-- The stream at the first byte to load, after the seek from the end of the file. -/
def sampleStream (bytes : Bytes) (idx size : UInt64) : Stream :=
  (⟨bytes, bytes.length, false⟩ : Stream).fseek (idx * size).toInt64 .set

theorem run_fromBin {bytes : Bytes} {idx : UInt64} {s : Loading}
    (h : sampleSize s.config.dtype s.config.shape ≠ 0) :
    (fromBin ⟨bytes, 0, false⟩ idx).run s = (.done .success,
      afterFread (sampleStream bytes idx (sampleSize s.config.dtype s.config.shape))
        (sampleSize s.config.dtype s.config.shape).toNat (binConfig bytes s.config) s) := by
  rw [fromBin]
  simp only [Prog.run_get_bind, Stream.fseek_end]
  rw [Prog.bind_done (Prog.run_div h _)]
  simp only [Prog.run_modify_bind]
  rw [Prog.bind_done (run_freadData _ _ _)]
  rfl

theorem run_fromBin_zero {bytes : Bytes} {idx : UInt64} {s : Loading}
    (h : sampleSize s.config.dtype s.config.shape = 0) :
    (fromBin ⟨bytes, 0, false⟩ idx).run s = (.fault .divideByZero, s) := by
  rw [fromBin]
  simp only [Prog.run_get_bind, h]
  exact Prog.bind_fault (Prog.run_div_zero _ _)

theorem sampleStream_pos {bytes : Bytes} {idx size : UInt64} {n : Nat} (hn : 0 < n)
    (hin : idx.toNat * size.toNat + n ≤ bytes.length) :
    (sampleStream bytes idx size).pos = idx.toNat * size.toNat ↔
      idx.toNat * size.toNat < 2 ^ 63 := by
  have htarget : (idx * size).toInt64.toInt =
      ((idx.toNat * size.toNat : Nat) : Int).bmod (2 ^ 64) := by
    rw [toInt_toInt64, UInt64.toNat_mul]
    push_cast
    exact Int.emod_bmod _ _
  rw [Int.bmod_def] at htarget
  rw [sampleStream]
  by_cases hneg : (idx * size).toInt64.toInt < 0
  · rw [Stream.fseek_set_neg _ hneg]
    simp only
    omega
  · rw [Stream.fseek_set _ (by omega)]
    simp only
    omega

/-- A call on a raw file loads the sample exactly when it lies in the file, its bytes are counted
in a `size_t`, and its position is a `long`. -/
theorem loads_sample_iff {bytes : Bytes} {idx : UInt64} {s : Loading}
    (h : sampleSize s.config.dtype s.config.shape ≠ 0) :
    Loads bytes (requested .bin bytes idx s.config) s
        (afterFread (sampleStream bytes idx (sampleSize s.config.dtype s.config.shape))
          (sampleSize s.config.dtype s.config.shape).toNat (binConfig bytes s.config) s) ↔
      sampleBytes s.config.dtype s.config.shape < 2 ^ 64 ∧
        idx.toNat * sampleBytes s.config.dtype s.config.shape < 2 ^ 63 ∧
        idx.toNat * sampleBytes s.config.dtype s.config.shape +
          sampleBytes s.config.dtype s.config.shape ≤ bytes.length := by
  have hpos : 0 < sampleBytes s.config.dtype s.config.shape := by
    by_contra hz
    apply h
    apply UInt64.toNat_inj.mp
    rw [sampleSize_toNat, show sampleBytes s.config.dtype s.config.shape = 0 by omega]
    rfl
  have hbytes : (sampleStream bytes idx (sampleSize s.config.dtype s.config.shape)).bytes =
      bytes := by
    rw [sampleStream, Stream.fseek]
    split <;> rfl
  have hiff := loads_afterFread_mod_iff
    (sampleStream bytes idx (sampleSize s.config.dtype s.config.shape)) (binConfig bytes s.config) s
    (r := requested .bin bytes idx s.config) hpos
  rw [hbytes] at hiff
  rw [sampleSize_toNat]
  refine hiff.trans (and_congr_right fun hlt => and_congr_left fun hin => ?_)
  have hsize : (sampleSize s.config.dtype s.config.shape).toNat =
      sampleBytes s.config.dtype s.config.shape := sampleSize_of_lt hlt
  simp only [requested] at hin ⊢
  rw [← hsize] at hin ⊢
  exact sampleStream_pos (by omega) hin

/-! ### The calls -/

section

variable {Path : Type} {charSigned : Bool} {stack : Vector UInt8 3} {fs : FileSystem Path}
  {path : Path} {idx : UInt64} {s : Loading}

theorem run_npy_some {bytes : Bytes} (h : fs path = some bytes) (fuel : Nat) :
    mlifioFromFile charSigned stack fuel fs .npy path idx =
      fromNpy charSigned stack fuel ⟨bytes, 0, false⟩ idx := by
  simp [mlifioFromFile, FileSystem.fopen, h]

theorem run_bin_some {bytes : Bytes} (h : fs path = some bytes) (fuel : Nat) :
    mlifioFromFile charSigned stack fuel fs .bin path idx = fromBin ⟨bytes, 0, false⟩ idx := by
  simp [mlifioFromFile, FileSystem.fopen, h]

theorem run_none (h : fs path = none) (fuel : Nat) (fmode : MlifFileMode) :
    (mlifioFromFile charSigned stack fuel fs fmode path idx).run s = (.done .error, s) := by
  cases fmode <;> simp [mlifioFromFile, FileSystem.fopen, h]

/-- The call in mode `MLIF_FILE_NPY` ends, stays in the digit buffer with room for a NUL, and does
not divide by 0 exactly when the file does not exist or its counts can be read: each ends with a
comma after at most 9 digits, and the first is not 0. -/
theorem mlifioFromFile_npy_ends_iff {Path : Type} (charSigned : Bool) (stack : Vector UInt8 3)
    (fs : FileSystem Path) (path : Path) (idx : UInt64) (s : Loading) :
    (∃ fuel status s',
        (mlifioFromFile charSigned stack fuel fs .npy path idx).run s = (.done status, s')) ↔
      ∀ bytes, fs path = some bytes → ∃ first second, Counted bytes first second := by
  cases hfile : fs path with
  | none =>
    simp only [reduceCtorEq, false_implies, implies_true, iff_true]
    exact ⟨0, .error, s, run_none hfile 0 .npy⟩
  | some bytes =>
    simp only [run_npy_some hfile, Option.some.injEq, forall_eq']
    constructor
    · rintro ⟨fuel, status, s', hrun⟩
      obtain ⟨first, second, h, -⟩ := counted_of_fromNpy hrun
      exact ⟨first, second, h⟩
    · rintro ⟨first, second, h⟩
      exact ⟨first.length + second.length + 1, _, _, run_fromNpy h (by omega) (by omega) idx s⟩

/-- On an empty file the scan for the first count never ends. -/
theorem mlifioFromFile_npy_empty : ¬ ∃ fuel status s',
    (mlifioFromFile true (Vector.replicate 3 0) fuel (fun _ : Unit => some []) .npy () 0).run
      ⟨⟨1, 1, [1], 0, 0, .uint8, .cOrder⟩, fun _ => 0, ⟨0, 0⟩⟩ = (.done status, s') := by
  rintro ⟨fuel, status, s', hrun⟩
  have hnpy : (fromNpy true (Vector.replicate 3 0) fuel ⟨[], 0, false⟩ 0).run _ = _ := hrun
  obtain ⟨first, second, h, -⟩ := counted_of_fromNpy hnpy
  have := h.length
  simp at this

/-- The status is true: after success the requested region lies in the file and has been loaded,
and after an error nothing has changed. -/
def Truthful (fmode : MlifFileMode) (content : Option Bytes) (idx : UInt64) (s s' : Loading) :
    MlifIoStatus → Prop
  | .success => ∃ bytes, content = some bytes ∧
      Loads bytes (requested fmode bytes idx s'.config) s s'
  | .error => s'.config = s.config ∧ s'.data = s.data

/-- The files on which the status is true.  In mode `MLIF_FILE_NPY`, a file whose counts can be
read holds the requested samples, and their bytes and their position are in the ranges of `size_t`
and of the seek.  In mode `MLIF_FILE_BIN`, unless the sample size is 0 modulo `2^64`, the file
holds the requested sample, and the same ranges apply. -/
def StatusHolds (charSigned : Bool) (stack : Vector UInt8 3) (bytes : Bytes) (idx : UInt64)
    (config : MlifDataConfig) : MlifFileMode → Prop
  | .npy => ∀ first second, Counted bytes first second →
      let size := sampleBytes (fileHeader charSigned stack bytes).dtype config.shape
      let start := 10 + headerLength bytes + idx.toNat * size
      size * countOf second = 0 ∨ (size * countOf second < 2 ^ 64 ∧
        start + size * countOf second ≤ bytes.length ∧
        SeekReaches charSigned bytes first second idx.toNat size start)
  | .bin =>
      let size := sampleBytes config.dtype config.shape
      size % 2 ^ 64 = 0 ∨
        (size < 2 ^ 64 ∧ idx.toNat * size < 2 ^ 63 ∧ idx.toNat * size + size ≤ bytes.length)
  | .other => True

theorem truthful_npy_iff {Path : Type} {charSigned : Bool} {stack : Vector UInt8 3}
    {fs : FileSystem Path} {path : Path} {bytes : Bytes} (hfile : fs path = some bytes)
    (idx : UInt64) (s : Loading) :
    (∀ fuel status s',
        (mlifioFromFile charSigned stack fuel fs .npy path idx).run s = (.done status, s') →
          Truthful .npy (some bytes) idx s s' status) ↔
      StatusHolds charSigned stack bytes idx s.config .npy := by
  simp only [run_npy_some hfile]
  constructor
  · intro htrue first second h
    obtain ⟨_, hbytes, hloads⟩ := htrue (first.length + second.length + 1) _ _
      (run_fromNpy h (by omega) (by omega) idx s)
    cases hbytes
    exact (loads_loading_iff h idx s).mp hloads
  · intro hholds fuel status s' hrun
    obtain ⟨first, second, h, h1, h2⟩ := counted_of_fromNpy hrun
    rw [run_fromNpy h h1 h2] at hrun
    obtain ⟨rfl, rfl⟩ : _ ∧ _ := by simpa using hrun
    exact ⟨bytes, rfl, (loads_loading_iff h idx s).mpr (hholds first second h)⟩

theorem truthful_bin_iff {Path : Type} {charSigned : Bool} {stack : Vector UInt8 3}
    {fs : FileSystem Path} {path : Path} {bytes : Bytes} (hfile : fs path = some bytes)
    (idx : UInt64) (s : Loading) :
    (∀ fuel status s',
        (mlifioFromFile charSigned stack fuel fs .bin path idx).run s = (.done status, s') →
          Truthful .bin (some bytes) idx s s' status) ↔
      StatusHolds charSigned stack bytes idx s.config .bin := by
  simp only [run_bin_some hfile, StatusHolds]
  by_cases hsize : sampleSize s.config.dtype s.config.shape = 0
  · have hmod := sampleSize_toNat s.config.dtype s.config.shape
    rw [hsize] at hmod
    simp only [run_fromBin_zero hsize, Prod.mk.injEq, reduceCtorEq, false_and, false_implies,
      implies_true, true_iff]
    exact .inl hmod.symm
  · have hmod : sampleBytes s.config.dtype s.config.shape % 2 ^ 64 ≠ 0 := by
      rw [← sampleSize_toNat]
      exact fun hz => hsize (UInt64.toNat_inj.mp hz)
    simp only [run_fromBin hsize, hmod, false_or]
    constructor
    · intro htrue
      obtain ⟨_, hbytes, hloads⟩ := htrue 0 _ _ rfl
      cases hbytes
      exact (loads_sample_iff hsize).mp hloads
    · intro hholds fuel status s' hrun
      obtain ⟨rfl, rfl⟩ : _ ∧ _ := by simpa using hrun
      exact ⟨bytes, rfl, (loads_sample_iff hsize).mpr hholds⟩

/-- The status of the call is true exactly on these files. -/
theorem mlifioFromFile_truthful_iff {Path : Type} (charSigned : Bool) (stack : Vector UInt8 3)
    (fs : FileSystem Path) (fmode : MlifFileMode) (path : Path) (idx : UInt64) (s : Loading) :
    (∀ fuel status s',
        (mlifioFromFile charSigned stack fuel fs fmode path idx).run s = (.done status, s') →
          Truthful fmode (fs path) idx s s' status) ↔
      ∀ bytes, fs path = some bytes → StatusHolds charSigned stack bytes idx s.config fmode := by
  cases hfile : fs path with
  | none =>
    simp only [reduceCtorEq, false_implies, implies_true, iff_true]
    intro fuel status s' hrun
    rw [run_none hfile] at hrun
    obtain ⟨rfl, rfl⟩ : .error = status ∧ s = s' := by simpa using hrun
    exact ⟨rfl, rfl⟩
  | some bytes =>
    simp only [Option.some.injEq, forall_eq']
    cases fmode with
    | npy => exact truthful_npy_iff hfile idx s
    | bin => exact truthful_bin_iff hfile idx s
    | other =>
      simp only [StatusHolds, iff_true]
      intro fuel status s' hrun
      obtain ⟨rfl, rfl⟩ : .error = status ∧ s = s' := by simpa [mlifioFromFile] using hrun
      exact ⟨rfl, rfl⟩

theorem mlifioFromFile_bin_empty : ¬ ∀ fuel status s',
    (mlifioFromFile true (Vector.replicate 3 0) fuel (fun _ : Unit => some []) .bin () 0).run
        ⟨⟨1, 1, [4], 0, 0, .uint8, .cOrder⟩, fun _ => 0, ⟨0, 0⟩⟩ = (.done status, s') →
      Truthful .bin (some []) 0 ⟨⟨1, 1, [4], 0, 0, .uint8, .cOrder⟩, fun _ => 0, ⟨0, 0⟩⟩ s'
        status := by
  intro htrue
  obtain ⟨bytes, hbytes, hloads⟩ := htrue 0 .success _ rfl
  cases hbytes
  have := hloads.stored 0 (by decide)
  simp at this

end

end Mlonmcu.Mlifio
