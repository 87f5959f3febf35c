import Mlonmcu.Mlifio.NpyFile
import Mlonmcu.Mlifio.Stack
import Mlonmcu.Mlifio.ToStdout

/-! The sizes of a sample that the functions compute, by what they write, print, and load. -/

namespace Mlonmcu.Mlifio

open CLib

/-- The bytes of a batch of whole samples are an object of C. -/
structure BatchOf (t : MlifDatatype) (shape : List UInt64) (config : MlifDataConfig) : Prop where
  dtype_eq : config.dtype = t
  shape_eq : config.shape = shape
  nbatch_ne : config.nbatch ≠ 0
  object : (config.nsample / config.nbatch).toNat * sampleBytes t shape < 2 ^ 64

/-- `mlifio_to_file` writes the bytes of the samples of a batch, after a header when it makes a file
in mode `MLIF_FILE_NPY`. -/
def WritesSamples (t : MlifDatatype) (shape : List UInt64) : Prop :=
  ∀ {Path : Type} [DecidableEq Path] (fs : FileSystem Path) (path : Path) (config : MlifDataConfig)
    (data : Memory), BatchOf t shape config →
    let batch := data.load ((config.nsample / config.nbatch).toNat * sampleBytes t shape)
    (mlifioToFile .npy path (some config) (some data)).run fs = (.done .success,
        Function.update fs path (some ((fs path).getD config.headerText ++ batch))) ∧
      (mlifioToFile .bin path (some config) (some data)).run fs = (.done .success,
        Function.update fs path (some ((fs path).getD [] ++ batch)))

/-- `mlifio_to_stdout` prints the bytes of each sample of a batch. -/
def PrintsSamples (t : MlifDatatype) (shape : List UInt64) : Prop :=
  ∀ (config : MlifDataConfig) (data : Memory) (ibatch : UInt64) (out : Bytes),
    BatchOf t shape config →
    let per := config.nsample / config.nbatch
    (mlifioToStdout .plain (some config) (some data) ibatch).run out = (.done .success,
        out ++ (ascii "Batch[" ++ decimal ibatch.toNat ++ ascii "]:\n") ++
          (List.range per.toNat).flatMap fun i =>
            plainSample (per * ibatch + UInt64.ofNat i).toNat
              (sample data (sampleBytes t shape) i)) ∧
      (mlifioToStdout .bin (some config) (some data) ibatch).run out = (.done .success,
        out ++ (List.range per.toNat).flatMap fun i =>
          binSample (sample data (sampleBytes t shape) i))

/-- `mlifio_from_file` loads a batch of samples from the `idx`-th on of a file in mode
`MLIF_FILE_NPY` that carries the type. -/
def LoadsNpySamples (charSigned : Bool) (stack : Vector UInt8 3) (t : MlifDatatype)
    (shape : List UInt64) : Prop :=
  ∀ (f : NpyFile) {Path : Type} (fs : FileSystem Path) (path : Path) (idx : UInt64) (s : Loading),
    f.dtype = t → f.length.toNat < 2 ^ 15 → (charSigned = true → f.length.toNat % 256 < 128) →
    fs path = some f.bytes → s.config.shape = shape →
    let r : Region :=
      ⟨10 + f.length.toNat + idx.toNat * sampleBytes t shape, sampleBytes t shape * f.per⟩
    r.start < 2 ^ 63 → r.count < 2 ^ 64 → r.start + r.count ≤ f.bytes.length →
    ∃ fuel s', (mlifioFromFile charSigned stack fuel fs .npy path idx).run s =
      (.done .success, s') ∧ Loads f.bytes r s s'

/-- `mlifio_from_file` loads the `idx`-th sample of a file in mode `MLIF_FILE_BIN`.  When a sample
has no bytes, the function divides by zero before it uses the size. -/
def LoadsBinSample (charSigned : Bool) (stack : Vector UInt8 3) (t : MlifDatatype)
    (shape : List UInt64) : Prop :=
  ∀ {Path : Type} (fs : FileSystem Path) (path : Path) (bytes : Bytes) (idx : UInt64) (s : Loading),
    fs path = some bytes → s.config.dtype = t → s.config.shape = shape →
    let r : Region := ⟨idx.toNat * sampleBytes t shape, sampleBytes t shape⟩
    0 < r.count → r.start < 2 ^ 63 → r.start + r.count ≤ bytes.length →
    ∀ fuel, ∃ s', (mlifioFromFile charSigned stack fuel fs .bin path idx).run s =
      (.done .success, s') ∧ Loads bytes r s s'

/-- All functions use the exact size of a sample. -/
structure SizesAgree (charSigned : Bool) (stack : Vector UInt8 3) (t : MlifDatatype)
    (shape : List UInt64) : Prop where
  written : WritesSamples t shape
  printed : PrintsSamples t shape
  npy : LoadsNpySamples charSigned stack t shape
  bin : LoadsBinSample charSigned stack t shape

section

variable {charSigned : Bool} {stack : Vector UInt8 3} {t : MlifDatatype} {shape : List UInt64}

/-- The writer's size of a sample is the reader's one below `2^31`, and again in the last `2^31`
values of a `size_t`. -/
theorem sizeOfInt_sampleSizeInt (t : MlifDatatype) (shape : List UInt64) :
    (sizeOfInt (sampleSizeInt t shape)).toNat =
      if sampleBytes t shape % 2 ^ 32 < 2 ^ 31 then sampleBytes t shape % 2 ^ 32
      else 2 ^ 64 - 2 ^ 32 + sampleBytes t shape % 2 ^ 32 := by
  have h := sizeOfInt_toNat (sampleSizeInt t shape)
  rw [sampleSizeInt_toInt, Int.bmod_def] at h
  split <;> omega

theorem sizeOfInt_sampleSizeInt_eq_iff (h : sampleBytes t shape < 2 ^ 64) :
    (sizeOfInt (sampleSizeInt t shape)).toNat = sampleBytes t shape ↔
      sampleBytes t shape < 2 ^ 31 ∨ 2 ^ 64 - 2 ^ 31 ≤ sampleBytes t shape := by
  rw [sizeOfInt_sampleSizeInt]
  split <;> omega

theorem writesSamples_iff (h : sampleBytes t shape < 2 ^ 64) : WritesSamples t shape ↔
    sampleBytes t shape < 2 ^ 31 ∨ 2 ^ 64 - 2 ^ 31 ≤ sampleBytes t shape := by
  rw [← sizeOfInt_sampleSizeInt_eq_iff h]
  constructor
  · intro hwrites
    let config : MlifDataConfig := ⟨1, 1, shape, 0, 0, t, .cOrder⟩
    have hone : (config.nsample / config.nbatch).toNat = 1 :=
      show ((1 : UInt64) / 1).toNat = 1 by decide
    have hbatch : BatchOf t shape config := ⟨rfl, rfl, show (1 : UInt64) ≠ 0 by decide,
      by rw [hone]; omega⟩
    have hbin := (hwrites (fun _ : Unit => none) () config (fun _ => 0) hbatch).2
    rw [run_bin hbatch.nbatch_ne, hone, Nat.one_mul] at hbin
    have hfile := congrArg (fun r => ((r.2 ()).getD []).length) hbin
    simp only [Function.update_self, Option.getD_none, Option.getD_some, List.nil_append,
      Memory.length_load] at hfile
    rw [← hfile, MlifDataConfig.writtenBytes, UInt64.toNat_mul, hone, Nat.mul_one,
      Nat.mod_eq_of_lt (UInt64.toNat_lt _)]
  · intro hsize Path _ fs path config data hbatch batch
    have hwritten : config.writtenBytes =
        (config.nsample / config.nbatch).toNat * sampleBytes t shape := by
      rw [MlifDataConfig.writtenBytes, hbatch.dtype_eq, hbatch.shape_eq, UInt64.toNat_mul, hsize,
        Nat.mul_comm, Nat.mod_eq_of_lt hbatch.object]
    refine ⟨?_, by rw [run_bin hbatch.nbatch_ne, hwritten]⟩
    cases hfile : fs path with
    | none => rw [run_create_text hbatch.nbatch_ne data hfile, hwritten]; rfl
    | some bytes => rw [run_append_bytes hbatch.nbatch_ne data hfile, hwritten]; rfl

theorem printsSamples (h : sampleBytes t shape < 2 ^ 64) : PrintsSamples t shape := by
  intro config data ibatch out hbatch per
  have hobject := hbatch.object
  obtain ⟨rfl, rfl, hnbatch, -⟩ := hbatch
  exact ⟨run_toStdout_plain hnbatch hobject h out, run_toStdout_bin hnbatch hobject h out⟩

theorem loadsBinSample (h : sampleBytes t shape < 2 ^ 64) :
    LoadsBinSample charSigned stack t shape := by
  intro Path fs path bytes idx s hfile hdtype hshape r hpos hstart hin fuel
  subst hdtype hshape
  have hne : sampleSize s.config.dtype s.config.shape ≠ 0 := by
    intro hzero
    have hsize := sampleSize_of_lt h
    rw [hzero] at hsize
    exact absurd hsize.symm (Nat.ne_of_gt hpos)
  exact ⟨_, (by rw [run_bin_some hfile]; exact run_fromBin hne),
    (loads_sample_iff hne).mpr ⟨h, hstart, hin⟩⟩

/-! ### The type of a file -/

theorem dtype_npyFile (charSigned : Bool) (stack : Vector UInt8 3) (f : NpyFile) :
    (fileHeader charSigned stack f.bytes).dtype = if stack.get 2 = 0 then f.dtype else .raw := by
  split
  next hzero => rw [NpyFile.fileHeader_eq charSigned hzero]
  next hne => exact fileHeader_third charSigned hne _

theorem sampleBytes_raw (t : MlifDatatype) (shape : List UInt64) :
    sampleBytes t shape = t.size * sampleBytes .raw shape := by
  rw [sampleBytes, sampleBytes, show MlifDatatype.raw.size = 1 from rfl, Nat.one_mul]

theorem one_lt_billion : 1 < 10 ^ 9 := by decide

theorem singleFile_fits (t : MlifDatatype) :
    (dictionary 60 t .cOrder [1, 1]).length + 1 ≤ (118 : UInt16).toNat := by
  cases t <;> decide

/-- A file of one sample, whose header announces a shape of its own. -/
def singleFile (t : MlifDatatype) (payload : Bytes) : NpyFile where
  length := 118
  byteOrder := 60
  dtype := t
  nbatch := 1
  per := 1
  shape := []
  payload := payload
  nbatch_pos := Nat.one_pos
  nbatch_lt := one_lt_billion
  per_pos := Nat.one_pos
  per_lt := one_lt_billion
  fits := singleFile_fits t

theorem loadsNpySamples_of_size
    (hsize : ∀ f : NpyFile, f.dtype = t →
      sampleBytes (fileHeader charSigned stack f.bytes).dtype shape = sampleBytes t shape) :
    LoadsNpySamples charSigned stack t shape := by
  intro f Path fs path idx s hdtype hhigh hlow hfile hshape r hstart hcount hin
  obtain ⟨fuel, hrun⟩ := @NpyFile.run_eq f charSigned stack s _ _ _ idx hfile
  refine ⟨fuel, _, hrun, ?_⟩
  have hiff := @loads_loading_iff charSigned stack _ _ _ f.counted idx s
  have hrequest := @requested_count charSigned stack _ _ _ f.counted idx s.config
  dsimp only at hrequest hiff
  rw [hshape, hsize f hdtype, f.countOf_second] at hrequest
  have hstart' : (requested .npy f.bytes idx (headerConfig (fileHeader charSigned stack f.bytes)
      (decimal f.nbatch) f.second s.config)).start = r.start := by
    simp only [requested, headerConfig, NpyFile.headerLength_eq, hshape, hsize f hdtype, r]
  have hrequested : requested .npy f.bytes idx (headerConfig (fileHeader charSigned stack f.bytes)
      (decimal f.nbatch) f.second s.config) = r :=
    congrArg₂ Region.mk hstart' hrequest
  rw [hrequested, hshape, hsize f hdtype, f.countOf_second, NpyFile.headerLength_eq] at hiff
  have hbytes := NpyFile.lengthBytes (f := f)
  exact hiff.mpr (.inr ⟨hcount, hin, .inl ⟨by omega, by rw [hbytes.1]; exact hlow, hstart⟩⟩)

/-- A read loads at most the bytes that it asks for. -/
theorem count_loaded_le {f : NpyFile} {Path : Type} {fs : FileSystem Path} {path : Path}
    {idx : UInt64} {fuel : Nat} {s s' : Loading} {status : MlifIoStatus}
    (hfile : fs path = some f.bytes)
    (hrun : (mlifioFromFile charSigned stack fuel fs .npy path idx).run s = (.done status, s')) :
    s'.loaded.count ≤ (sampleSize (fileHeader charSigned stack f.bytes).dtype s.config.shape *
      countSize f.second).toNat := by
  rw [NpyFile.eq_of_run hfile hrun]
  exact (length_fread _ _).trans_le (Nat.min_le_left _ _)

/-- As a raw type, a type of more than one byte is read too short. -/
theorem not_loadsNpySamples (h : sampleBytes t shape < 2 ^ 64) (hstack : stack.get 2 ≠ 0)
    (hsize : t.size ≠ 1) (hpos : sampleBytes t shape ≠ 0) :
    ¬ LoadsNpySamples charSigned stack t shape := by
  intro hloads
  let f := singleFile t (List.replicate (sampleBytes t shape) 0)
  let s : Loading := ⟨⟨0, 0, shape, 0, 0, t, .cOrder⟩, fun _ => 0, ⟨0, 0⟩⟩
  have hlength : f.length.toNat = 118 := rfl
  have hper : f.per = 1 := rfl
  obtain ⟨fuel, s', hrun, hload⟩ := hloads f (fun _ : Unit => some f.bytes) () 0 s rfl (by omega)
    (fun _ => by omega) rfl rfl (by simp [hlength]) (by simpa [hper] using h) (by
      rw [NpyFile.length_bytes]
      simp [f, singleFile])
  have hcount : s'.loaded.count = sampleBytes t shape * f.per := hload.count
  have hraw := sampleBytes_raw t shape
  have hlt : sampleBytes .raw shape < 2 ^ 64 :=
    Nat.lt_of_le_of_lt (hraw ▸ Nat.le_mul_of_pos_left _ t.size_pos) h
  obtain ⟨tail, rest, -, hsecond⟩ := f.counted.fields
  have hasked : (sampleSize .raw shape * countSize f.second).toNat = sampleBytes .raw shape := by
    rw [UInt64.toNat_mul, sampleSize_of_lt hlt, countSize_toNat hsecond, f.countOf_second, hper,
      Nat.mul_one, Nat.mod_eq_of_lt hlt]
  have hdtype : (fileHeader charSigned stack f.bytes).dtype = .raw := by
    rw [dtype_npyFile, if_neg hstack]
  have hle : s'.loaded.count ≤ sampleBytes .raw shape := by
    have hcount := @count_loaded_le charSigned stack f Unit _ _ _ _ _ _ _ rfl hrun
    rwa [hdtype, hasked] at hcount
  have htwo : 2 ≤ t.size := by
    have := t.size_pos
    omega
  have htwice := Nat.mul_le_mul_right (sampleBytes .raw shape) htwo
  rw [hper, Nat.mul_one] at hcount
  omega

theorem loadsNpySamples_iff (h : sampleBytes t shape < 2 ^ 64) :
    LoadsNpySamples charSigned stack t shape ↔
      stack.get 2 = 0 ∨ t.size = 1 ∨ sampleBytes t shape = 0 := by
  constructor
  · intro hloads
    by_contra hnone
    push Not at hnone
    exact not_loadsNpySamples h hnone.1 hnone.2.1 hnone.2.2 hloads
  · intro hcase
    apply loadsNpySamples_of_size
    intro f hdtype
    rw [dtype_npyFile, hdtype]
    split
    next => rfl
    next hne =>
      rw [sampleBytes_raw t]
      rcases hcase with hzero | hone | hzero
      · exact absurd hzero hne
      · rw [hone, Nat.one_mul]
      · rw [sampleBytes_raw t] at hzero
        rw [hzero]
        exact (Nat.mul_eq_zero.mp hzero).resolve_left (Nat.ne_of_gt t.size_pos)

/-- The functions agree on the size of a sample exactly when an `int` holds it, up to its extension
to a `size_t`, and the type of a file is read as it is written or makes no difference. -/
theorem sizesAgree_iff (h : sampleBytes t shape < 2 ^ 64) :
    SizesAgree charSigned stack t shape ↔
      (sampleBytes t shape < 2 ^ 31 ∨ 2 ^ 64 - 2 ^ 31 ≤ sampleBytes t shape) ∧
        (stack.get 2 = 0 ∨ t.size = 1 ∨ sampleBytes t shape = 0) := by
  rw [← writesSamples_iff h, ← @loadsNpySamples_iff charSigned stack _ _ h]
  exact ⟨fun hagree => ⟨hagree.written, hagree.npy⟩,
    fun hagree => ⟨hagree.1, printsSamples h, hagree.2, loadsBinSample h⟩⟩

end

theorem sizesAgree_words : SizesAgree true (Vector.replicate 3 0) .int32 [3, 5] :=
  (sizesAgree_iff (by decide)).mpr ⟨.inl (by decide), .inl rfl⟩

/-- The writer's size of `2^31` bytes is negative as an `int`. -/
theorem not_sizesAgree_large : sampleBytes .uint8 [2 ^ 31] < 2 ^ 64 ∧
    ¬ SizesAgree true (Vector.replicate 3 0) .uint8 [2 ^ 31] := by
  refine ⟨by decide, fun hagree => ?_⟩
  have hwrites := (writesSamples_iff (by decide)).mp hagree.written
  revert hwrites
  decide

end Mlonmcu.Mlifio
