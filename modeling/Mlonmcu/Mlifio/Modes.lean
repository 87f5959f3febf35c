import Mlonmcu.Mlifio.Calls
import Mlonmcu.Mlifio.RoundTrip
import Mlonmcu.Mlifio.SampleLog
import Mlonmcu.Mlifio.Sizes

/-! Whether the two file modes are interchangeable: a read in mode `MLIF_FILE_NPY` loads the samples
of a batch, and one in mode `MLIF_FILE_BIN` loads a single sample. -/

namespace Mlonmcu.Mlifio

open CLib

/-- Configurations in C order of batches that are objects of C. -/
structure Batched (c : MlifDataConfig) : Prop extends Announced c where
  order_eq : c.order = .cOrder
  extents_pos : ∀ n ∈ c.shape, 0 < n
  object : c.batchBytes < 2 ^ 64

/-- Batches that are written in both modes are read back with the same data and the same number of
samples, from every sample on that a batch can start at.  The calls read no more than the bytes of
a batch. -/
def ModesAgree {Path : Type} [DecidableEq Path] (charSigned : Bool) (stack : Vector UInt8 3)
    (fs : FileSystem Path) (npyPath binPath : Path) (c : MlifDataConfig) : Prop :=
  ∀ batches : List Memory, batches.length = c.nbatch.toNat →
  ∀ idx, idx + c.per ≤ c.nsample.toNat →
  ∀ s : Loading, s.config.shape = c.shape → s.config.dtype = c.dtype → s.config.nbatch = c.nbatch →
    c.writtenBytes ≤ c.batchBytes ∧
    ∃ fs' fs'' fuel s' s'',
      (writeCalls .npy npyPath (batches.map (Call.mk c))).run fs =
        (.done (List.replicate batches.length .success), fs') ∧
      (writeCalls .bin binPath (batches.map (Call.mk c))).run fs' =
        (.done (List.replicate batches.length .success), fs'') ∧
      (mlifioFromFile charSigned stack fuel fs'' .npy npyPath (UInt64.ofNat idx)).run s =
        (.done .success, s') ∧
      (mlifioFromFile charSigned stack fuel fs'' .bin binPath (UInt64.ofNat idx)).run s =
        (.done .success, s'') ∧
      s'.data = s''.data ∧ s'.config.nsample = s''.config.nsample

/-! ### The sizes -/

/-- The bytes that a call writes for `per` samples of `size` bytes. -/
def writtenFor (size per : Nat) : Nat :=
  (if size % 2 ^ 32 < 2 ^ 31 then size % 2 ^ 32 else 2 ^ 64 - 2 ^ 32 + size % 2 ^ 32) * per % 2 ^ 64

theorem writtenBytes_eq (c : MlifDataConfig) :
    c.writtenBytes = writtenFor (sampleBytes c.dtype c.shape) c.per := by
  rw [MlifDataConfig.writtenBytes, UInt64.toNat_mul, UInt64.toNat_div, sizeOfInt_sampleSizeInt]
  rfl

section

variable {size per nbatch : Nat}

theorem writtenFor_low (h : size % 2 ^ 32 < 2 ^ 31) (hper : per < 10 ^ 9) :
    writtenFor size per = size % 2 ^ 32 * per := by
  have hmul : size % 2 ^ 32 * per < 2 ^ 64 :=
    Nat.lt_of_lt_of_le (Nat.mul_lt_mul'' h hper) (by decide)
  rw [writtenFor, if_pos h, Nat.mod_eq_of_lt hmul]

/-- A negative `int` is a large `size_t`. -/
theorem writtenFor_high (h : ¬ size % 2 ^ 32 < 2 ^ 31) (hpos : 0 < per) (hper : per < 10 ^ 9) :
    writtenFor size per = 2 ^ 64 - (2 ^ 32 - size % 2 ^ 32) * per := by
  have hmod := Nat.mod_lt size (show 0 < 2 ^ 32 by decide)
  obtain ⟨d, hd⟩ : ∃ d, d = 2 ^ 32 - size % 2 ^ 32 := ⟨_, rfl⟩
  have hdlt : d * per < 2 ^ 64 :=
    Nat.lt_of_lt_of_le (Nat.mul_lt_mul'' (show d < 2 ^ 32 by omega) hper) (by decide)
  have hdpos : 0 < d * per := Nat.mul_pos (by omega) hpos
  have hsum : (2 ^ 64 - 2 ^ 32 + size % 2 ^ 32) * per + d * per = 2 ^ 64 * per := by
    rw [← Nat.add_mul]
    congr 1
    omega
  rw [writtenFor, if_neg h, ← hd]
  omega

/-- Sizes of samples that the writer and the reader agree on, in a file whose size the reader can
tell. -/
def SizeFits (size nbatch : Nat) : Prop := size < 2 ^ 31 ∨ 2 ^ 64 - 2 ^ 31 ≤ size ∧ nbatch = 1

theorem SizeFits.written (h : SizeFits size nbatch) (hobject : size < 2 ^ 64) :
    writtenFor size 1 = size := by
  rw [writtenFor]
  rcases h with hlt | ⟨hle, -⟩ <;> split <;> omega

/-- The same bytes and the same number of samples are read from the first sample on only when
batches are single samples. -/
theorem sizes_agree (hsize : 0 < size) (hobject : size * per < 2 ^ 64) (hper : 0 < per)
    (hperlt : per < 10 ^ 9) (hnbatch : 0 < nbatch) {total : Nat}
    (htotal : total = nbatch * writtenFor size per) (hbounds : writtenFor size per ≤ size * per)
    (hread : min (size * per) total = min size total)
    (hcount : (if total < 2 ^ 63 then total else 2 ^ 64 - 1) / size = nbatch * per) :
    per = 1 ∧ SizeFits size nbatch := by
  have hcounted := Nat.div_mul_le_self (if total < 2 ^ 63 then total else 2 ^ 64 - 1) size
  rw [hcount] at hcounted
  have hone : size < total → per = 1 := by
    intro hlt
    by_contra hne
    have := Nat.mul_le_mul_left size (show 2 ≤ per by omega)
    omega
  have htotal_le : writtenFor size per ≤ total := htotal ▸ Nat.le_mul_of_pos_left _ hnbatch
  by_cases hlow : size % 2 ^ 32 < 2 ^ 31
  · rw [writtenFor_low hlow hperlt] at htotal htotal_le
    -- A total of at most twice the counted bytes leaves no high bits in the size.
    have hle : nbatch * per * size ≤ nbatch * per * (2 * (size % 2 ^ 32)) := by
      have htwice : nbatch * per * (2 * (size % 2 ^ 32)) = 2 * total := by
        rw [htotal]
        ring
      split at hcounted <;> omega
    have hlt := Nat.le_of_mul_le_mul_left hle (Nat.mul_pos hnbatch hper)
    have hmod : size % 2 ^ 32 = size := Nat.mod_eq_of_lt (by omega)
    rw [hmod] at hlow htotal_le
    have hself := Nat.le_mul_of_pos_right size hper
    have heq : size * per = size := by omega
    exact ⟨Nat.eq_of_mul_eq_mul_left hsize (heq.trans (Nat.mul_one size).symm), .inl hlow⟩
  · rw [writtenFor_high hlow hper hperlt] at hbounds htotal_le
    have hmod := Nat.mod_lt size (show 0 < 2 ^ 32 by decide)
    have hdiff : (2 ^ 32 - size % 2 ^ 32) * per ≤ 2 ^ 31 * 10 ^ 9 :=
      Nat.mul_le_mul (by omega) (Nat.le_of_lt hperlt)
    have hper1 : per = 1 := by
      by_contra hne
      have := Nat.mul_le_mul_left size (show 2 ≤ per by omega)
      exact hne (hone (by omega))
    subst hper1
    refine ⟨rfl, .inr ⟨by omega, ?_⟩⟩
    rw [Nat.mul_one] at hcounted
    by_contra hne
    have := Nat.mul_le_mul_right size (show 2 ≤ nbatch by omega)
    split at hcounted <;> omega

end

/-! ### The reads -/

section

variable {Path : Type} {charSigned : Bool} {stack : Vector UInt8 3} {fs : FileSystem Path}
  {path : Path} {c : MlifDataConfig} {payload : Bytes} {s : Loading} {idx : Nat}

/-- A read stores what is left of the file up to the bytes that it asks for. -/
theorem loading_store (header : Header) (bytes first second : Bytes) (idx : UInt64) (s : Loading) :
    let size := sampleSize header.dtype s.config.shape
    (loading header bytes first second idx s).data = s.data.store
      ((payloadStream header bytes first second idx size).rest.take
        (size * countSize second).toNat) := by
  unfold loading
  rfl

/-- The bytes of a batch that a read in mode `MLIF_FILE_NPY` stores. -/
theorem loading_data (h : Batched c) (hstack : stack.get 2 = 0)
    (hshape : s.config.shape = c.shape)
    (hidx : npyHeaderSize + idx * sampleBytes c.dtype c.shape < 2 ^ 63) :
    let f := h.npyFile payload
    (loading (fileHeader charSigned stack f.bytes) f.bytes (decimal f.nbatch) f.second
        (UInt64.ofNat idx) s).data = s.data.store
      ((payload.drop (idx * sampleBytes c.dtype c.shape)).take c.batchBytes) := by
  intro f
  have hlength : f.length.toNat = 118 := rfl
  have hbytes : f.bytes = c.header ++ payload := h.bytes_npyFile h.order_eq payload
  have hpos := sampleBytes_pos (t := c.dtype) h.extents_pos
  have hle := Nat.le_mul_of_pos_right idx hpos
  have hindex : (UInt64.ofNat idx).toNat = idx := by
    rw [UInt64.toNat_ofNat', Nat.mod_eq_of_lt (by simp only [npyHeaderSize] at hidx; omega)]
  have hlt : sampleBytes c.dtype c.shape < 2 ^ 64 :=
    Nat.lt_of_le_of_lt (Nat.le_mul_of_pos_right _ h.per_pos) h.object
  let size := sampleSize (fileHeader charSigned stack f.bytes).dtype s.config.shape
  let fp := payloadStream (fileHeader charSigned stack f.bytes) f.bytes (decimal f.nbatch) f.second
    (UInt64.ofNat idx) size
  have hsize : size.toNat = f.size := by
    show (sampleSize (fileHeader charSigned stack f.bytes).dtype s.config.shape).toNat = _
    rw [NpyFile.fileHeader_eq charSigned hstack, hshape]
    exact sampleSize_of_lt hlt
  have hreach := (NpyFile.seekReaches_iff (f := f) charSigned (UInt64.ofNat idx)).mpr
    ⟨by omega, fun _ => by omega, by rw [NpyFile.region, hindex, hlength]; exact hidx⟩
  have hstart : fp.pos = npyHeaderSize + idx * sampleBytes c.dtype c.shape := by
    rw [payloadStream_pos_eq_iff.mpr (by rw [hsize, NpyFile.headerLength_eq]; exact hreach), hsize,
      NpyFile.headerLength_eq, hindex]
    rfl
  obtain ⟨tail, rest, -, hsecond⟩ := f.counted.fields
  have hcount : (size * countSize f.second).toNat = c.batchBytes := by
    rw [UInt64.toNat_mul, hsize, countSize_toNat hsecond, f.countOf_second]
    exact Nat.mod_eq_of_lt h.object
  have hrest : fp.rest = payload.drop (idx * sampleBytes c.dtype c.shape) := by
    rw [Stream.rest, payloadStream_bytes, hstart, hbytes, ← h.length_header,
      List.drop_length_add_append]
  rw [← hrest, ← hcount]
  exact loading_store _ _ _ _ _ _

theorem read_bin (hpos : 0 < sampleBytes c.dtype c.shape)
    (hlt : sampleBytes c.dtype c.shape < 2 ^ 64) (hfile : fs path = some payload)
    (hshape : s.config.shape = c.shape) (hdtype : s.config.dtype = c.dtype)
    (hidx : idx * sampleBytes c.dtype c.shape < 2 ^ 63) (fuel : Nat) : ∃ s',
    (mlifioFromFile charSigned stack fuel fs .bin path (UInt64.ofNat idx)).run s =
        (.done .success, s') ∧
      s'.data = s.data.store ((payload.drop (idx * sampleBytes c.dtype c.shape)).take
        (sampleBytes c.dtype c.shape)) ∧
      s'.config.nsample.toNat = (if payload.length < 2 ^ 63 then payload.length else 2 ^ 64 - 1) /
        sampleBytes c.dtype c.shape := by
  have hle := Nat.le_mul_of_pos_right idx hpos
  have hindex : (UInt64.ofNat idx).toNat = idx := by
    rw [UInt64.toNat_ofNat', Nat.mod_eq_of_lt (by omega)]
  have hsize : (sampleSize s.config.dtype s.config.shape).toNat =
      sampleBytes c.dtype c.shape := by
    rw [hdtype, hshape]
    exact sampleSize_of_lt hlt
  have hne : sampleSize s.config.dtype s.config.shape ≠ 0 := by
    rw [hdtype, hshape]
    exact sampleSize_ne_zero hpos hlt
  have htarget : (UInt64.ofNat idx * sampleSize s.config.dtype s.config.shape).toInt64.toInt =
      (idx * sampleBytes c.dtype c.shape : Nat) := by
    rw [toInt_toInt64, UInt64.toNat_mul, hindex, hsize, Nat.mod_eq_of_lt (by omega), Int.bmod_def]
    omega
  refine ⟨_, by rw [run_bin_some hfile]; exact run_fromBin hne, ?_, ?_⟩
  · rw [sampleStream, Stream.fseek_set _ (by omega), htarget, hsize]
    rfl
  · simp only [afterFread, binConfig, UInt64.toNat_div, hsize, Stream.ftell_toUInt64]
    rfl

end

/-! ### The calls -/

section

variable {Path : Type} [DecidableEq Path] {charSigned : Bool} {stack : Vector UInt8 3}
  {fs : FileSystem Path} {npyPath binPath : Path} {c : MlifDataConfig} {batches : List Memory}

/-- The bytes that calls for batches write after a header. -/
def payload (c : MlifDataConfig) (batches : List Memory) : Bytes :=
  (batches.map (Call.mk c)).flatMap Call.written

theorem length_payload (c : MlifDataConfig) (batches : List Memory) :
    (payload c batches).length = batches.length * c.writtenBytes := by
  simp [payload, List.length_flatMap, Call.written, Function.comp_def]

/-- The two files that the calls in the two modes make. -/
def modesFiles (fs : FileSystem Path) (npyPath binPath : Path) (c : MlifDataConfig)
    (batches : List Memory) : FileSystem Path :=
  Function.update (Function.update fs npyPath (some (c.header ++ payload c batches)))
    binPath (some (payload c batches))

theorem run_modes (h : Announced c) (hnpy : fs npyPath = none) (hbin : fs binPath = none)
    (hne : npyPath ≠ binPath) (hlength : batches.length = c.nbatch.toNat) : ∃ fs',
    (writeCalls .npy npyPath (batches.map (Call.mk c))).run fs =
        (.done (List.replicate batches.length .success), fs') ∧
      (writeCalls .bin binPath (batches.map (Call.mk c))).run fs' =
        (.done (List.replicate batches.length .success),
          modesFiles fs npyPath binPath c batches) := by
  have hcount : (batches.map (Call.mk c)).length = batches.length := List.length_map ..
  have hnbatch : ∀ call ∈ batches.map (Call.mk c), call.config.nbatch ≠ 0 := by
    intro call hcall
    obtain ⟨data, -, rfl⟩ := List.mem_map.mp hcall
    exact h.nbatch_ne
  rw [modesFiles, payload, ← hcount]
  obtain ⟨call, calls, hcalls⟩ : ∃ call calls, batches.map (Call.mk c) = call :: calls :=
    List.exists_cons_of_length_pos (by rw [hcount, hlength]; exact h.nbatch_pos)
  have hconfig : call.config = c := by
    obtain ⟨data, -, rfl⟩ := List.mem_map.mp (hcalls ▸ List.mem_cons_self)
    rfl
  rw [hcalls] at hnbatch ⊢
  refine ⟨_, run_writeCalls_npy hnbatch hnpy, ?_⟩
  rw [run_writeCalls_bin hnbatch, Function.update_of_ne hne.symm, hbin, hconfig,
    headerText_eq h.fits]
  rfl

/-- Stored ones show how many bytes a read stored. -/
theorem eq_of_store_ones {m n : Nat}
    (h : Memory.store (fun _ => 0) (List.replicate m 1) =
      Memory.store (fun _ => 0) (List.replicate n 1)) : m = n := by
  have hstored : ∀ k i : Nat, Memory.store (fun _ => 0) (List.replicate k 1) i ≠ 0 ↔ i < k := by
    intro k i
    rw [Memory.store, List.getElem?_replicate]
    split <;> simp_all
  have hiff : ∀ i, i < m ↔ i < n := fun i => by rw [← hstored m, ← hstored n, h]
  have := hiff m
  have := hiff n
  omega

theorem payload_ones (c : MlifDataConfig) (n : Nat) :
    payload c (List.replicate n fun _ => 1) = List.replicate (n * c.writtenBytes) 1 := by
  refine List.eq_replicate_iff.mpr ⟨by rw [length_payload, List.length_replicate], ?_⟩
  intro b hb
  obtain ⟨call, hcall, hb⟩ := List.mem_flatMap.mp hb
  obtain ⟨data, hdata, rfl⟩ := List.mem_map.mp hcall
  obtain ⟨i, -, rfl⟩ := List.mem_map.mp hb
  rw [List.eq_of_mem_replicate hdata]

theorem nsample_toNat (h : Announced c) : c.nsample.toNat = c.nbatch.toNat * c.per := by
  rw [MlifDataConfig.per, Nat.mul_div_cancel' h.nbatch_dvd]

/-- The reads of the first batch show the sizes that the modes use. -/
theorem sizes_of_modesAgree (h : Batched c) (hstack : stack.get 2 = 0) (hnpy : fs npyPath = none)
    (hbin : fs binPath = none) (hne : npyPath ≠ binPath)
    (hagree : ModesAgree charSigned stack fs npyPath binPath c) :
    c.per = 1 ∧ SizeFits (sampleBytes c.dtype c.shape) c.nbatch.toNat := by
  have hsize := sampleBytes_pos (t := c.dtype) h.extents_pos
  have hlt : sampleBytes c.dtype c.shape < 2 ^ 64 :=
    Nat.lt_of_le_of_lt (Nat.le_mul_of_pos_right _ h.per_pos) h.object
  let batches : List Memory := List.replicate c.nbatch.toNat fun _ => 1
  have hlength : batches.length = c.nbatch.toNat := List.length_replicate
  have hper : 0 + c.per ≤ c.nsample.toNat := by rw [Nat.zero_add]; exact Nat.div_le_self ..
  obtain ⟨hbounds, fs1, fs2, fuel, s1, s2, hfirst, hsecond, hread1, hread2, hdata, hnsample⟩ :=
    hagree batches hlength 0 hper ⟨c, fun _ => 0, ⟨0, 0⟩⟩ rfl rfl rfl
  obtain ⟨fs', hrun1, hrun2⟩ := run_modes h.toAnnounced hnpy hbin hne hlength
  rw [hrun1] at hfirst
  obtain rfl := (Prod.mk.inj hfirst).2
  rw [hrun2] at hsecond
  obtain rfl := (Prod.mk.inj hsecond).2
  have hones := payload_ones c c.nbatch.toNat
  have hfile1 : modesFiles fs npyPath binPath c batches npyPath =
      some (h.npyFile (payload c batches)).bytes := by
    rw [modesFiles, Function.update_of_ne hne, Function.update_self, h.bytes_npyFile h.order_eq]
  have hfile2 : modesFiles fs npyPath binPath c batches binPath = some (payload c batches) :=
    Function.update_self ..
  have hloading := NpyFile.eq_of_run hfile1 hread1
  have hdata1 := @loading_data charSigned stack c (payload c batches) ⟨c, fun _ => 0, ⟨0, 0⟩⟩ 0 h
    hstack rfl (by simp [npyHeaderSize])
  have hnsample1 := @config_loading charSigned stack c ⟨c, fun _ => 0, ⟨0, 0⟩⟩ h.toAnnounced
    h.order_eq hstack (payload c batches) (UInt64.ofNat 0)
  dsimp only at hdata1 hnsample1
  obtain ⟨s3, hread3, hdata2, hnsample2⟩ := @read_bin _ charSigned stack _ _ c _
    ⟨c, fun _ => 0, ⟨0, 0⟩⟩ 0 hsize hlt hfile2 rfl rfl (by simp) fuel
  rw [hread2] at hread3
  obtain rfl := (Prod.mk.inj hread3).2
  rw [← hloading] at hdata1 hnsample1
  rw [hdata1, hdata2, Nat.zero_mul, List.drop_zero, hones, List.take_replicate,
    List.take_replicate] at hdata
  rw [← hnsample, hnsample1, length_payload, hlength, nsample_toNat h.toAnnounced] at hnsample2
  have hwritten := writtenBytes_eq c
  rw [hwritten] at hdata hnsample2 hbounds
  exact sizes_agree hsize h.object h.per_pos h.per_lt h.nbatch_pos rfl hbounds
    (eq_of_store_ones hdata) hnsample2.symm

theorem SizeFits.range {size nbatch idx : Nat} (h : SizeFits size nbatch) (hidx : idx < nbatch)
    (hnbatch : nbatch < 10 ^ 9) : npyHeaderSize + idx * size < 2 ^ 63 := by
  simp only [npyHeaderSize]
  rcases h with hlt | ⟨-, rfl⟩
  · have hmul : idx * size ≤ 10 ^ 9 * 2 ^ 31 := Nat.mul_le_mul (by omega) (by omega)
    omega
  · have hzero : idx = 0 := by omega
    rw [hzero, Nat.zero_mul]
    decide

theorem SizeFits.count {size nbatch : Nat} (h : SizeFits size nbatch) (hsize : 0 < size)
    (hobject : size < 2 ^ 64) (hnbatch : nbatch < 10 ^ 9) :
    (if nbatch * size < 2 ^ 63 then nbatch * size else 2 ^ 64 - 1) / size = nbatch := by
  rcases h with hlt | ⟨hle, rfl⟩
  · have hmul : nbatch * size ≤ 10 ^ 9 * 2 ^ 31 := Nat.mul_le_mul (by omega) (by omega)
    rw [if_pos (by omega), Nat.mul_div_cancel _ hsize]
  · rw [Nat.one_mul, if_neg (by omega)]
    exact Nat.div_eq_of_lt_le (by omega) (by omega)

/-- The two modes are interchangeable exactly when batches are single samples whose size the writer
computes, in a file whose size the reader can tell. -/
theorem modesAgree_iff (h : Batched c) (hstack : stack.get 2 = 0) (hnpy : fs npyPath = none)
    (hbin : fs binPath = none) (hne : npyPath ≠ binPath) :
    ModesAgree charSigned stack fs npyPath binPath c ↔
      c.nsample.toNat / c.nbatch.toNat = 1 ∧
        (sampleBytes c.dtype c.shape < 2 ^ 31 ∨
          2 ^ 64 - 2 ^ 31 ≤ sampleBytes c.dtype c.shape ∧ c.nbatch.toNat = 1) := by
  refine ⟨sizes_of_modesAgree h hstack hnpy hbin hne, ?_⟩
  rintro ⟨hper, hfits⟩ batches hlength idx hidx s hshape hdtype -
  change c.per = 1 at hper
  change SizeFits (sampleBytes c.dtype c.shape) c.nbatch.toNat at hfits
  have hsize := sampleBytes_pos (t := c.dtype) h.extents_pos
  have hbatch : c.batchBytes = sampleBytes c.dtype c.shape := by
    rw [MlifDataConfig.batchBytes, hper, Nat.mul_one]
  have hlt : sampleBytes c.dtype c.shape < 2 ^ 64 := hbatch ▸ h.object
  have hwritten : c.writtenBytes = sampleBytes c.dtype c.shape := by
    rw [writtenBytes_eq, hper, hfits.written hlt]
  have hnsample := nsample_toNat h.toAnnounced
  rw [hper, Nat.mul_one] at hnsample
  have hrange := hfits.range (show idx < c.nbatch.toNat by omega) h.nbatch_lt
  obtain ⟨fs', hrun1, hrun2⟩ := run_modes h.toAnnounced hnpy hbin hne hlength
  have hfile1 : modesFiles fs npyPath binPath c batches npyPath =
      some (h.npyFile (payload c batches)).bytes := by
    rw [modesFiles, Function.update_of_ne hne, Function.update_self, h.bytes_npyFile h.order_eq]
  have hfile2 : modesFiles fs npyPath binPath c batches binPath = some (payload c batches) :=
    Function.update_self ..
  obtain ⟨fuel, hread1⟩ := @NpyFile.run_eq _ charSigned stack s _ _ _ (UInt64.ofNat idx) hfile1
  obtain ⟨s2, hread2, hdata2, hnsample2⟩ := @read_bin _ charSigned stack _ _ c _ s idx hsize hlt
    hfile2 hshape hdtype (by simp only [npyHeaderSize] at hrange; omega) fuel
  have hconfig := @config_loading charSigned stack c s h.toAnnounced h.order_eq hstack
    (payload c batches) (UInt64.ofNat idx)
  refine ⟨by rw [hwritten, hbatch], fs', _, fuel, _, s2, hrun1, hrun2, hread1, hread2, ?_, ?_⟩
  · rw [hdata2, loading_data h hstack hshape hrange, hbatch]
  · apply UInt64.toNat_inj.mp
    rw [hnsample2, length_payload, hlength, hwritten, hfits.count hsize hlt h.nbatch_lt]
    exact (congrArg (fun config => config.nsample.toNat) hconfig).trans hnsample

/-- Batches of `per` samples of one byte. -/
def bytesConfig (nbatch per : UInt64) : MlifDataConfig :=
  ⟨nbatch, nbatch * per, [1], 0, 0, .uint8, .cOrder⟩

theorem batched_bytesConfig {nbatch per : UInt64} (h : Announced (bytesConfig nbatch per)) :
    Batched (bytesConfig nbatch per) := by
  refine ⟨h, rfl, List.forall_mem_singleton.mpr (by decide), ?_⟩
  have hone : sampleBytes .uint8 [1] = 1 := rfl
  rw [MlifDataConfig.batchBytes, bytesConfig, hone, Nat.one_mul]
  exact Nat.lt_trans h.per_lt (by decide)

theorem modesAgree_singles : ModesAgree true (Vector.replicate 3 0) (fun _ : Bool => none) false
    true (bytesConfig 2 1) :=
  (modesAgree_iff (batched_bytesConfig ⟨by decide, by decide, by decide, by decide, by decide,
    by decide⟩) rfl rfl rfl (by decide)).mpr ⟨by decide, .inl (by decide)⟩

/-- The read of a batch of two samples in mode `MLIF_FILE_BIN` loads one of them. -/
theorem not_modesAgree_pairs : Batched (bytesConfig 1 2) ∧
    ¬ ModesAgree true (Vector.replicate 3 0) (fun _ : Bool => none) false true
      (bytesConfig 1 2) := by
  have h : Batched (bytesConfig 1 2) :=
    batched_bytesConfig ⟨by decide, by decide, by decide, by decide, by decide, by decide⟩
  refine ⟨h, fun hagree => ?_⟩
  have hper := (sizes_of_modesAgree h rfl rfl rfl (by decide) hagree).1
  exact absurd hper (by decide)

end

end Mlonmcu.Mlifio
