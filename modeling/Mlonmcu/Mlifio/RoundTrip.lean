import Mathlib.Tactic.Ring
import Mlonmcu.Mlifio.Calls
import Mlonmcu.Mlifio.NpyFile

/-! Files that `mlifio_to_file` writes and `mlifio_from_file` reads. -/

namespace Mlonmcu.Mlifio

open CLib

namespace Announced

variable {c : MlifDataConfig} (h : Announced c)

include h in
/-- The spelling of C order is the longer one, so the dictionary fits with it. -/
theorem fits_cOrder : (dictionary 60 c.dtype .cOrder
    (c.nbatch.toNat :: c.per :: c.shape.map UInt64.toNat)).length + 1 ≤
      (UInt16.ofNat (npyHeaderSize - 10)).toNat := by
  have hfits := h.fits
  rw [MlifDataConfig.dictionary, length_dictionary] at hfits
  have horder : 4 ≤ c.order.text.length := by cases c.order <;> decide
  have hlength : (UInt16.ofNat (npyHeaderSize - 10)).toNat = 118 := rfl
  have hcOrder : MlifDataOrder.cOrder.text.length = 5 := rfl
  rw [length_dictionary, hlength]
  simp only [npyHeaderSize, MlifDataConfig.extents] at hfits ⊢
  omega

/-- The file that a configuration in C order makes, with any bytes after the header. -/
def npyFile (payload : Bytes) : NpyFile where
  length := UInt16.ofNat (npyHeaderSize - 10)
  byteOrder := 60
  dtype := c.dtype
  nbatch := c.nbatch.toNat
  per := c.per
  shape := c.shape
  payload := payload
  nbatch_pos := h.nbatch_pos
  nbatch_lt := h.nbatch_lt
  per_pos := h.per_pos
  per_lt := h.per_lt
  fits := h.fits_cOrder

theorem bytes_npyFile (horder : c.order = .cOrder) (payload : Bytes) :
    (h.npyFile payload).bytes = c.header ++ payload := by
  rw [MlifDataConfig.header, MlifDataConfig.dictionary, horder]
  rfl

end Announced

/-- The file of a configuration whose batches are written and read. -/
def Writable.npyFile {c : MlifDataConfig} (h : Writable c) (payload : Bytes) : NpyFile :=
  h.toAnnounced.npyFile payload

/-- A read from the `idx`-th sample on succeeds and stores exactly the batch. -/
def LoadsBatch {Path : Type} (charSigned : Bool) (stack : Vector UInt8 3) (fs : FileSystem Path)
    (path : Path) (c : MlifDataConfig) (s : Loading) (idx : UInt64) (batch : Memory) : Prop :=
  ∃ fuel s', (mlifioFromFile charSigned stack fuel fs .npy path idx).run s =
      (.done .success, s') ∧
    s'.config = { s.config with
      dtype := c.dtype
      order := c.order
      nbatch := c.nbatch
      nsample := c.nsample } ∧
    (∀ i < c.batchBytes, s'.data i = batch i) ∧ ∀ i, c.batchBytes ≤ i → s'.data i = s.data i

section

variable {Path : Type} {charSigned : Bool} {stack : Vector UInt8 3} {fs : FileSystem Path}
  {path : Path} {c : MlifDataConfig} {s : Loading}

/-- The configuration that is read from a file is the one that it was written with. -/
theorem config_loading (h : Announced c) (horder : c.order = .cOrder) (hstack : stack.get 2 = 0)
    (payload : Bytes) (idx : UInt64) :
    let f := h.npyFile payload
    (loading (fileHeader charSigned stack f.bytes) f.bytes (decimal f.nbatch) f.second
        idx s).config =
      { s.config with
        dtype := c.dtype
        order := c.order
        nbatch := c.nbatch
        nsample := c.nsample } := by
  intro f
  obtain ⟨tail, rest, hfirst, hsecond⟩ := f.counted.fields
  have hnbatch : countSize (decimal f.nbatch) = c.nbatch := by
    apply UInt64.toNat_inj.mp
    rw [countSize_toNat hfirst]
    exact (congrArg digitsValue (filter_decimal _)).trans (digitsValue_decimal _)
  have hnsample : countSize f.second * countSize (decimal f.nbatch) = c.nsample := by
    apply UInt64.toNat_inj.mp
    rw [UInt64.toNat_mul, countSize_toNat hsecond, f.countOf_second, hnbatch]
    have hdiv : f.per * c.nbatch.toNat = c.nsample.toNat := Nat.div_mul_cancel h.nbatch_dvd
    rw [hdiv, Nat.mod_eq_of_lt c.nsample.toNat_lt]
  rw [hnbatch] at hnsample
  simp only [loading, headerConfig, NpyFile.fileHeader_eq charSigned hstack, hnbatch, hnsample,
    horder]
  rfl

/-- A batch that lies in the file at a position of type `long` is loaded. -/
theorem loadsBatch (h : Writable c) (horder : c.order = .cOrder) (hstack : stack.get 2 = 0)
    {payload : Bytes} (hfile : fs path = some (c.header ++ payload))
    (hshape : s.config.shape = c.shape) (b : Nat) (hb : b < c.nbatch.toNat)
    (hrange : npyHeaderSize + b * c.batchBytes < 2 ^ 63) (batch : Memory)
    (hbatch : ∀ i < c.batchBytes, payload[b * c.batchBytes + i]? = some (batch i)) :
    LoadsBatch charSigned stack fs path c s (UInt64.ofNat (b * c.per)) batch := by
  let f := h.npyFile payload
  let idx := UInt64.ofNat (b * c.per)
  have hbytes : f.bytes = c.header ++ payload := h.toAnnounced.bytes_npyFile horder payload
  have hidx : idx.toNat = b * c.per := by
    have : b * c.per < 2 ^ 64 :=
      Nat.lt_of_lt_of_le (Nat.mul_lt_mul'' (Nat.lt_trans hb h.nbatch_lt) h.per_lt) (by decide)
    rw [UInt64.toNat_ofNat', Nat.mod_eq_of_lt this]
  have hstart : (f.region idx).start = npyHeaderSize + b * c.batchBytes := by
    show 10 + 118 + idx.toNat * sampleBytes c.dtype c.shape = _
    rw [hidx, MlifDataConfig.batchBytes, Nat.mul_comm (sampleBytes _ _), Nat.mul_assoc]
    rfl
  have hcount : (f.region idx).count = c.batchBytes := rfl
  have hlt : c.batchBytes < 2 ^ 64 :=
    Nat.lt_of_lt_of_le (Nat.mul_lt_mul'' h.size_lt h.per_lt) (by decide)
  have hpos : 0 < c.batchBytes := Nat.mul_pos (sampleBytes_pos h.extents_pos) h.per_pos
  have hin : (f.region idx).start + (f.region idx).count ≤ f.bytes.length := by
    have hlast := (List.getElem?_eq_some_iff.mp (hbatch (c.batchBytes - 1) (by omega))).1
    rw [hstart, hcount, hbytes, List.length_append, h.length_header]
    omega
  have hlength : f.length.toNat = 118 := rfl
  have hsome : fs path = some f.bytes := by rw [hbytes, hfile]
  obtain ⟨fuel, hrun⟩ := @NpyFile.run_eq f charSigned stack s _ _ _ idx hsome
  have hloads := (@NpyFile.loads_iff f charSigned stack s hstack hshape idx hin).mpr
    (.inr ⟨by omega, fun _ => by omega, hstart ▸ hrange, hlt⟩)
  refine ⟨fuel, _, hrun, config_loading h.toAnnounced horder hstack payload idx, fun i hi => ?_,
    hloads.frame⟩
  have hbyte : f.bytes[(f.region idx).start + i]? = some (batch i) := by
    rw [hstart, hbytes, Nat.add_assoc, ← h.length_header, List.getElem?_append_right (by omega),
      Nat.add_sub_cancel_left, hbatch i hi]
  exact Option.some.inj ((hloads.stored i hi).symm.trans hbyte)

/-- The header in Fortran order is one character shorter before the counts, so that the first digit
of the first count is skipped. -/
theorem counted_fortranOrder (h : Writable c) (horder : c.order = .fortranOrder) {payload first
    second : Bytes} (hcounted : Counted (c.header ++ payload) first second) :
    first = (decimal c.nbatch.toNat).tail := by
  obtain ⟨tail, rest, hfirst, -⟩ := hcounted.fields
  obtain ⟨d, digits, hdigits⟩ : ∃ d digits, decimal c.nbatch.toNat = d :: digits :=
    List.exists_cons_of_ne_nil (decimal_ne_nil _)
  have hfield : ∃ tail', (c.header ++ payload).drop 61 = digits ++ 44 :: tail' := by
    rw [MlifDataConfig.header, headerBytes, MlifDataConfig.dictionary, horder, List.append_assoc,
      List.append_assoc, List.drop_drop (i := 1) (j := 60) |>.symm, drop_dictionary_fortranOrder,
      MlifDataConfig.extents, between_extents, hdigits]
    exact ⟨_, rfl⟩
  obtain ⟨tail', htail'⟩ := hfield
  have hd : ∀ c ∈ digits, isDigit c = true := fun x hx =>
    isDigit_of_mem_decimal (n := c.nbatch.toNat) (by rw [hdigits]; exact List.mem_cons_of_mem _ hx)
  have hlen := decimal_length_le (show 0 < 9 by decide) h.nbatch_lt
  rw [hdigits, List.length_cons] at hlen
  have hown := countField_digits hd (by omega) [] (by simp) tail'
  rw [List.append_nil, ← htail'] at hown
  rw [hdigits]
  exact (hfirst.unique hown).1

theorem not_loadsBatch (h : Writable c) (horder : c.order = .fortranOrder) {payload : Bytes}
    (hfile : fs path = some (c.header ++ payload)) (idx : UInt64) (batch : Memory) :
    ¬ LoadsBatch charSigned stack fs path c s idx batch := by
  rintro ⟨fuel, s', hrun, hconfig, -⟩
  rw [run_npy_some hfile] at hrun
  obtain ⟨first, second, hcounted, h1, h2⟩ := counted_of_fromNpy hrun
  rw [run_fromNpy hcounted h1 h2] at hrun
  obtain rfl := (Prod.mk.inj hrun).2
  have hnbatch : countSize first = c.nbatch := congrArg MlifDataConfig.nbatch hconfig
  obtain ⟨tail, rest, hfirst, -⟩ := hcounted.fields
  have hvalue : countOf first = c.nbatch.toNat := by rw [← countSize_toNat hfirst, hnbatch]
  have hdigits : ∀ c ∈ first.filter isDigit, isDigit c = true := fun c hc =>
    (List.mem_filter.mp hc).2
  have hshort : (first.filter isDigit).length < (decimal c.nbatch.toNat).length := by
    have hle := List.length_filter_le isDigit first
    have hpos := List.length_pos_iff.mpr (decimal_ne_nil c.nbatch.toNat)
    rw [counted_fortranOrder h horder hcounted, List.length_tail] at hle
    rw [counted_fortranOrder h horder hcounted]
    omega
  have hlt := digitsValue_lt_of_length_lt hdigits h.nbatch_pos hshort
  rw [countOf] at hvalue
  omega

end

/-! ### One batch -/

section

variable {Path : Type} [DecidableEq Path]

/-- A batch written to a new file is read back from it, with its configuration. -/
def RoundTrips (charSigned : Bool) (stack : Vector UInt8 3) (fs : FileSystem Path) (path : Path)
    (c : MlifDataConfig) (data : Memory) (s : Loading) : Prop :=
  ∃ fs', (mlifioToFile .npy path (some c) (some data)).run fs = (.done .success, fs') ∧
    LoadsBatch charSigned stack fs' path c s 0 data

variable {charSigned : Bool} {stack : Vector UInt8 3} {fs : FileSystem Path} {path : Path}
  {c : MlifDataConfig} {data : Memory} {s : Loading}

theorem roundTrips_iff_loadsBatch (h : Writable c) (hfile : fs path = none) :
    RoundTrips charSigned stack fs path c data s ↔ LoadsBatch charSigned stack
      (Function.update fs path (some (c.header ++ data.load c.batchBytes))) path c s 0 data := by
  constructor
  · rintro ⟨fs', hrun, hloads⟩
    rw [run_create h data hfile] at hrun
    obtain rfl := (Prod.mk.inj hrun).2
    exact hloads
  · exact fun hloads => ⟨_, run_create h data hfile, hloads⟩

/-- Two batches of three matrices of type `int16_t`. -/
def matrixConfig : MlifDataConfig := ⟨2, 6, [2, 3], 0, 0, .int16, .cOrder⟩

theorem writable_matrixConfig : Writable matrixConfig :=
  ⟨⟨by decide, by decide, by decide, by decide, by decide, by decide⟩,
    List.forall_mem_cons.mpr ⟨by decide, List.forall_mem_singleton.mpr (by decide)⟩, by decide⟩

/-- A batch makes the round trip exactly when the configuration is in C order. -/
theorem mlifio_roundTrips_iff (h : Writable c) (hstack : stack.get 2 = 0) (hfile : fs path = none)
    (hshape : s.config.shape = c.shape) :
    RoundTrips charSigned stack fs path c data s ↔ c.order = .cOrder := by
  rw [roundTrips_iff_loadsBatch h hfile]
  constructor
  · intro hloads
    cases horder : c.order with
    | cOrder => rfl
    | fortranOrder => exact absurd hloads (not_loadsBatch h horder (Function.update_self ..) 0 data)
  · intro horder
    have hbatch : ∀ i < c.batchBytes, (data.load c.batchBytes)[0 * c.batchBytes + i]? =
        some (data i) := by
      intro i hi
      rw [Nat.zero_mul, Nat.zero_add, Memory.load_getElem? data hi]
    have hloads := @loadsBatch Path charSigned _ _ path _ s h horder hstack _
      (Function.update_self path (some (c.header ++ data.load c.batchBytes)) fs) hshape 0
      h.nbatch_pos (by simp [npyHeaderSize]) data hbatch
    rwa [Nat.zero_mul] at hloads

theorem mlifio_roundTrips_matrix :
    RoundTrips true (Vector.replicate 3 0) (fun _ : Unit => none) () matrixConfig UInt8.ofNat
      ⟨matrixConfig, fun _ => 0, ⟨0, 0⟩⟩ :=
  (mlifio_roundTrips_iff writable_matrixConfig rfl rfl rfl).mpr rfl

def byteConfig (order : MlifDataOrder) : MlifDataConfig := ⟨1, 1, [1], 0, 0, .uint8, order⟩

theorem writable_byteConfig (order : MlifDataOrder) : Writable (byteConfig order) := by
  have hextents : ∀ n ∈ (byteConfig order).shape, 0 < n := List.forall_mem_singleton.mpr (by decide)
  cases order <;> exact ⟨⟨by decide, by decide, by decide, by decide, by decide, by decide⟩,
    hextents, by decide⟩

theorem mlifio_roundTrips_byte_fortran : Writable (byteConfig .fortranOrder) ∧
    ¬ RoundTrips true (Vector.replicate 3 0) (fun _ : Unit => none) () (byteConfig .fortranOrder)
      (fun _ => 42) ⟨byteConfig .fortranOrder, fun _ => 0, ⟨0, 0⟩⟩ := by
  refine ⟨writable_byteConfig .fortranOrder, ?_⟩
  rw [roundTrips_iff_loadsBatch (writable_byteConfig .fortranOrder) rfl]
  exact not_loadsBatch (writable_byteConfig .fortranOrder) rfl (Function.update_self ..) 0 _

end

/-! ### A run of batches -/

section

variable {Path : Type} [DecidableEq Path]

/-- Calls of `mlifio_to_file` for one batch after the other. -/
def writeBatches (path : Path) (c : MlifDataConfig) (batches : List Memory) :
    Prog (FileSystem Path) (List MlifIoStatus) :=
  writeCalls .npy path (batches.map (Call.mk c))

def batchesBytes (c : MlifDataConfig) (batches : List Memory) : Bytes :=
  batches.flatMap fun batch => batch.load c.batchBytes

variable {fs : FileSystem Path} {path : Path} {c : MlifDataConfig}

theorem length_batchesBytes (c : MlifDataConfig) (batches : List Memory) :
    (batchesBytes c batches).length = batches.length * c.batchBytes := by
  induction batches with
  | nil => simp [batchesBytes]
  | cons batch batches ih =>
    have hcons : batchesBytes c (batch :: batches) =
        batch.load c.batchBytes ++ batchesBytes c batches := List.flatMap_cons
    rw [hcons, List.length_append, ih, Memory.length_load, List.length_cons, Nat.add_mul]
    omega

theorem batchesBytes_getElem? (c : MlifDataConfig) {batches : List Memory} {b : Nat}
    (hb : b < batches.length) {i : Nat} (hi : i < c.batchBytes) :
    (batchesBytes c batches)[b * c.batchBytes + i]? = some (batches[b] i) := by
  induction batches generalizing b with
  | nil => simp at hb
  | cons batch batches ih =>
    have hcons : batchesBytes c (batch :: batches) =
        batch.load c.batchBytes ++ batchesBytes c batches := List.flatMap_cons
    rw [hcons]
    cases b with
    | zero =>
      rw [Nat.zero_mul, Nat.zero_add, List.getElem?_append_left (by simpa using hi),
        Memory.load_getElem? batch hi]
      rfl
    | succ b =>
      have hskip : (b + 1) * c.batchBytes + i = c.batchBytes + (b * c.batchBytes + i) := by
        rw [Nat.add_mul]
        omega
      rw [hskip, List.getElem?_append_right (by simp), Memory.length_load, Nat.add_sub_cancel_left,
        ih (by simpa using hb)]
      rfl

/-- The extents that the header announces count the elements of all batches. -/
theorem prod_extents (c : MlifDataConfig) :
    c.extents.prod * c.dtype.size = c.nbatch.toNat * c.batchBytes := by
  rw [MlifDataConfig.extents, List.prod_cons, List.prod_cons, MlifDataConfig.batchBytes,
    sampleBytes]
  ring

/-- Calls from the first one on make a header and all batches. -/
theorem run_writeBatches (h : Writable c) {batches : List Memory} (hne : batches ≠ [])
    (hfile : fs path = none) : (writeBatches path c batches).run fs =
      (.done (List.replicate batches.length .success),
        Function.update fs path (some (c.header ++ batchesBytes c batches))) := by
  have hwritten : (batches.map (Call.mk c)).flatMap Call.written = batchesBytes c batches := by
    rw [List.flatMap_map, batchesBytes]
    refine List.flatMap_congr fun batch _ => ?_
    rw [Call.written, h.writtenBytes_eq]
  obtain ⟨batch, batches, rfl⟩ := List.exists_cons_of_ne_nil hne
  have hnbatch : ∀ call ∈ (batch :: batches).map (Call.mk c), call.config.nbatch ≠ 0 :=
    List.forall_mem_map.mpr fun _ _ => h.nbatch_ne
  rw [List.map_cons] at hwritten hnbatch
  rw [writeBatches, List.map_cons, run_writeCalls_npy hnbatch hfile, hwritten, headerText_eq h.fits,
    ← List.map_cons (f := Call.mk c), List.length_map]

/-- Calls for one batch after the other make a file of a header, which does not depend on how many
calls there are, and the batches in their order.  The file of all batches has as many elements as
its header announces, and each batch at a position of type `long` is read back. -/
theorem writeBatches_append (h : Writable c) (horder : c.order = .cOrder) {batches : List Memory}
    (hne : batches ≠ []) (hfile : fs path = none) {charSigned : Bool} {stack : Vector UInt8 3}
    (hstack : stack.get 2 = 0) :
    let fs' := Function.update fs path (some (c.header ++ batchesBytes c batches))
    (writeBatches path c batches).run fs =
        (.done (List.replicate batches.length .success), fs') ∧
      c.header.length = npyHeaderSize ∧
      (batches.length = c.nbatch.toNat →
        (batchesBytes c batches).length = c.extents.prod * c.dtype.size ∧
        ∀ b (hb : b < batches.length), npyHeaderSize + b * c.batchBytes < 2 ^ 63 →
          ∀ s : Loading, s.config.shape = c.shape →
            LoadsBatch charSigned stack fs' path c s (UInt64.ofNat (b * c.per)) batches[b]) := by
  refine ⟨run_writeBatches h hne hfile, h.length_header, fun hall => ⟨?_, ?_⟩⟩
  · rw [length_batchesBytes, prod_extents, hall]
  · intro b hb hrange s hshape
    exact loadsBatch h horder hstack (Function.update_self ..) hshape b (hall ▸ hb) hrange _
      fun i hi => batchesBytes_getElem? c hb hi

theorem writeBatches_append_two :
    let c := matrixConfig
    let batches : List Memory := [UInt8.ofNat, fun i => UInt8.ofNat (36 + i)]
    let fs' := Function.update (fun _ : Unit => none) () (some (c.header ++ batchesBytes c batches))
    (writeBatches () c batches).run (fun _ : Unit => none) =
        (.done [.success, .success], fs') ∧
      c.header.length = npyHeaderSize ∧
      (batches.length = c.nbatch.toNat →
        (batchesBytes c batches).length = c.extents.prod * c.dtype.size ∧
        ∀ b (hb : b < batches.length), npyHeaderSize + b * c.batchBytes < 2 ^ 63 →
          ∀ s : Loading, s.config.shape = c.shape →
            LoadsBatch true (Vector.replicate 3 0) fs' () c s (UInt64.ofNat (b * c.per))
              batches[b]) :=
  writeBatches_append writable_matrixConfig rfl (List.cons_ne_nil _ _) rfl rfl

/-- Batches of `2^59` bytes. -/
def hugeConfig : MlifDataConfig := ⟨17, 17 * 2 ^ 29, [2 ^ 30], 0, 0, .uint8, .cOrder⟩

theorem writable_hugeConfig : Writable hugeConfig :=
  ⟨⟨by decide, by decide, by decide, by decide, by decide, by decide⟩,
    List.forall_mem_singleton.mpr (by decide), by decide⟩

/-- The seek to the last of 17 such batches fails, and the call loads text of the header. -/
theorem writeBatches_append_huge : Writable hugeConfig ∧
    ∃ fs', (writeBatches () hugeConfig (List.replicate 17 fun _ => 0)).run (fun _ : Unit => none) =
        (.done (List.replicate 17 .success), fs') ∧
      ¬ LoadsBatch true (Vector.replicate 3 0) fs' () hugeConfig
        ⟨hugeConfig, fun _ => 0, ⟨0, 0⟩⟩ (UInt64.ofNat (16 * hugeConfig.per)) (fun _ => 0) := by
  refine ⟨writable_hugeConfig, _, run_writeBatches writable_hugeConfig (by simp) rfl, ?_⟩
  rintro ⟨fuel, s', hrun, -, hdata, -⟩
  generalize batchesBytes hugeConfig (List.replicate 17 fun _ => 0) = payload at hrun
  let f := writable_hugeConfig.npyFile payload
  let header : Header := ⟨headerOffset true (littleEndian16 118), .uint8, .cOrder⟩
  let size := sampleSize .uint8 hugeConfig.shape
  let idx := UInt64.ofNat (16 * hugeConfig.per)
  have hbytes : f.bytes = hugeConfig.header ++ payload :=
    writable_hugeConfig.toAnnounced.bytes_npyFile rfl payload
  have hfile : Function.update (fun _ : Unit => none) () (some (hugeConfig.header ++ payload)) () =
      some f.bytes := by rw [hbytes, Function.update_self]
  have hheader : fileHeader true (Vector.replicate 3 0) f.bytes = header :=
    NpyFile.fileHeader_eq true rfl
  have hsecond : f.second = ascii "536870912" := by
    show decimal hugeConfig.per ++ afterSecond (hugeConfig.shape.map UInt64.toNat) = _
    decide
  have hneg :
      (header.offset.toInt + 10 + (idx.toNat * size.toNat : Nat) : Int).bmod (2 ^ 64) < 0 := by
    decide
  have hpos : (payloadStream header f.bytes (decimal 17) f.second idx size).pos = 76 := by
    rw [hsecond, payloadStream_pos_of_neg _ _ _ hneg]
    decide
  have hn : 0 < (size * countSize f.second).toNat := by
    rw [hsecond]
    decide
  have hin : 76 < f.bytes.length := by
    have hlength : f.length.toNat = 118 := rfl
    rw [NpyFile.length_bytes]
    omega
  have hbyte := loading_data_zero header ⟨hugeConfig, fun _ => 0, ⟨0, 0⟩⟩ hpos hn hin
  rw [NpyFile.eq_of_run hfile hrun, hheader] at hdata
  have hzero : hugeConfig.header[76]? = some 0 := by
    rw [← hbyte.trans (congrArg some (hdata 0 (by decide))), hbytes, List.getElem?_append_left]
    rw [writable_hugeConfig.length_header]
    decide
  exact absurd hzero (by decide)

end

end Mlonmcu.Mlifio
