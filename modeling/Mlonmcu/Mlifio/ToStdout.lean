import Mlonmcu.CLib.Printf
import Mlonmcu.Mlifio.Config

/-! `mlifio_to_stdout`, on the output that has been printed before. -/

namespace Mlonmcu.Mlifio

open CLib

def fprintf (text : Bytes) : Prog Bytes Unit := Prog.modify (· ++ text)

/-- The loop over the bytes `js` of the sample `i`. -/
def byteLoop (data : Memory) (size i : UInt64) : List Nat → Prog Bytes Unit
  | [] => pure ()
  | j :: js => do
    fprintf (ascii " 0x" ++ hexByte (data (i * size + UInt64.ofNat j).toNat))
    byteLoop data size i js

/-- The loop over the samples `is` in mode `MLIF_STDIO_PLAIN`. -/
def plainLoop (data : Memory) (size per ibatch : UInt64) : List Nat → Prog Bytes Unit
  | [] => pure ()
  | i :: is => do
    fprintf (ascii "Output[" ++ decimal (per * ibatch + UInt64.ofNat i).toNat ++ ascii "]:")
    byteLoop data size (UInt64.ofNat i) (List.range size.toNat)
    fprintf (ascii "\n")
    plainLoop data size per ibatch is

/-- The loop over the samples `is` in mode `MLIF_STDIO_BIN`. -/
def binLoop (data : Memory) (size : UInt64) : List Nat → Prog Bytes Unit
  | [] => pure ()
  | i :: is => do
    fprintf (ascii "-?-")
    fprintf ((data.drop (UInt64.ofNat i * size).toNat).load size.toNat)
    fprintf (ascii "-!-")
    binLoop data size is

/-- `mlifio_to_stdout`.  `none` is a null pointer. -/
def mlifioToStdout (iomode : MlifStdioMode) (config : Option MlifDataConfig) (data : Option Memory)
    (ibatch : UInt64) : Prog Bytes MlifIoStatus :=
  match config, data with
  | some config, some data => do
    let size := sampleSize config.dtype config.shape
    match iomode with
    | .plain => do
      fprintf (ascii "Batch[" ++ decimal ibatch.toNat ++ ascii "]:\n")
      let per ← Prog.div config.nsample config.nbatch
      plainLoop data size per ibatch (List.range per.toNat)
      pure .success
    | .bin => do
      let per ← Prog.div config.nsample config.nbatch
      binLoop data size (List.range per.toNat)
      pure .success
    | .other => pure .error
  | _, _ => pure .error

/-! ### The text of a sample -/

/-- The line of a sample in mode `MLIF_STDIO_PLAIN`. -/
def plainSample (label : Nat) (sample : Bytes) : Bytes :=
  ascii "Output[" ++ decimal label ++ ascii "]:" ++
    (sample.flatMap fun b => ascii " 0x" ++ hexByte b) ++ ascii "\n"

/-- A sample between its markers in mode `MLIF_STDIO_BIN`. -/
def binSample (sample : Bytes) : Bytes := ascii "-?-" ++ sample ++ ascii "-!-"

theorem run_fprintf_bind {α : Type} (text : Bytes) (f : Unit → Prog Bytes α) (out : Bytes) :
    (fprintf text >>= f).run out = (f ()).run (out ++ text) := rfl

section

variable {data : Memory} {size per ibatch : UInt64} {config : MlifDataConfig}

theorem run_byteLoop (data : Memory) (size i : UInt64) (js : List Nat) (out : Bytes) :
    (byteLoop data size i js).run out = (.done (), out ++ js.flatMap fun j =>
      ascii " 0x" ++ hexByte (data (i * size + UInt64.ofNat j).toNat)) := by
  induction js generalizing out with
  | nil => simp [byteLoop]
  | cons j js ih =>
    rw [byteLoop, run_fprintf_bind, ih, List.flatMap_cons, List.append_assoc]

/-- The `i`-th sample of `size` bytes at a pointer. -/
def sample (data : Memory) (size i : Nat) : Bytes := (data.drop (i * size)).load size

/-- The indices of the bytes of an object of C are counted in a `size_t`. -/
theorem index_toNat {n i j : Nat} (hobject : per.toNat * n < 2 ^ 64) (hsize : size.toNat = n)
    (hi : i < per.toNat) (hj : j < n) :
    (UInt64.ofNat i * size + UInt64.ofNat j).toNat = i * n + j := by
  have hle := Nat.mul_le_mul_right n (Nat.succ_le_of_lt hi)
  rw [Nat.succ_mul] at hle
  have hn := size.toNat_lt
  have hper := per.toNat_lt
  rw [UInt64.toNat_add, UInt64.toNat_mul, UInt64.toNat_ofNat', UInt64.toNat_ofNat', hsize,
    Nat.mod_eq_of_lt (show i < 2 ^ 64 by omega), Nat.mod_eq_of_lt (show j < 2 ^ 64 by omega),
    Nat.mod_eq_of_lt (show i * n < 2 ^ 64 by omega), Nat.mod_eq_of_lt (by omega)]

theorem run_plainLoop {n : Nat} (hobject : per.toNat * n < 2 ^ 64) (hsize : size.toNat = n)
    {is : List Nat} (his : ∀ i ∈ is, i < per.toNat) (out : Bytes) :
    (plainLoop data size per ibatch is).run out = (.done (), out ++ is.flatMap fun i =>
      plainSample (per * ibatch + UInt64.ofNat i).toNat (sample data n i)) := by
  induction is generalizing out with
  | nil => simp [plainLoop]
  | cons i is ih =>
    have hbytes : ((List.range size.toNat).flatMap fun j =>
        ascii " 0x" ++ hexByte (data (UInt64.ofNat i * size + UInt64.ofNat j).toNat)) =
          (sample data n i).flatMap fun b => ascii " 0x" ++ hexByte b := by
      rw [sample, Memory.load, List.flatMap_map, hsize]
      refine List.flatMap_congr fun j hj => ?_
      rw [index_toNat hobject hsize (his i List.mem_cons_self) (List.mem_range.mp hj)]
      rfl
    rw [plainLoop, run_fprintf_bind, Prog.bind_done (run_byteLoop ..), run_fprintf_bind,
      ih fun i hi => his i (List.mem_cons_of_mem _ hi), hbytes, List.flatMap_cons, plainSample]
    simp only [List.append_assoc]

theorem run_binLoop {n : Nat} (hobject : per.toNat * n < 2 ^ 64) (hsize : size.toNat = n)
    {is : List Nat} (his : ∀ i ∈ is, i < per.toNat) (out : Bytes) :
    (binLoop data size is).run out =
      (.done (), out ++ is.flatMap fun i => binSample (sample data n i)) := by
  induction is generalizing out with
  | nil => simp [binLoop]
  | cons i is ih =>
    have hi := his i List.mem_cons_self
    have hle := Nat.mul_le_mul_right n (Nat.le_of_lt hi)
    have hper := per.toNat_lt
    have hstart : (UInt64.ofNat i * size).toNat = i * n := by
      rw [UInt64.toNat_mul, UInt64.toNat_ofNat', hsize,
        Nat.mod_eq_of_lt (show i < 2 ^ 64 by omega), Nat.mod_eq_of_lt (by omega)]
    rw [binLoop, run_fprintf_bind, run_fprintf_bind, run_fprintf_bind,
      ih fun i hi => his i (List.mem_cons_of_mem _ hi), hstart, hsize, List.flatMap_cons, binSample,
      sample]
    simp only [List.append_assoc]

/-- The samples of a batch, which is an object of C, are printed one after the other. -/
theorem run_toStdout_plain (hnbatch : config.nbatch ≠ 0)
    (hobject : (config.nsample / config.nbatch).toNat *
      sampleBytes config.dtype config.shape < 2 ^ 64)
    (hsize : sampleBytes config.dtype config.shape < 2 ^ 64) (out : Bytes) :
    (mlifioToStdout .plain (some config) (some data) ibatch).run out = (.done .success,
      out ++ (ascii "Batch[" ++ decimal ibatch.toNat ++ ascii "]:\n") ++
        (List.range (config.nsample / config.nbatch).toNat).flatMap fun i =>
          plainSample (config.nsample / config.nbatch * ibatch + UInt64.ofNat i).toNat
            (sample data (sampleBytes config.dtype config.shape) i)) := by
  simp only [mlifioToStdout, run_fprintf_bind]
  rw [Prog.bind_done (Prog.run_div hnbatch _),
    Prog.bind_done (run_plainLoop hobject (sampleSize_of_lt hsize) (by simp) _)]
  rfl

theorem run_toStdout_bin (hnbatch : config.nbatch ≠ 0)
    (hobject : (config.nsample / config.nbatch).toNat *
      sampleBytes config.dtype config.shape < 2 ^ 64)
    (hsize : sampleBytes config.dtype config.shape < 2 ^ 64) (out : Bytes) :
    (mlifioToStdout .bin (some config) (some data) ibatch).run out = (.done .success,
      out ++ (List.range (config.nsample / config.nbatch).toNat).flatMap fun i =>
        binSample (sample data (sampleBytes config.dtype config.shape) i)) := by
  simp only [mlifioToStdout]
  rw [Prog.bind_done (Prog.run_div hnbatch _),
    Prog.bind_done (run_binLoop hobject (sampleSize_of_lt hsize) (by simp) _)]
  rfl

end

end Mlonmcu.Mlifio
