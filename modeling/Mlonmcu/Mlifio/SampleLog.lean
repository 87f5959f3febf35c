import Mlonmcu.CLib.Blocks
import Mlonmcu.Mlifio.Calls
import Mlonmcu.Mlifio.Status

/-! Raw files as logs of samples: the calls in mode `MLIF_FILE_BIN` append to the log, and a read
finds a sample by its index. -/

namespace Mlonmcu.Mlifio

open CLib

/-- Samples of one type and shape. -/
abbrev SampleLog (t : MlifDatatype) (shape : List UInt64) := Blocks UInt8 (sampleBytes t shape)

/-- A call for samples of a type and shape, whose data are an object of C. -/
structure CallFor (t : MlifDatatype) (shape : List UInt64) (call : Call) : Prop where
  dtype_eq : call.config.dtype = t
  shape_eq : call.config.shape = shape
  nbatch_ne : call.config.nbatch ≠ 0
  object : sampleBytes t shape * call.config.per < 2 ^ 64

/-- The samples at the data pointer of a call. -/
def Call.samples (t : MlifDatatype) (shape : List UInt64) (call : Call) : SampleLog t shape :=
  call.data.blocks (sampleBytes t shape) call.config.per

/-- The log after calls. -/
def SampleLog.after {t : MlifDatatype} {shape : List UInt64} (log : SampleLog t shape) :
    List Call → SampleLog t shape
  | [] => log
  | call :: calls => SampleLog.after (log.append (call.samples t shape)) calls

section

variable {t : MlifDatatype} {shape : List UInt64} {log : SampleLog t shape} {calls : List Call}

theorem CallFor.written_eq {call : Call} (h : CallFor t shape call)
    (hsize : sampleBytes t shape < 2 ^ 31) : call.written = (call.samples t shape).join := by
  rw [Call.written, Call.samples, Memory.join_blocks, MlifDataConfig.writtenBytes, h.dtype_eq,
    h.shape_eq, UInt64.toNat_mul, UInt64.toNat_div, sampleSizeInt_of_lt hsize,
    Nat.mul_comm call.config.per]
  exact congrArg call.data.load (Nat.mod_eq_of_lt h.object)

theorem SampleLog.join_after (hsize : sampleBytes t shape < 2 ^ 31)
    (hcalls : ∀ call ∈ calls, CallFor t shape call) :
    (SampleLog.after log calls).join = log.join ++ calls.flatMap Call.written := by
  induction calls generalizing log with
  | nil => simp [SampleLog.after]
  | cons call calls ih =>
    rw [SampleLog.after, ih fun later hlater => hcalls later (List.mem_cons_of_mem _ hlater),
      Blocks.join_append, List.flatMap_cons, (hcalls call List.mem_cons_self).written_eq hsize,
      List.append_assoc]

/-! ### Reads -/

variable {Path : Type} {charSigned : Bool} {stack : Vector UInt8 3} {fuel : Nat}
  {fs : FileSystem Path} {path : Path}

/-- A read of a sample stores exactly its bytes, and counts the samples of the file. -/
def ReadsSample (charSigned : Bool) (stack : Vector UInt8 3) (fuel : Nat) (fs : FileSystem Path)
    (path : Path) (log : SampleLog t shape) (idx : Nat) (s : Loading) : Prop :=
  ∃ s', (mlifioFromFile charSigned stack fuel fs .bin path (UInt64.ofNat idx)).run s =
      (.done .success, s') ∧
    s'.config = { s.config with nsample := UInt64.ofNat log.items.length } ∧
    (∀ j < sampleBytes t shape, (log.items.getD idx [])[j]? = some (s'.data j)) ∧
    ∀ j, sampleBytes t shape ≤ j → s'.data j = s.data j

theorem sampleSize_ne_zero {t : MlifDatatype} {shape : List UInt64}
    (hpos : 0 < sampleBytes t shape) (hlt : sampleBytes t shape < 2 ^ 64) :
    sampleSize t shape ≠ 0 := by
  intro hzero
  have hsize := sampleSize_of_lt hlt
  rw [hzero] at hsize
  simp at hsize
  omega

/-- The size of a file whose end is a `long` gives the number of its samples. -/
theorem nsample_log (log : SampleLog t shape) (hpos : 0 < sampleBytes t shape)
    (hsize : sampleBytes t shape < 2 ^ 64)
    (hlong : log.items.length * sampleBytes t shape < 2 ^ 63) :
    (Stream.written log.join).ftell.toUInt64 / sampleSize t shape =
      UInt64.ofNat log.items.length := by
  have hle := Nat.le_mul_of_pos_right log.items.length hpos
  have hend : (Stream.written log.join).pos = log.items.length * sampleBytes t shape :=
    log.length_join
  apply UInt64.toNat_inj.mp
  rw [UInt64.toNat_div, Stream.ftell_toUInt64, hend, if_pos hlong, sampleSize_of_lt hsize,
    Nat.mul_div_cancel _ hpos, UInt64.toNat_ofNat', Nat.mod_eq_of_lt (by omega)]

/-- A file whose end is a `long` is read by the index of its samples. -/
theorem readsSample (hpos : 0 < sampleBytes t shape) (hsize : sampleBytes t shape < 2 ^ 64)
    (hfile : fs path = some log.join)
    (hlong : log.items.length * sampleBytes t shape < 2 ^ 63) {idx : Nat}
    (hidx : idx < log.items.length) {s : Loading} (hdtype : s.config.dtype = t)
    (hshape : s.config.shape = shape) : ReadsSample charSigned stack fuel fs path log idx s := by
  subst hdtype hshape
  have hne := sampleSize_ne_zero hpos hsize
  have hle := Nat.mul_le_mul_right (sampleBytes s.config.dtype s.config.shape)
    (Nat.succ_le_of_lt hidx)
  have hpos' := Nat.le_mul_of_pos_right idx hpos
  have hlog := log.length_join
  rw [Nat.succ_mul] at hle
  have hindex : (UInt64.ofNat idx).toNat = idx := by
    rw [UInt64.toNat_ofNat', Nat.mod_eq_of_lt (by omega)]
  have hloads := (@loads_sample_iff log.join (UInt64.ofNat idx) s hne).mpr
    ⟨hsize, by rw [hindex]; omega, by rw [hindex, hlog]; omega⟩
  refine ⟨_, (by rw [run_bin_some hfile]; exact run_fromBin hne), ?_, fun j hj => ?_, hloads.frame⟩
  · exact congrArg (fun nsample => { s.config with nsample }) (nsample_log log hpos hsize hlong)
  · have hbyte := hloads.stored j hj
    simp only [requested, hindex] at hbyte
    rw [log.getElem?_join hidx hj] at hbyte
    rw [List.getD_eq_getElem _ _ hidx]
    exact hbyte

end

/-! ### Calls and reads -/

section

variable {Path : Type} [DecidableEq Path] {fs : FileSystem Path} {path : Path} {t : MlifDatatype}
  {shape : List UInt64}

/-- Calls append their samples to the file, which is made when it does not exist and there are
calls. -/
theorem run_writeCalls_log (hsize : sampleBytes t shape < 2 ^ 31) {log : SampleLog t shape}
    (hfile : (fs path).getD [] = log.join) {calls : List Call}
    (hcalls : ∀ call ∈ calls, CallFor t shape call) :
    (writeCalls .bin path calls).run fs = (.done (List.replicate calls.length .success),
      if calls = [] then fs else Function.update fs path (some (log.after calls).join)) := by
  cases calls with
  | nil => rfl
  | cons call calls =>
    rw [run_writeCalls_bin fun later hlater => (hcalls later hlater).nbatch_ne, hfile,
      log.join_after hsize hcalls, if_neg (List.cons_ne_nil _ _)]

/-- A raw file behaves as a log of samples: calls append their samples in their order, and when the
end of the file is a `long`, each sample is read by its index. -/
theorem writeCalls_bin_log (hextents : ∀ n ∈ shape, 0 < n) (hsize : sampleBytes t shape < 2 ^ 31)
    {log : SampleLog t shape} (hfile : fs path = some log.join ∨ fs path = none ∧ log.items = [])
    {calls : List Call} (hcalls : ∀ call ∈ calls, CallFor t shape call) (charSigned : Bool)
    (stack : Vector UInt8 3) (fuel : Nat) : ∃ fs',
    (writeCalls .bin path calls).run fs =
        (.done (List.replicate calls.length .success), fs') ∧
      (fs' path).getD [] = (log.after calls).join ∧
      ((log.after calls).items.length * sampleBytes t shape < 2 ^ 63 →
        ∀ idx < (log.after calls).items.length, ∀ s : Loading, s.config.dtype = t →
          s.config.shape = shape →
            ReadsSample charSigned stack fuel fs' path (log.after calls) idx s) := by
  have hstart : (fs path).getD [] = log.join := by
    rcases hfile with hsome | ⟨hnone, hitems⟩
    · rw [hsome]
      rfl
    · rw [hnone, Blocks.join, hitems]
      rfl
  have hpos := sampleBytes_pos (t := t) hextents
  refine ⟨_, run_writeCalls_log hsize hstart hcalls, ?_, fun hlong idx hidx s hdtype hshape => ?_⟩
  · split
    next hnil => rw [hstart, hnil]; rfl
    next => rw [Function.update_self]; rfl
  · refine readsSample hpos (by omega) ?_ hlong hidx hdtype hshape
    split
    next hnil =>
      subst hnil
      refine hfile.resolve_right fun hnone => ?_
      simp [SampleLog.after, hnone.2] at hidx
    next => exact Function.update_self ..

/-- A call for samples of two bytes. -/
def pairsCall (nsample : UInt64) : Call :=
  ⟨⟨1, nsample, [2], 0, 0, .uint8, .cOrder⟩, fun i => UInt8.ofNat i⟩

theorem writeCalls_bin_log_pairs :
    let calls := [pairsCall 2, pairsCall 1]
    let log : SampleLog .uint8 [2] := SampleLog.after Blocks.empty calls
    ∃ fs', (writeCalls .bin () calls).run (fun _ => none) = (.done [.success, .success], fs') ∧
      ReadsSample true (Vector.replicate 3 0) 0 fs' () log 2
        ⟨⟨0, 0, [2], 0, 0, .uint8, .cOrder⟩, fun _ => 0, ⟨0, 0⟩⟩ := by
  intro calls log
  have hcalls : ∀ call ∈ calls, CallFor .uint8 [2] call := by
    simp only [calls, List.forall_mem_cons]
    exact ⟨⟨rfl, rfl, by decide, by decide⟩, ⟨rfl, rfl, by decide, by decide⟩, by simp⟩
  obtain ⟨fs', hrun, -, hreads⟩ := @writeCalls_bin_log Unit _ (fun _ => none) () .uint8 [2]
    (List.forall_mem_singleton.mpr (by decide)) (by decide) Blocks.empty (.inr ⟨rfl, rfl⟩) calls
    hcalls true (Vector.replicate 3 0) 0
  exact ⟨fs', hrun, hreads (by decide) 2 (by decide) _ rfl rfl⟩

/-- A seek to a negative position leaves the stream at the end of the file, and nothing is read. -/
theorem afterFread_sampleStream_of_neg (bytes : Bytes) {idx size : UInt64}
    (h : (idx * size).toInt64.toInt < 0) (n : Nat) (config : MlifDataConfig) (s : Loading) :
    (afterFread (sampleStream bytes idx size) n config s).data = s.data := by
  have hread : ((⟨bytes, bytes.length, false⟩ : Stream).fread n).1 = [] := by
    simp [Stream.fread, Stream.rest]
  rw [sampleStream, Stream.fseek_set_neg _ h, afterFread, hread]
  exact Memory.store_nil s.data

/-- `2^63 + 1` samples of one byte. -/
def hugeLog : SampleLog .uint8 [1] where
  items := List.replicate (2 ^ 63 + 1) [1]
  length_item _ h := congrArg List.length (List.eq_of_mem_replicate h)

theorem writeCalls_bin_log_huge : ∃ fs',
    (writeCalls .bin () []).run (fun _ => some hugeLog.join) = (.done [], fs') ∧
      2 ^ 63 < hugeLog.items.length ∧
      ¬ ReadsSample true (Vector.replicate 3 0) 0 fs' () hugeLog (2 ^ 63)
        ⟨⟨0, 0, [1], 0, 0, .uint8, .cOrder⟩, fun _ => 0, ⟨0, 0⟩⟩ := by
  have hlength : hugeLog.items.length = 2 ^ 63 + 1 := List.length_replicate
  have hidx : 2 ^ 63 < hugeLog.items.length := by rw [hlength]; exact Nat.lt_succ_self _
  refine ⟨_, rfl, hidx, ?_⟩
  rintro ⟨s', hrun, -, hbytes, -⟩
  have hfile : FileSystem.fopen (fun _ : Unit => some hugeLog.join) () =
      some ⟨hugeLog.join, 0, false⟩ := rfl
  simp only [mlifioFromFile, hfile] at hrun
  rw [run_fromBin (sampleSize_ne_zero (by decide) (by decide))] at hrun
  obtain rfl := (Prod.mk.inj hrun).2
  have hbyte := hbytes 0 (by decide)
  rw [afterFread_sampleStream_of_neg _ (by decide), List.getD_eq_getElem _ _ hidx] at hbyte
  have hitem : hugeLog.items[2 ^ 63] = [1] := List.eq_of_mem_replicate (List.getElem_mem hidx)
  rw [hitem] at hbyte
  exact absurd hbyte (by decide)

end

end Mlonmcu.Mlifio
