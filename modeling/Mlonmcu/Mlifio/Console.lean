import Mlonmcu.CLib.Blocks
import Mlonmcu.Mlifio.ToStdout

/-! Runs of calls of `mlifio_to_stdout`, and whether the lines of a plain text are the samples of an
array. -/

namespace Mlonmcu.Mlifio

open CLib

/-- The arguments of a call. -/
structure PrintCall where
  config : MlifDataConfig
  data : Memory
  ibatch : UInt64

namespace PrintCall

def size (call : PrintCall) : Nat := sampleBytes call.config.dtype call.config.shape

/-- The samples of the batch of a call. -/
def payloads (call : PrintCall) : List Bytes :=
  (List.range (call.config.nsample / call.config.nbatch).toNat).map (sample call.data call.size)

/-- There are batches, and the one of the call is an object of C. -/
structure Sound (call : PrintCall) : Prop where
  nbatch_ne : call.config.nbatch ≠ 0
  object : (call.config.nsample / call.config.nbatch).toNat * call.size < 2 ^ 64

end PrintCall

/-- Calls one after the other, with their results. -/
def printCalls (iomode : MlifStdioMode) : List PrintCall → Prog Bytes (List MlifIoStatus)
  | [] => pure []
  | call :: calls => do
    let status ← mlifioToStdout iomode (some call.config) (some call.data) call.ibatch
    let rest ← printCalls iomode calls
    pure (status :: rest)

/-- Calls that append a text each print their texts in their order. -/
theorem run_printCalls {iomode : MlifStdioMode} {text : PrintCall → Bytes} {calls : List PrintCall}
    (happend : ∀ call ∈ calls, ∀ out,
      (mlifioToStdout iomode (some call.config) (some call.data) call.ibatch).run out =
        (.done .success, out ++ text call)) (out : Bytes) :
    (printCalls iomode calls).run out =
      (.done (List.replicate calls.length .success), out ++ calls.flatMap text) := by
  induction calls generalizing out with
  | nil => simp [printCalls]
  | cons call calls ih =>
    rw [printCalls, Prog.bind_done (happend call List.mem_cons_self out),
      Prog.bind_done (ih (fun later hlater => happend later (List.mem_cons_of_mem _ hlater)) _),
      List.flatMap_cons, List.append_assoc]
    rfl

/-! ### Lines -/

/-- The line of a sample. -/
def sampleLine (label : Nat) (sample : Bytes) : Bytes :=
  ascii "Output[" ++ decimal label ++ ascii "]:" ++ sample.flatMap fun b => ascii " 0x" ++ hexByte b

/-- The lines of the samples in a text. -/
def outputLines (text : Bytes) : List Bytes :=
  (text.splitOn 10).filter (ascii "Output[").isPrefixOf

/-- The calls for the batches of an array. -/
def batchCalls (config : MlifDataConfig) (data : Memory) : List PrintCall :=
  let per := (config.nsample / config.nbatch).toNat
  (List.range config.nbatch.toNat).map fun ibatch =>
    ⟨config, data.drop (ibatch * per * sampleBytes config.dtype config.shape), UInt64.ofNat ibatch⟩

/-- The run for the batches of an array prints a line for each sample of the array. -/
def PrintsSamplesOnce (config : MlifDataConfig) (data : Memory) : Prop :=
  ∃ out, (printCalls .plain (batchCalls config data)).run [] =
      (.done (List.replicate config.nbatch.toNat .success), out) ∧
    outputLines out = (List.range config.nsample.toNat).map fun k =>
      sampleLine k (sample data (sampleBytes config.dtype config.shape) k)

/-- The lines of a call. -/
def PrintCall.lines (call : PrintCall) : List Bytes :=
  let per := call.config.nsample / call.config.nbatch
  (ascii "Batch[" ++ decimal call.ibatch.toNat ++ ascii "]:") ::
    (List.range per.toNat).map fun i =>
      sampleLine (per * call.ibatch + UInt64.ofNat i).toNat (sample call.data call.size i)

theorem newline_not_mem_decimal (n : Nat) : 10 ∉ decimal n := fun h =>
  absurd (isDigit_of_mem_decimal h) (by decide)

theorem newline_not_mem_hexByte (b : UInt8) : 10 ∉ hexByte b := by
  have hall : ∀ n : Fin 256, 10 ∉ hexByte (UInt8.ofFin n) := by decide +kernel
  exact hall b.toFin

theorem newline_not_mem_sampleLine (label : Nat) (sample : Bytes) :
    10 ∉ sampleLine label sample := by
  simp only [sampleLine, List.mem_append, List.mem_flatMap, not_or, not_exists, not_and]
  exact ⟨⟨⟨by decide, newline_not_mem_decimal _⟩, by decide⟩,
    fun b _ => ⟨by decide, newline_not_mem_hexByte b⟩⟩

theorem newline_not_mem_lines {call : PrintCall} {line : Bytes} (h : line ∈ call.lines) :
    10 ∉ line := by
  rcases List.mem_cons.mp h with rfl | h
  · simp only [List.mem_append, not_or]
    exact ⟨⟨by decide, newline_not_mem_decimal _⟩, by decide⟩
  · obtain ⟨i, -, rfl⟩ := List.mem_map.mp h
    exact newline_not_mem_sampleLine _ _

theorem splitOn_lines {lines : List Bytes} (h : ∀ line ∈ lines, 10 ∉ line) :
    (lines.flatMap (· ++ [10])).splitOn 10 = lines ++ [[]] := by
  induction lines with
  | nil => simp
  | cons line lines ih =>
    have hfirst := List.splitOn_append_cons_self_of_not_mem (h line List.mem_cons_self)
      (lines.flatMap (· ++ [10]))
    rw [List.flatMap_cons, List.append_assoc, List.singleton_append, hfirst,
      ih fun line hline => h line (List.mem_cons_of_mem _ hline), List.cons_append]

theorem outputLines_lines {lines : List Bytes} (h : ∀ line ∈ lines, 10 ∉ line) :
    outputLines (lines.flatMap (· ++ [10])) = lines.filter (ascii "Output[").isPrefixOf := by
  have hempty : (ascii "Output[").isPrefixOf [] = false := rfl
  rw [outputLines, splitOn_lines h, List.filter_append, List.filter_singleton, hempty, cond_false,
    List.append_nil]

/-- The lines of the samples of a call. -/
theorem PrintCall.filter_lines (call : PrintCall) :
    call.lines.filter (ascii "Output[").isPrefixOf = call.lines.tail := by
  have hbatch : (ascii "Output[").isPrefixOf
      (ascii "Batch[" ++ decimal call.ibatch.toNat ++ ascii "]:") = false := rfl
  have hall : ∀ line ∈ call.lines.tail, (ascii "Output[").isPrefixOf line = true := by
    intro line hline
    obtain ⟨i, -, rfl⟩ := List.mem_map.mp hline
    rfl
  rw [PrintCall.lines, List.filter_cons_of_neg (by rw [hbatch]; exact Bool.false_ne_true)]
  exact List.filter_eq_self.mpr hall

section

variable {config : MlifDataConfig} {calls : List PrintCall} {call : PrintCall}

theorem run_printed (h : call.Sound) (out : Bytes) :
    (mlifioToStdout .plain (some call.config) (some call.data) call.ibatch).run out =
      (.done .success, out ++ call.lines.flatMap (· ++ [10])) := by
  have hnewline : ascii "\n" = [10] := rfl
  have hbatch : ascii "]:\n" = ascii "]:" ++ [10] := rfl
  have htext : call.lines.flatMap (· ++ [10]) =
      (ascii "Batch[" ++ decimal call.ibatch.toNat ++ ascii "]:\n") ++
        (List.range (call.config.nsample / call.config.nbatch).toNat).flatMap fun i =>
          plainSample (call.config.nsample / call.config.nbatch * call.ibatch +
            UInt64.ofNat i).toNat (sample call.data call.size i) := by
    rw [PrintCall.lines, List.flatMap_cons, List.flatMap_map, hbatch, ← List.append_assoc]
    simp only [plainSample, sampleLine, hnewline]
  rcases Nat.eq_zero_or_pos (call.config.nsample / call.config.nbatch).toNat with hzero | hpos
  · rw [htext, hzero]
    simp only [mlifioToStdout, run_fprintf_bind]
    rw [Prog.bind_done (Prog.run_div h.nbatch_ne _), hzero]
    simp [plainLoop]
  · have hsize := Nat.lt_of_le_of_lt (Nat.le_mul_of_pos_left call.size hpos) h.object
    rw [run_toStdout_plain h.nbatch_ne h.object hsize, htext, List.append_assoc out]
    rfl

theorem run_printCalls_plain (h : ∀ call ∈ calls, call.Sound) (out : Bytes) :
    (printCalls .plain calls).run out = (.done (List.replicate calls.length .success),
      out ++ (calls.flatMap PrintCall.lines).flatMap (· ++ [10])) := by
  rw [run_printCalls fun call hcall => run_printed (h call hcall), List.flatMap_assoc]

theorem outputLines_calls (calls : List PrintCall) :
    outputLines ((calls.flatMap PrintCall.lines).flatMap (· ++ [10])) =
      calls.flatMap fun call => call.lines.tail := by
  rw [outputLines_lines, List.filter_flatMap]
  · exact List.flatMap_congr fun call _ => call.filter_lines
  · intro line hline
    obtain ⟨call, -, hline⟩ := List.mem_flatMap.mp hline
    exact newline_not_mem_lines hline

theorem sample_drop (data : Memory) (size a i : Nat) :
    sample (data.drop (a * size)) size i = sample data size (a + i) := by
  unfold sample
  congr 1
  funext j
  simp only [Memory.drop, Nat.add_mul, Nat.add_assoc]

/-- The labels of the batches are the indices of their samples in the array. -/
theorem lines_batchCalls (config : MlifDataConfig) (data : Memory) :
    ((batchCalls config data).flatMap fun call => call.lines.tail) =
      (List.range (config.nbatch.toNat * (config.nsample / config.nbatch).toNat)).map fun k =>
        sampleLine k (sample data (sampleBytes config.dtype config.shape) k) := by
  have hobject : config.nbatch.toNat * (config.nsample / config.nbatch).toNat < 2 ^ 64 := by
    rw [UInt64.toNat_div]
    exact Nat.lt_of_le_of_lt (Nat.mul_div_le _ _) (UInt64.toNat_lt _)
  rw [← flatMap_range, batchCalls, List.flatMap_map]
  refine List.flatMap_congr fun ibatch hibatch => List.map_congr_left fun i hi => ?_
  have hlabel := index_toNat hobject rfl (List.mem_range.mp hibatch) (List.mem_range.mp hi)
  dsimp only [PrintCall.size]
  rw [UInt64.mul_comm, hlabel, sample_drop]

theorem sound_batchCalls (hnbatch : config.nbatch ≠ 0) (hobject : config.nsample.toNat *
    sampleBytes config.dtype config.shape < 2 ^ 64) (data : Memory) :
    ∀ call ∈ batchCalls config data, call.Sound := by
  intro call hcall
  obtain ⟨ibatch, -, rfl⟩ := List.mem_map.mp hcall
  refine ⟨hnbatch, Nat.lt_of_le_of_lt (Nat.mul_le_mul_right _ ?_) hobject⟩
  rw [UInt64.toNat_div]
  exact Nat.div_le_self _ _

theorem run_batchCalls (hnbatch : config.nbatch ≠ 0) (hobject : config.nsample.toNat *
    sampleBytes config.dtype config.shape < 2 ^ 64) (data : Memory) : ∃ out,
    (printCalls .plain (batchCalls config data)).run [] =
        (.done (List.replicate config.nbatch.toNat .success), out) ∧
      outputLines out = (List.range (config.nbatch.toNat * (config.nsample.toNat /
        config.nbatch.toNat))).map fun k =>
          sampleLine k (sample data (sampleBytes config.dtype config.shape) k) := by
  have hrun := run_printCalls_plain (sound_batchCalls hnbatch hobject data) []
  have hlength : (batchCalls config data).length = config.nbatch.toNat := by simp [batchCalls]
  rw [hlength, List.nil_append] at hrun
  refine ⟨_, hrun, (outputLines_calls _).trans ?_⟩
  rw [lines_batchCalls, UInt64.toNat_div]

/-- The samples after the last whole batch get no line. -/
theorem dvd_of_printsSamplesOnce (hnbatch : config.nbatch ≠ 0) (hobject : config.nsample.toNat *
    sampleBytes config.dtype config.shape < 2 ^ 64) {data : Memory}
    (h : PrintsSamplesOnce config data) : config.nbatch.toNat ∣ config.nsample.toNat := by
  obtain ⟨out, hrun, hlines⟩ := run_batchCalls hnbatch hobject data
  obtain ⟨out', hrun', hsamples⟩ := h
  obtain rfl := (Prod.mk.inj (hrun.symm.trans hrun')).2
  have hcount := congrArg List.length (hlines.symm.trans hsamples)
  rw [List.length_map, List.length_map, List.length_range, List.length_range] at hcount
  exact ⟨_, hcount.symm⟩

/-- Each sample of an array, which is an object of C, gets its line exactly when the batches take
all of them. -/
theorem printsSamplesOnce_iff (hnbatch : config.nbatch ≠ 0) (hobject : config.nsample.toNat *
    sampleBytes config.dtype config.shape < 2 ^ 64) (data : Memory) :
    PrintsSamplesOnce config data ↔ config.nbatch.toNat ∣ config.nsample.toNat := by
  refine ⟨dvd_of_printsSamplesOnce hnbatch hobject, fun hdvd => ?_⟩
  obtain ⟨out, hrun, hlines⟩ := run_batchCalls hnbatch hobject data
  rw [Nat.mul_div_cancel' hdvd] at hlines
  exact ⟨out, hrun, hlines⟩

/-- Samples of a byte in two batches. -/
def twoBatches (nsample : UInt64) : MlifDataConfig := ⟨2, nsample, [1], 0, 0, .uint8, .cOrder⟩

theorem printsSamplesOnce_four : PrintsSamplesOnce (twoBatches 4) fun _ => 7 :=
  (printsSamplesOnce_iff (by decide) (by decide) _).mpr (by decide)

/-- The third sample is lost. -/
theorem not_printsSamplesOnce_three : ¬ PrintsSamplesOnce (twoBatches 3) fun _ => 7 := fun h =>
  absurd (dvd_of_printsSamplesOnce (by decide) (by decide) h) (by decide)

end

end Mlonmcu.Mlifio
