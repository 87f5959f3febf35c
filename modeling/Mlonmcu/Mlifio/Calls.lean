import Mlonmcu.Mlifio.Writer

/-! Sequences of calls of `mlifio_to_file` for one path, each with its own configuration. -/

namespace Mlonmcu.Mlifio

open CLib

/-- The arguments of a call. -/
structure Call where
  config : MlifDataConfig
  data : Memory

namespace Call

def written (call : Call) : Bytes := call.data.load call.config.writtenBytes

end Call

section

variable {Path : Type} [DecidableEq Path]

/-- Calls one after the other, with their results. -/
def writeCalls (fmode : MlifFileMode) (path : Path) :
    List Call → Prog (FileSystem Path) (List MlifIoStatus)
  | [] => pure []
  | call :: calls => do
    let status ← mlifioToFile fmode path (some call.config) (some call.data)
    let rest ← writeCalls fmode path calls
    pure (status :: rest)

variable {fs : FileSystem Path} {path : Path}

/-- Calls append when each of them adds what it writes to a file that exists. -/
def Appending (fmode : MlifFileMode) (path : Path) (calls : List Call) : Prop :=
  ∀ call ∈ calls, ∀ (fs : FileSystem Path) bytes, fs path = some bytes →
    (mlifioToFile fmode path (some call.config) (some call.data)).run fs =
      (.done .success, Function.update fs path (some (bytes ++ call.written)))

/-- Calls that append leave what they write in their order. -/
theorem run_writeCalls {fmode : MlifFileMode} {calls : List Call} {bytes : Bytes}
    (happend : Appending fmode path calls) (hfile : fs path = some bytes) :
    (writeCalls fmode path calls).run fs = (.done (List.replicate calls.length .success),
      Function.update fs path (some (bytes ++ calls.flatMap Call.written))) := by
  induction calls generalizing fs bytes with
  | nil =>
    have hsame : Function.update fs path (some (bytes ++ [].flatMap Call.written)) = fs := by
      rw [Function.update_eq_self_iff, hfile, List.flatMap_nil, List.append_nil]
    rw [hsame]
    rfl
  | cons call calls ih =>
    have hfirst := happend call List.mem_cons_self fs bytes hfile
    have hrest := ih (fun later hlater => happend later (List.mem_cons_of_mem _ hlater))
      (Function.update_self path (some (bytes ++ call.written)) fs)
    rw [writeCalls, Prog.bind_done hfirst, Prog.bind_done hrest, Function.update_idem,
      List.append_assoc]
    rfl

/-- What the first call finds or makes of the file stands before what the calls write. -/
theorem run_writeCalls_cons {fmode : MlifFileMode} {call : Call} {calls : List Call}
    {front : Bytes} (happend : Appending fmode path calls)
    (hfirst : (mlifioToFile fmode path (some call.config) (some call.data)).run fs =
      (.done .success, Function.update fs path (some (front ++ call.written)))) :
    (writeCalls fmode path (call :: calls)).run fs =
      (.done (List.replicate (call :: calls).length .success),
        Function.update fs path (some (front ++ (call :: calls).flatMap Call.written))) := by
  have hrest := run_writeCalls happend
    (Function.update_self path (some (front ++ call.written)) fs)
  rw [writeCalls, Prog.bind_done hfirst, Prog.bind_done hrest, Function.update_idem,
    List.append_assoc]
  rfl

theorem appending_npy {calls : List Call} (hnbatch : ∀ call ∈ calls, call.config.nbatch ≠ 0) :
    Appending .npy path calls :=
  fun call hcall _ _ => run_append_bytes (hnbatch call hcall) call.data

theorem appending_bin {calls : List Call} (hnbatch : ∀ call ∈ calls, call.config.nbatch ≠ 0) :
    Appending .bin path calls := by
  intro call hcall fs bytes hbytes
  rw [run_bin (hnbatch call hcall), hbytes]
  rfl

/-- The first of the calls in mode `MLIF_FILE_NPY` writes its header. -/
theorem run_writeCalls_npy {call : Call} {calls : List Call}
    (hnbatch : ∀ later ∈ call :: calls, later.config.nbatch ≠ 0) (hfile : fs path = none) :
    (writeCalls .npy path (call :: calls)).run fs =
      (.done (List.replicate (call :: calls).length .success), Function.update fs path
        (some (call.config.headerText ++ (call :: calls).flatMap Call.written))) :=
  run_writeCalls_cons
    (appending_npy fun later hlater => hnbatch later (List.mem_cons_of_mem _ hlater))
    (run_create_text (hnbatch call List.mem_cons_self) call.data hfile)

/-- The first of the calls in mode `MLIF_FILE_BIN` makes the file when it does not exist. -/
theorem run_writeCalls_bin {call : Call} {calls : List Call}
    (hnbatch : ∀ later ∈ call :: calls, later.config.nbatch ≠ 0) :
    (writeCalls .bin path (call :: calls)).run fs =
      (.done (List.replicate (call :: calls).length .success), Function.update fs path
        (some ((fs path).getD [] ++ (call :: calls).flatMap Call.written))) :=
  run_writeCalls_cons
    (appending_bin fun later hlater => hnbatch later (List.mem_cons_of_mem _ hlater))
    (run_bin (hnbatch call List.mem_cons_self) call.data path fs)

end

end Mlonmcu.Mlifio
