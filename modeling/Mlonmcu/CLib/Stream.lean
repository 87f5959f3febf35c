import Mlonmcu.CLib.Bytes
import Mlonmcu.CLib.Words
import Mathlib.Logic.Function.Basic

/-! The file functions of C on an ideal file system, where a file is a byte array of any length.  A
stream holds the bytes of its file, and writes reach the file at once.  The functions that report
failure in their result are modeled with the stream after the failure. -/

namespace CLib

/-- The files by path. -/
abbrev FileSystem (Path : Type) := Path → Option Bytes

/-- An open file.  A stream in append mode writes at the end. -/
structure Stream where
  bytes : Bytes
  pos : Nat
  append : Bool

inductive Whence
  | set
  | cur
  | fin
  deriving DecidableEq, Repr

def eof : Int32 := -1

namespace Stream

def rest (fp : Stream) : Bytes := fp.bytes.drop fp.pos

/-- `ftell`, which fails when the position is not a `long`. -/
def ftell (fp : Stream) : Int64 := if fp.pos < 2 ^ 63 then Int64.ofNat fp.pos else -1

/-- The position that `fseek` computes, which may be negative. -/
def target (fp : Stream) (offset : Int64) : Whence → Int
  | .set => offset.toInt
  | .cur => fp.pos + offset.toInt
  | .fin => fp.bytes.length + offset.toInt

/-- `fseek`, which fails and leaves the position unchanged when the target is negative. -/
def fseek (fp : Stream) (offset : Int64) (whence : Whence) : Stream :=
  if fp.target offset whence < 0 then fp else { fp with pos := (fp.target offset whence).toNat }

/-- `fread` of up to `n` bytes. -/
def fread (fp : Stream) (n : Nat) : Bytes × Stream :=
  (fp.rest.take n, { fp with pos := fp.pos + (fp.rest.take n).length })

def fgetc (fp : Stream) : Int32 × Stream :=
  match fp.rest with
  | c :: _ => (Int32.ofNat c.toNat, { fp with pos := fp.pos + 1 })
  | [] => (eof, fp)

/-- `fwrite`, and the other functions that write text, at the position or, in append mode, at the
end.  Bytes between the end and the position become 0. -/
def fwrite (fp : Stream) (text : Bytes) : Stream :=
  let start := if fp.append then fp.bytes.length else fp.pos
  let before := fp.bytes.take start ++ List.replicate (start - fp.bytes.length) 0
  { fp with
    bytes := if text = [] then fp.bytes else before ++ text ++ fp.bytes.drop (start + text.length)
    pos := if text = [] then fp.pos else start + text.length }

end Stream

namespace FileSystem

variable {Path : Type} (fs : FileSystem Path) (path : Path)

/-- `fopen` with mode `"rb"` or `"rb+"`, which fails when the file does not exist. -/
def fopen : Option Stream := (fs path).map fun bytes => ⟨bytes, 0, false⟩

/-- `fopen` with mode `"wb+"`, which makes an empty file. -/
def fopenTruncate : Stream := ⟨[], 0, false⟩

/-- `fopen` with mode `"ab+"`, which makes a file that does not exist and writes at the end. -/
def fopenAppend : Stream := ⟨(fs path).getD [], 0, true⟩

variable [DecidableEq Path]

/-- `fclose`, after which the file holds the bytes of the stream. -/
def fclose (fp : Stream) : FileSystem Path := Function.update fs path (some fp.bytes)

end FileSystem

namespace Stream

variable (fp : Stream)

theorem ftell_of_lt (h : fp.pos < 2 ^ 63) : fp.ftell = Int64.ofNat fp.pos := if_pos h

theorem ftell_toUInt64 :
    fp.ftell.toUInt64.toNat = if fp.pos < 2 ^ 63 then fp.pos else 2 ^ 64 - 1 := by
  rw [ftell]
  split
  next h =>
    have hpos := toNat_toUInt64 (Int64.ofNat fp.pos)
    rw [Int64.toInt_ofNat_of_lt h] at hpos
    omega
  next => rfl

theorem fseek_set {offset : Int64} (h : 0 ≤ offset.toInt) :
    fp.fseek offset .set = { fp with pos := offset.toInt.toNat } := by
  rw [fseek, if_neg (by simp only [target]; omega)]
  rfl

theorem fseek_set_neg {offset : Int64} (h : offset.toInt < 0) : fp.fseek offset .set = fp := by
  rw [fseek, if_pos (by simpa only [target] using h)]

theorem fseek_cur {offset : Int64} {n : Nat} (h : offset.toInt = n) :
    fp.fseek offset .cur = { fp with pos := fp.pos + n } := by
  rw [fseek, target, h, if_neg (by omega)]
  congr

theorem fseek_end : fp.fseek 0 .fin = { fp with pos := fp.bytes.length } := by
  simp [fseek, target]

theorem fread_eq {n : Nat} (h : fp.pos + n ≤ fp.bytes.length) :
    fp.fread n = ((fp.bytes.drop fp.pos).take n, { fp with pos := fp.pos + n }) := by
  simp [fread, rest, Nat.min_eq_left (show n ≤ fp.bytes.length - fp.pos by omega)]

theorem fgetc_cons {c : UInt8} {tail : Bytes} (h : fp.rest = c :: tail) :
    fp.fgetc = (Int32.ofNat c.toNat, { fp with pos := fp.pos + 1 }) := by
  simp [fgetc, h]

theorem fgetc_nil (h : fp.rest = []) : fp.fgetc = (eof, fp) := by
  simp [fgetc, h]

theorem fgetc_bytes : fp.fgetc.2.bytes = fp.bytes := by
  unfold fgetc
  split <;> rfl

theorem le_fgetc_pos : fp.pos ≤ fp.fgetc.2.pos := by
  unfold fgetc
  split
  · exact Nat.le_succ _
  · exact Nat.le_refl _

theorem rest_succ {c : UInt8} {tail : Bytes} (h : fp.rest = c :: tail) :
    ({ fp with pos := fp.pos + 1 } : Stream).rest = tail := by
  rw [rest, ← List.drop_drop]
  have : fp.bytes.drop fp.pos = c :: tail := h
  simp [this]

end Stream

/-- The stream of a file that has been written up to its end. -/
def Stream.written (bytes : Bytes) : Stream := ⟨bytes, bytes.length, false⟩

theorem Stream.fwrite_written (bytes text : Bytes) :
    (written bytes).fwrite text = written (bytes ++ text) := by
  by_cases ht : text = []
  · simp [fwrite, written, ht]
  · simp [fwrite, written, ht]

/-- A stream in append mode writes at the end. -/
theorem Stream.fwrite_append (bytes text : Bytes) (pos : Nat) :
    ((⟨bytes, pos, true⟩ : Stream).fwrite text).bytes = bytes ++ text := by
  by_cases ht : text = []
  · simp [fwrite, ht]
  · simp [fwrite, ht]

theorem Stream.fwrite_over {bytes last text : Bytes} {offset : Int64}
    (hoffset : offset.toInt = -last.length) (h : last.length ≤ text.length) (hne : text ≠ []) :
    ((written (bytes ++ last)).fseek offset .cur).fwrite text = written (bytes ++ text) := by
  have htarget : (written (bytes ++ last)).target offset .cur = bytes.length := by
    simp [target, written, hoffset]
  rw [fseek, htarget, if_neg (by omega)]
  simp [fwrite, written, hne, List.drop_append, h]

end CLib
