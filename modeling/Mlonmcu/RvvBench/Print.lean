import Mlonmcu.CLib.Loops
import Mlonmcu.CLib.Printf

/-! The print layer of `rvv_bench_utils.h`, and the texts that its calls are given. -/

namespace Mlonmcu.RvvBench

open CLib

/-- `__riscv_xlen`. -/
inductive Xlen
  | rv32
  | rv64
  deriving DecidableEq, Repr

def Xlen.bits : Xlen → Nat
  | .rv32 => 32
  | .rv64 => 64

/-- `UXTOA_MAX`. -/
def Xlen.uxtoaMax : Xlen → Nat
  | .rv32 => 10
  | .rv64 => 20

abbrev Ux (xlen : Xlen) := BitVec xlen.bits

/-- `sizeof printBuffer`. -/
def printSize : Nat := 1024

/-- `printBuffer`, the offset of `printIt` in it, and what `mlonmcu_printf` has written. -/
@[ext]
structure Printer where
  buffer : Memory
  printIt : Nat
  out : Bytes

/-- The static variables before the first call. -/
def Printer.start : Printer := ⟨fun _ => 0, 0, []⟩

/-- Bytes are copied to `printIt`, which is then moved behind them. -/
def Printer.extend (p : Printer) (bytes : Bytes) : Printer where
  buffer i := if p.printIt ≤ i then bytes[i - p.printIt]?.getD (p.buffer i) else p.buffer i
  printIt := p.printIt + bytes.length
  out := p.out

/-- `memcpy` to `printIt`, and the statement after it. -/
def append (bytes : Bytes) : Prog Printer Unit := do
  let p ← Prog.get
  if p.printIt + bytes.length ≤ printSize then Prog.modify (·.extend bytes)
  else Prog.fault .outOfBounds

/-- `mlonmcu_printf` of bytes that may hold no NUL. -/
def mlonmcuPrintf (format : Bytes) : Prog Printer Unit :=
  if 0 ∈ format then
    match expand (cString format) with
    | some text => Prog.modify fun p => { p with out := p.out ++ text }
    | none => Prog.fault .outOfBounds
  else Prog.fault .outOfBounds

def printFlush : Prog Printer Unit := do
  let p ← Prog.get
  mlonmcuPrintf (p.buffer.load printSize)
  Prog.modify fun p => { p with printIt := 0 }

/-- `print_raw`, also as `print_lit`. -/
def printRaw (s : Bytes) : Prog Printer Unit := do
  append s
  printFlush

def printS (s : Bytes) : Prog Printer Unit := printRaw (cString s)

def printC (s : UInt8) : Prog Printer Unit := printRaw [s]

/-- The loop of `uxtoa`, with the bytes that are left of its buffer and the digits in it. -/
def uxtoaLoop {σ : Type} : Nat → Nat → Bytes → Prog σ Bytes
  | 0, _, _ => Prog.fault .outOfBounds
  | room + 1, val, it =>
    let it := UInt8.ofNat (val % 10 + 48) :: it
    if val / 10 ≠ 0 then uxtoaLoop room (val / 10) it else pure it

/-- The digits that `uxtoa` copies. -/
def uxtoa {σ : Type} (xlen : Xlen) (val : Ux xlen) : Prog σ Bytes :=
  uxtoaLoop xlen.uxtoaMax val.toNat []

def printU (xlen : Xlen) (val : Ux xlen) : Prog Printer Unit := do
  let p ← Prog.get
  (if printSize - p.printIt < xlen.uxtoaMax then printFlush else pure ())
  let digits ← uxtoa xlen val
  append digits

/-! ### Calls -/

inductive Call (xlen : Xlen)
  | raw (s : Bytes)
  | s (s : Bytes)
  | c (s : UInt8)
  | u (val : Ux xlen)
  | flush

namespace Call

variable {xlen : Xlen}

def run : Call xlen → Prog Printer Unit
  | raw text => printRaw text
  | s text => printS text
  | c text => printC text
  | u val => printU xlen val
  | flush => printFlush

/-- The characters that the call is given. -/
def text : Call xlen → Bytes
  | raw text => text
  | s text => cString text
  | c text => [text]
  | u val => decimal val.toNat
  | flush => []

/-- The text that the call flushes after a pending text, and what it leaves pending. -/
def flushed (pending : Bytes) : Call xlen → Option Bytes × Bytes
  | u val =>
    if printSize - pending.length < xlen.uxtoaMax then (some pending, decimal val.toNat)
    else (none, pending ++ decimal val.toNat)
  | call => (some (pending ++ call.text), [])

end Call

section

variable {xlen : Xlen}

/-- The texts that calls flush after a pending text. -/
def flushes : Bytes → List (Call xlen) → List Bytes
  | _, [] => []
  | pending, call :: calls =>
    (call.flushed pending).1.toList ++ flushes (call.flushed pending).2 calls

/-- A text that fits into the buffer and is its own format. -/
structure Plain (text : Bytes) : Prop where
  fits : text.length < printSize
  nul : 0 ∉ text
  percent : 37 ∉ text

/-- After the calls, what had been printed and the pieces of the calls are what has been written
and what is in front of `printIt`. -/
def Emitted (p : Printer) (printed : Bytes) (calls : List (Call xlen)) : Prop :=
  ∃ q, (forEach Call.run calls).run p = (.done (), q) ∧ q.printIt ≤ printSize ∧
    q.out ++ q.buffer.load q.printIt = printed ++ calls.flatMap Call.text

/-- That holds after each of the calls. -/
def EmitsPieces (calls : List (Call xlen)) : Prop :=
  ∀ done, done <+: calls → Emitted .start [] done

end

end Mlonmcu.RvvBench
