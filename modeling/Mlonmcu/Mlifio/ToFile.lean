import Mlonmcu.CLib.Printf
import Mlonmcu.Mlifio.Config

/-! `mlifio_to_file`. -/

namespace Mlonmcu.Mlifio

open CLib

def npyHeaderSize : Nat := 128

def magicString : Bytes := 0x93 :: ascii "NUMPY" ++ [1, 0]

/-- The bytes of a `uint16_t`, the low one first. -/
def littleEndian16 (n : UInt16) : Bytes :=
  [UInt8.ofNat (n.toNat % 256), UInt8.ofNat (n.toNat / 256)]

def MlifDataOrder.text : MlifDataOrder → Bytes
  | fortranOrder => ascii "True"
  | cOrder => ascii "False"

/-- The header of a new `.npy` file for `per` samples a batch. -/
def writeHeader (config : MlifDataConfig) (per : UInt64) (fp : Stream) : Stream :=
  let fp := fp.fwrite magicString
  let fp := fp.fwrite (littleEndian16 (UInt16.ofNat (npyHeaderSize - 10)))
  let fp := fp.fwrite (ascii "\x7b'descr': '<" ++ [config.dtype.type] ++
    decimal config.dtype.size ++ ascii "', 'fortran_order': " ++ config.order.text ++
    ascii ", 'shape': (" ++ decimal config.nbatch.toNat ++ ascii ", " ++ decimal per.toNat ++
    ascii ", ")
  let fp := config.shape.foldl (fun fp n => fp.fwrite (decimal n.toNat ++ ascii ", ")) fp
  let fp := fp.fseek (-2) .cur
  let fp := fp.fwrite (ascii "), \x7d")
  fp.fwrite (padded (Int32.ofNat (npyHeaderSize - 1) - fp.ftell.toInt32) (ascii " ") ++ ascii "\n")

variable {Path : Type} [DecidableEq Path]

/-- `mlifio_to_file` on the file system that is the state.  `none` is a null pointer. -/
def mlifioToFile (fmode : MlifFileMode) (path : Path) (config : Option MlifDataConfig)
    (data : Option Memory) : Prog (FileSystem Path) MlifIoStatus :=
  match config, data with
  | some config, some data => do
    let size := sampleSizeInt config.dtype config.shape
    let fs ← Prog.get
    match fmode with
    | .npy =>
      match fs.fopen path with
      | none => do
        let per ← Prog.div config.nsample config.nbatch
        let fp := writeHeader config per FileSystem.fopenTruncate
        let fp := fp.fwrite (data.load (sizeOfInt size * per).toNat)
        Prog.modify fun fs => fs.fclose path fp
        pure .success
      | some fp => do
        let fp := fp.fseek 0 .fin
        let per ← Prog.div config.nsample config.nbatch
        let fp := fp.fwrite (data.load (sizeOfInt size * per).toNat)
        Prog.modify fun fs => fs.fclose path fp
        pure .success
    | .bin => do
      let per ← Prog.div config.nsample config.nbatch
      let fp := (fs.fopenAppend path).fwrite (data.load (sizeOfInt size * per).toNat)
      Prog.modify fun fs => fs.fclose path fp
      pure .success
    | .other => pure .error
  | _, _ => pure .error

end Mlonmcu.Mlifio
