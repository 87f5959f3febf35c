import Mlonmcu.Mlifio.Config

/-! `mlifio_from_file`.  The bytes of the array `dtype` before its first use are the parameter
`stack`, and `charSigned` says whether a plain `char` is signed. -/

namespace Mlonmcu.Mlifio

open CLib

/-- The part of the file that the last `fread` stored at `data`. -/
structure Region where
  start : Nat
  count : Nat
  deriving DecidableEq, Repr

/-- What the function changes: the configuration and the memory at `data`.  `loaded` records
where the bytes at `data` come from and has no counterpart in the program. -/
structure Loading where
  config : MlifDataConfig
  data : Memory
  loaded : Region

def freadData (fp : Stream) (n : Nat) : Prog Loading Unit :=
  Prog.modify fun s => { s with
    data := s.data.store (fp.fread n).1
    loaded := ⟨fp.pos, (fp.fread n).1.length⟩ }

/-- The chain of `strcmp` calls on the type tag. -/
def datatypeOf (dtype : Bytes) : MlifDatatype :=
  if cString dtype = ascii "i1" then .int8
  else if cString dtype = ascii "i2" then .int16
  else if cString dtype = ascii "i4" then .int32
  else if cString dtype = ascii "u1" then .uint8
  else if cString dtype = ascii "u2" then .uint16
  else if cString dtype = ascii "u4" then .uint32
  else if cString dtype = ascii "f4" then .float
  else .raw

/-- The fields of the header before the counts. -/
structure Header where
  offset : Int16
  dtype : MlifDatatype
  order : MlifDataOrder
  deriving DecidableEq, Repr

/-- `offset`, from the two `char`s of the header length. -/
def headerOffset (charSigned : Bool) (headerLength : Bytes) : Int16 :=
  (intOfChar charSigned (headerLength.getD 0 0) +
    256 * intOfChar charSigned (headerLength.getD 1 0)).toInt16

/-- The reads up to the first digit of the counts. -/
def readHeader (charSigned : Bool) (stack : Vector UInt8 3) (fp : Stream) : Header × Stream :=
  let fp := fp.fseek 8 .set
  let (got, fp) := fp.fread 2
  let offset := headerOffset charSigned (overwrite got [0, 0])
  let fp := fp.fseek 12 .cur
  let (got, fp) := fp.fread 2
  let dtype := datatypeOf (overwrite got stack.toList)
  let fp := fp.fseek 20 .cur
  let (c, fp) := fp.fgetc
  let order := if c = 70 then .cOrder else .fortranOrder
  let fp := fp.fseek 16 .cur
  (⟨offset, dtype, order⟩, fp)

/-- The loop that collects the digits up to a comma.  It holds the character `tmp`. -/
structure Scan where
  fp : Stream
  tmp : UInt8
  buffer : Vector UInt8 10
  cnt : Nat

/-- `tmp = fgetc(fp)`. -/
def Scan.next (s : Scan) : Scan := { s with tmp := charOfInt s.fp.fgetc.1, fp := s.fp.fgetc.2 }

/-- The condition that `tmp` is a digit. -/
def charIsDigit (charSigned : Bool) (tmp : UInt8) : Bool :=
  48 ≤ intOfChar charSigned tmp && intOfChar charSigned tmp ≤ 57

/-- `while (tmp != ',')`, for at most `fuel` tests of the condition. -/
def scanLoop {σ : Type} (charSigned : Bool) : Nat → Scan → Prog σ Scan
  | 0, _ => Prog.timeout
  | fuel + 1, s =>
    if intOfChar charSigned s.tmp ≠ 44 then
      if charIsDigit charSigned s.tmp then
        if h : s.cnt < 10 then
          scanLoop charSigned fuel
            { s with buffer := s.buffer.set s.cnt s.tmp, cnt := s.cnt + 1 }.next
        else Prog.fault .outOfBounds
      else scanLoop charSigned fuel s.next
    else pure s

/-- `atoi` on the buffer, which reads past the end when the buffer holds no NUL. -/
def atoiBuffer {σ : Type} (buffer : Vector UInt8 10) : Prog σ Int32 :=
  if 0 ∈ buffer.toList then pure (atoi (cString buffer.toList)) else Prog.fault .outOfBounds

/-- One pass of the loop over the two counts, up to the number. -/
def readCount {σ : Type} (charSigned : Bool) (fuel : Nat) (fp : Stream) :
    Prog σ (Int32 × Stream) := do
  let s ← scanLoop charSigned fuel (Scan.next ⟨fp, 0, Vector.replicate 10 0, 0⟩)
  let fp := s.fp.fseek 1 .cur
  let count ← atoiBuffer s.buffer
  pure (count, fp)

/-- The branch of mode `MLIF_FILE_NPY` for an open file. -/
def fromNpy (charSigned : Bool) (stack : Vector UInt8 3) (fuel : Nat) (fp : Stream)
    (idx : UInt64) : Prog Loading MlifIoStatus := do
  let (header, fp) := readHeader charSigned stack fp
  Prog.modify fun s => { s with
    config := { s.config with dtype := header.dtype, order := header.order } }
  let (count, fp) ← readCount charSigned fuel fp
  Prog.modify fun s => { s with config := { s.config with nbatch := sizeOfInt count } }
  let (count, fp) ← readCount charSigned fuel fp
  Prog.modify fun s => { s with
    config := { s.config with nsample := sizeOfInt count * s.config.nbatch } }
  let s ← Prog.get
  let size := sampleSize header.dtype s.config.shape
  let fp := fp.fseek (sizeOfInt (header.offset.toInt32 + 10) + idx * size).toInt64 .set
  let per ← Prog.div s.config.nsample s.config.nbatch
  freadData fp (size * per).toNat
  pure .success

/-- The branch of mode `MLIF_FILE_BIN` for an open file. -/
def fromBin (fp : Stream) (idx : UInt64) : Prog Loading MlifIoStatus := do
  let s ← Prog.get
  let size := sampleSize s.config.dtype s.config.shape
  let fp := fp.fseek 0 .fin
  let nsample ← Prog.div fp.ftell.toUInt64 size
  Prog.modify fun s => { s with config := { s.config with nsample } }
  let fp := fp.fseek (idx * size).toInt64 .set
  freadData fp size.toNat
  pure .success

/-- `mlifio_from_file`, with at most `fuel` tests of the condition of each scan for a comma. -/
def mlifioFromFile {Path : Type} (charSigned : Bool) (stack : Vector UInt8 3) (fuel : Nat)
    (fs : FileSystem Path) (fmode : MlifFileMode) (path : Path) (idx : UInt64) :
    Prog Loading MlifIoStatus :=
  match fmode with
  | .npy =>
    match fs.fopen path with
    | none => pure .error
    | some fp => fromNpy charSigned stack fuel fp idx
  | .bin =>
    match fs.fopen path with
    | none => pure .error
    | some fp => fromBin fp idx
  | .other => pure .error

end Mlonmcu.Mlifio
