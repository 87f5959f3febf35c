import Mlonmcu.Mlifio.Rows

/-! Where `mlifio_from_stdin` stores.  A cell to which a call does not store keeps its value,
whatever that is. -/

namespace Mlonmcu.Mlifio

open CLib

/-- The contents of the buffer one after the other, each with the number of its row.  The rows are
the lines of the input, and the buffer holds `bufferSize - 1` characters of one. -/
def buffers (input : Bytes) : List (Nat × Bytes) :=
  (textLines input).zipIdx.flatMap fun (row, i) =>
    (pieces (bufferSize - 1) row).map fun buffer => (i, buffer)

/-- The buffers before one that holds only a newline. -/
def taken (input : Bytes) : List (Nat × Bytes) :=
  (buffers input).takeWhile fun (_, buffer) => cString buffer ≠ ascii "\n"

section

variable {config : MlifDataConfig} {stdin : Bytes}

section

variable {cnt i : Nat} {buffer : Bytes} (h : (taken stdin)[cnt]? = some (i, buffer))
include h

end

end

end Mlonmcu.Mlifio
