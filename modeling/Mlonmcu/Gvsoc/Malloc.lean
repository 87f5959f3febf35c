import Mathlib.Algebra.Ring.Int.Defs
import Mathlib.Algebra.Ring.Nat
import Mlonmcu.CLib.LittleEndian
import Mlonmcu.CLib.Prog

/-! The allocator of `malloc_internal.c`, whose callers say the size of what they free.  Pointers
and values of type `uint32_t` are numbers below `2 ^ 32`. -/

namespace Mlonmcu.Gvsoc

open CLib

/-- `malloc_chunk_t` without `addr`, which only the allocator of an external memory uses. -/
structure MallocChunk where
  size : Int
  next : Nat
  deriving DecidableEq, Repr

/-- `malloc_t` with the bytes of the memory. -/
structure Heap where
  memory : Memory
  firstFree : Nat

def minChunkSize : Nat := 8

/-- `sizeof(malloc_chunk_t)`. -/
def sizeofMallocChunk : Nat := 12

def toUint32 (x : Int) : Nat := (x % 2 ^ 32).toNat

def toInt32 (x : Nat) : Int := if x < 2 ^ 31 then x else x - 2 ^ 32

/-- `ALIGN_DOWN(x, MIN_CHUNK_SIZE)`. -/
def alignDown (x : Int) : Int := x / minChunkSize * minChunkSize

/-- `ALIGN_UP(x, MIN_CHUNK_SIZE)`. -/
def alignUp {σ : Type} (x : Int) : Prog σ Int := do
  let sum ← Prog.checkInt (x + minChunkSize)
  pure (alignDown (sum - 1))

namespace Heap

/-- What is at `p` as a chunk: `size` in the first four bytes and `next` in the four after them. -/
def chunk (h : Heap) (p : Nat) : MallocChunk where
  size := toInt32 ((h.memory.drop p).word 4)
  next := (h.memory.drop (p + 4)).word 4

/-- `p->size = size`. -/
def setSize (p : Nat) (size : Int) (h : Heap) : Heap :=
  { h with memory := h.memory.storeWord p 4 (toUint32 size) }

/-- `p->next = next`. -/
def setNext (p next : Nat) (h : Heap) : Heap :=
  { h with memory := h.memory.storeWord (p + 4) 4 next }

end Heap

/-- `__malloc_init`. -/
def mallocInit (chunk : Nat) (size : Int) : Prog Heap Unit := do
  let aligned ← alignUp (toInt32 chunk)
  let start := toUint32 aligned
  Prog.modify fun h => { h with firstFree := start }
  let skipped ← Prog.checkInt (toInt32 start - toInt32 chunk)
  let size ← Prog.checkInt (size - skipped)
  if 0 < size then do
    Prog.modify (Heap.setSize start (alignDown size))
    Prog.modify (Heap.setNext start 0)
  else pure ()

/-- The loops over the free chunks, which go on as long as `skip` holds of the chunk at `pt`.  Their
results are `prev` and `pt`. -/
def scan (skip : Nat → MallocChunk → Bool) : Nat → Nat → Nat → Prog Heap (Nat × Nat)
  | 0, _, _ => Prog.timeout
  | fuel + 1, prev, pt => do
    let h ← Prog.get
    if pt ≠ 0 ∧ skip pt (h.chunk pt) then scan skip fuel pt (h.chunk pt).next
    else pure (prev, pt)

/-- `__malloc`. -/
def malloc (fuel : Nat) (size : Int) : Prog Heap Nat := do
  let h ← Prog.get
  let size ← alignUp size
  let (prev, pt) ← scan (fun _ chunk => chunk.size < size) fuel 0 h.firstFree
  if pt = 0 then pure 0
  else if (h.chunk pt).size = size then do
    if prev ≠ 0 then Prog.modify (Heap.setNext prev (h.chunk pt).next)
    else Prog.modify fun h => { h with firstFree := (h.chunk pt).next }
    pure pt
  else do
    let left ← Prog.checkInt ((h.chunk pt).size - size)
    Prog.modify (Heap.setSize pt left)
    pure (toUint32 (pt + (h.chunk pt).size - size))

/-- The first half of `__malloc_free`: the chunk becomes one with the next one, or is linked to it.
-/
def coalesceNext (chunk : Nat) (size : Int) (next : Nat) : Prog Heap Unit := do
  let h ← Prog.get
  if toUint32 (chunk + size) = next then do
    let sum ← Prog.checkInt (size + (h.chunk next).size)
    Prog.modify (Heap.setSize chunk sum)
    Prog.modify fun h => h.setNext chunk (h.chunk next).next
  else do
    Prog.modify (Heap.setSize chunk size)
    Prog.modify (Heap.setNext chunk next)

/-- The second half of `__malloc_free`, for the previous chunk. -/
def coalescePrev (prev chunk : Nat) : Prog Heap Unit := do
  let h ← Prog.get
  if prev ≠ 0 then do
    if toUint32 (prev + (h.chunk prev).size) = chunk then do
      let sum ← Prog.checkInt ((h.chunk prev).size + (h.chunk chunk).size)
      Prog.modify (Heap.setSize prev sum)
      Prog.modify fun h => h.setNext prev (h.chunk chunk).next
    else Prog.modify (Heap.setNext prev chunk)
  else Prog.modify fun h => { h with firstFree := chunk }

/-- `__malloc_free`. -/
def mallocFree (fuel chunk : Nat) (size : Int) : Prog Heap Unit := do
  let h ← Prog.get
  let size ← alignUp size
  let (prev, next) ← scan (fun next _ => next < chunk) fuel 0 h.firstFree
  coalesceNext chunk size next
  coalescePrev prev chunk

/-- `(result + align - 1) & -align`. -/
def alignPointer (result : Nat) (align : Int) : Nat :=
  toUint32 (result + align - 1) &&& toUint32 (-align)

/-- `__malloc_align`. -/
def mallocAlign (fuel : Nat) (size align : Int) : Prog Heap Nat := do
  if align < sizeofMallocChunk then malloc fuel size
  else do
    let sum ← Prog.checkInt (size + align)
    let sizeAlign := toInt32 (toUint32 (sum + sizeofMallocChunk * 2))
    let result ← malloc fuel sizeAlign
    if result = 0 then pure 0
    else do
      let resultAlign := alignPointer result align
      let headersize := toUint32 (resultAlign - result)
      let resultAlign :=
        if headersize ≠ 0 ∧ headersize < sizeofMallocChunk then toUint32 (resultAlign + align)
        else resultAlign
      if headersize ≠ 0 then mallocFree fuel result (toInt32 headersize) else pure ()
      mallocFree fuel (toUint32 (resultAlign + size))
        (toInt32 (toUint32 (sizeAlign - headersize - size)))
      pure resultAlign

/-- The loop of `__malloc_info`, with the size of the chunks before `pt` and their number. -/
def infoLoop : Nat → Nat → Int → Int → Prog Heap (Int × Int)
  | 0, _, _, _ => Prog.timeout
  | fuel + 1, pt, size, nbChunks => do
    let h ← Prog.get
    if pt ≠ 0 then do
      let size ← Prog.checkInt (size + (h.chunk pt).size)
      let nbChunks ← Prog.checkInt (nbChunks + 1)
      infoLoop fuel (h.chunk pt).next size nbChunks
    else pure (size, nbChunks)

/-- `__malloc_info`. -/
def mallocInfo (fuel : Nat) : Prog Heap (Int × Int) := do
  let h ← Prog.get
  infoLoop fuel h.firstFree 0 0

end Mlonmcu.Gvsoc
