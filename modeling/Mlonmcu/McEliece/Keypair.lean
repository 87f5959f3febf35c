import Mlonmcu.McEliece.Controlbits
import Mlonmcu.McEliece.Profiling
import Mlonmcu.McEliece.Syndrome

/-! `crypto_kem_keypair` of `operations.c`, with the functions of `util.h` and the part of `pk_gen`
that store, and the benchmark `mceliece_keypair.c`. -/

namespace Mlonmcu.McEliece

open CLib

def condBytes : Nat := 2 ^ (gfbits - 4) * (2 * gfbits - 1)

def irrBytes : Nat := sysT * 2

abbrev Gf := UInt16

/-! ### Loads and stores -/

def storeI (out : Nat) (x : UInt64) (i : Nat) (c : Cells) : Cells :=
  c.write out ((List.range i).map fun j => (x >>> UInt64.ofNat (j * 8) &&& 0xFF).toUInt8)

def store8 (out : Nat) (x : UInt64) (c : Cells) : Cells := storeI out x 8 c

def storeGf (dest : Nat) (a : Gf) (c : Cells) : Cells :=
  c.write dest [(a &&& 0xFF).toUInt8, (a >>> 8).toUInt8]

def loadGf (src : Memory) : Gf := ((src 1).toUInt16 <<< 8 ||| (src 0).toUInt16) &&& 0xFFF

def load4 (src : Memory) : UInt32 :=
  (((src 3).toUInt32 <<< 8 ||| (src 2).toUInt32) <<< 8 ||| (src 1).toUInt32) <<< 8 |||
    (src 0).toUInt32

/-! ### `pk_gen` -/

/-- `nblocks_H`. -/
def nblocksH : Nat := (sysN + 63) / 64

/-- `nblocks_I`, which is also `block_idx`. -/
def nblocksI : Nat := (pkNrows + 63) / 64

/-- What `pk_gen` computes when it does not fail: the words of the rows, and the permutation. -/
structure PkMatrix where
  oneRow : Nat → Nat → UInt64
  pi : Nat → Int16

/-- The store of a word of a row to `pk`, which is moved behind it. -/
def storeRowWord (oneRow : Nat → UInt64) (s : Cells × Nat) (k : Nat) : Cells × Nat :=
  (store8 s.2 (oneRow k) s.1, s.2 + 8)

/-- The stores of a row, the last of which is not one of a whole word. -/
def storeRow (oneRow : Nat → Nat → UInt64) (s : Cells × Nat) (row : Nat) : Cells × Nat :=
  let (c, pk) :=
    (List.range' nblocksI (nblocksH - 1 - nblocksI)).foldl (storeRowWord (oneRow row)) s
  (storeI pk (oneRow row (nblocksH - 1)) (pkRowBytes % 8) c, pk + pkRowBytes % 8)

/-- The stores of `pk_gen`. -/
def storeRows (oneRow : Nat → Nat → UInt64) (c : Cells) : Cells :=
  ((List.range pkNrows).foldl (storeRow oneRow) (c, 0)).1

/-! ### `crypto_kem_keypair` -/

/-- What the calls of an attempt compute from their arguments.  `retries` is how often the check of
`controlbitsfrompermutation` fails. -/
structure Calls where
  shake : Bytes → Memory
  genpolyGen : (Nat → Gf) → Nat → Gf
  pkGen : Bytes → (Nat → UInt32) → PkMatrix
  controlBit : (Nat → Int16) → Nat → UInt8
  retries : Nat

/-- The call that rejects an attempt. -/
inductive Failure
  | genpolyGen
  | pkGen
  deriving DecidableEq, Repr

/-- The seed and the profile, which a call of `crypto_kem_keypair` leaves to the next one, and the
memory of its arguments. -/
structure Keygen where
  seed : Memory
  pk : Cells
  sk : Cells
  profile : Profile

/-- The state before the first call, after `mlonmcu_init`. -/
def Keygen.start : Keygen where
  seed i := if i = 0 then 64 else 0
  pk := ⟨fun _ => 0, []⟩
  sk := ⟨fun _ => 0, []⟩
  profile := ⟨fun _ => ⟨0, 0⟩, 0, []⟩

/-- The length of `r`. -/
def sizeofR : Nat := sysN / 8 + 2 ^ gfbits * 4 + sysT * 2 + 32

/-- `seed` after a copy of 32 bytes to `seed+1`. -/
def copySeed (bytes seed : Memory) : Memory :=
  fun i => if 1 ≤ i ∧ i < 33 then bytes (i - 1) else seed i

def counting (p : Prog Profile Unit) : Prog Keygen Unit :=
  Prog.zoom Keygen.profile (fun p s => { s with profile := p }) p

variable (cycles : Nat → Nat)

/-- A round of the loop of `crypto_kem_keypair`, and whether it ends with `continue`. -/
def attempt (calls : Calls) (failure : Option Failure) : Prog Keygen Bool := do
  counting (startCount cycles .skGen)
  let rp := sizeofR - 32
  let s ← Prog.get
  let r := calls.shake (s.seed.load 33)
  Prog.modify fun s => { s with sk := s.sk.write 0 ((s.seed.drop 1).load 32) }
  let skp := 32 + 8
  Prog.modify fun s => { s with seed := copySeed (r.drop (sizeofR - 32)) s.seed }
  let rp := rp - sysT * 2
  let f := fun i => loadGf (r.drop (rp + i * 2))
  if failure = some .genpolyGen then do
    counting (endCount cycles .skGen)
    pure true
  else do
    let irr := calls.genpolyGen f
    Prog.modify fun s => { s with
      sk := (List.range sysT).foldl (fun c i => storeGf (skp + i * 2) (irr i) c) s.sk }
    let skp := skp + irrBytes
    counting (endCount cycles .skGen)
    counting (startCount cycles .pkGen)
    let rp := rp - 2 ^ gfbits * 4
    let perm := fun i => load4 (r.drop (rp + i * 4))
    if failure = some .pkGen then do
      counting (endCount cycles .pkGen)
      pure true
    else do
      let s ← Prog.get
      let matrix := calls.pkGen ((s.sk.mem.drop (skp - irrBytes)).load irrBytes) perm
      Prog.modify fun s => { s with pk := storeRows matrix.oneRow s.pk }
      counting (endCount cycles .pkGen)
      counting (startCount cycles .controlBits)
      Prog.modify fun s => { s with
        sk := storeControlbits skp (calls.controlBit matrix.pi) gfbits (2 ^ gfbits)
          calls.retries s.sk }
      let skp := skp + condBytes
      counting (endCount cycles .controlBits)
      let rp := rp - sysN / 8
      Prog.modify fun s => { s with sk := s.sk.write skp ((r.drop rp).load (sysN / 8)) }
      Prog.modify fun s => { s with sk := store8 32 0xFFFFFFFF s.sk }
      pure false

/-- The loop, for attempts that are given. -/
def keypairLoop : List (Calls × Option Failure) → Prog Keygen Unit
  | [] => Prog.timeout
  | (calls, failure) :: attempts => do
    let again ← attempt cycles calls failure
    if again then keypairLoop attempts else pure ()

/-- `crypto_kem_keypair`, where `random` are the bytes of `randombytes`. -/
def cryptoKemKeypair (random : Memory) (attempts : List (Calls × Option Failure)) :
    Prog Keygen Int32 := do
  counting (startCount cycles .cycle)
  Prog.modify fun s => { s with seed := copySeed random s.seed }
  keypairLoop cycles attempts
  counting (endCount cycles .cycle)
  pure 0

/-! ### `mceliece_keypair.c` -/

def sizeofPk : Nat := pkNrows * pkRowBytes

def sizeofSk : Nat := irrBytes + condBytes + sysN / 8 + 32

def mlonmcuRun (random : Memory) (attempts : List (Calls × Option Failure)) :
    Prog Keygen Int32 := do
  let _ ← cryptoKemKeypair cycles random attempts
  pure 0

/-! ### Attempts -/

/-- Attempts that are rejected. -/
def rejections (rejected : List (Calls × Failure)) : List (Calls × Option Failure) :=
  rejected.map fun (calls, failure) => (calls, some failure)

/-- Attempts that are rejected, and one that is accepted. -/
def attempts (rejected : List (Calls × Failure)) (accepted : Calls) :
    List (Calls × Option Failure) := rejections rejected ++ [(accepted, none)]

/-- The counts that are measured in an attempt, in their order. -/
def Failure.counts : Option Failure → List KeygenCount
  | some .genpolyGen => [.skGen]
  | some .pkGen => [.skGen, .pkGen]
  | none => [.skGen, .pkGen, .controlBits]

/-- A profile after the measurements of counts. -/
def Profile.measure (p : Profile) (counts : List KeygenCount) : Profile :=
  counts.foldl (fun p cy => (p.started cycles cy).ended cycles cy) p

/-- The state after an attempt. -/
def Keygen.after (s : Keygen) (calls : Calls) (failure : Option Failure) : Keygen :=
  ((attempt cycles calls failure).run s).2

/-- The state after attempts that are rejected. -/
def Keygen.afterAll (s : Keygen) (rejected : List (Calls × Failure)) : Keygen :=
  rejected.foldl (fun s (calls, failure) => s.after cycles calls (some failure)) s

theorem run_attempt (calls : Calls) (failure : Option Failure) (s : Keygen) :
    (attempt cycles calls failure).run s =
      (.done failure.isSome, s.after cycles calls failure) := by
  match failure with
  | some .genpolyGen => rfl
  | some .pkGen => rfl
  | none => rfl

theorem profile_after (calls : Calls) (failure : Option Failure) (s : Keygen) :
    (s.after cycles calls failure).profile =
      s.profile.measure cycles (Failure.counts failure) := by
  match failure with
  | some .genpolyGen => rfl
  | some .pkGen => rfl
  | none => rfl

theorem run_started_bind {α : Type} (cy : KeygenCount) (f : Unit → Prog Keygen α) (s : Keygen) :
    (counting (startCount cycles cy) >>= f).run s =
      (f ()).run { s with profile := s.profile.started cycles cy } :=
  Prog.bind_done (Prog.run_zoom (run_startCount cycles cy s.profile))

theorem run_ended_bind {α : Type} (cy : KeygenCount) (f : Unit → Prog Keygen α) (s : Keygen) :
    (counting (endCount cycles cy) >>= f).run s =
      (f ()).run { s with profile := s.profile.ended cycles cy } :=
  Prog.bind_done (Prog.run_zoom (run_endCount cycles cy s.profile))

/-- The secret key with the seed and the Goppa polynomial of an attempt. -/
def Keygen.skWithIrr (s : Keygen) (calls : Calls) (r : Memory) : Cells :=
  (List.range sysT).foldl (fun c i => storeGf (32 + 8 + i * 2)
    (calls.genpolyGen (fun i => loadGf (r.drop (sizeofR - 32 - sysT * 2 + i * 2))) i) c)
    (s.sk.write 0 ((s.seed.drop 1).load 32))

/-- The result of `pk_gen` in an attempt. -/
def Keygen.matrix (s : Keygen) (calls : Calls) (r : Memory) : PkMatrix :=
  calls.pkGen (((s.skWithIrr calls r).mem.drop (32 + 8 + irrBytes - irrBytes)).load irrBytes)
    fun i => load4 (r.drop (sizeofR - 32 - sysT * 2 - 2 ^ gfbits * 4 + i * 4))

/-- The keys after an attempt that is accepted. -/
theorem keys_after (calls : Calls) (s : Keygen) : ∃ r bytes, bytes.length = sysN / 8 ∧
    (s.after cycles calls none).pk = storeRows (s.matrix calls r).oneRow s.pk ∧
    (s.after cycles calls none).sk = store8 32 0xFFFFFFFF
      ((storeControlbits (32 + 8 + irrBytes) (calls.controlBit (s.matrix calls r).pi)
        gfbits (2 ^ gfbits) calls.retries (s.skWithIrr calls r)).write
          (32 + 8 + irrBytes + condBytes) bytes) := by
  refine ⟨calls.shake (s.seed.load 33), _, Memory.length_load
    ((calls.shake (s.seed.load 33)).drop (sizeofR - 32 - sysT * 2 - 2 ^ gfbits * 4 - sysN / 8)) _,
    ?_⟩
  rw [Keygen.after, attempt]
  simp only [run_started_bind, run_ended_bind, Prog.run_get_bind, Prog.run_modify_bind,
    Prog.run_pure, reduceCtorEq, ↓reduceIte, Keygen.matrix, Keygen.skWithIrr, and_self]

theorem run_keypairLoop_append (rejected : List (Calls × Failure))
    (rest : List (Calls × Option Failure)) (s : Keygen) :
    (keypairLoop cycles (rejections rejected ++ rest)).run s =
      (keypairLoop cycles rest).run (s.afterAll cycles rejected) := by
  induction rejected generalizing s with
  | nil => rfl
  | cons attempt rejected ih =>
    exact (Prog.bind_done (run_attempt cycles attempt.1 (some attempt.2) s)).trans (ih _)

/-- The loop goes on after attempts that are rejected. -/
theorem run_keypairLoop_rejections (rejected : List (Calls × Failure)) (s : Keygen) :
    (keypairLoop cycles (rejections rejected)).run s = (.timeout, s.afterAll cycles rejected) := by
  rw [← List.append_nil (rejections rejected), run_keypairLoop_append]
  rfl

theorem run_keypairLoop (rejected : List (Calls × Failure)) (accepted : Calls) (s : Keygen) :
    (keypairLoop cycles (attempts rejected accepted)).run s =
      (.done (), (s.afterAll cycles rejected).after cycles accepted none) := by
  rw [attempts, run_keypairLoop_append]
  exact Prog.bind_done (run_attempt cycles accepted none _)

/-- The state in which `crypto_kem_keypair` starts its loop. -/
def Keygen.entered (s : Keygen) (random : Memory) : Keygen := { s with
  seed := copySeed random s.seed
  profile := s.profile.started cycles .cycle }

/-- The state in which `crypto_kem_keypair` returns after its loop. -/
def Keygen.left (s : Keygen) : Keygen := { s with profile := s.profile.ended cycles .cycle }

@[simp] theorem Keygen.entered_pk (s : Keygen) (random : Memory) :
    (s.entered cycles random).pk = s.pk := rfl

@[simp] theorem Keygen.entered_sk (s : Keygen) (random : Memory) :
    (s.entered cycles random).sk = s.sk := rfl

@[simp] theorem Keygen.left_pk (s : Keygen) : (s.left cycles).pk = s.pk := rfl

@[simp] theorem Keygen.left_sk (s : Keygen) : (s.left cycles).sk = s.sk := rfl

/-- The loop of `crypto_kem_keypair`, and what follows it. -/
theorem run_entered (random : Memory) (attempts : List (Calls × Option Failure)) (s : Keygen) :
    (cryptoKemKeypair cycles random attempts).run s =
      (keypairLoop cycles attempts >>= fun _ => do
        counting (endCount cycles .cycle)
        pure (0 : Int32)).run (s.entered cycles random) := rfl

theorem run_cryptoKemKeypair (random : Memory) (rejected : List (Calls × Failure))
    (accepted : Calls) (s : Keygen) :
    (cryptoKemKeypair cycles random (attempts rejected accepted)).run s = (.done 0,
      (((s.entered cycles random).afterAll cycles rejected).after cycles accepted none).left
        cycles) := by
  rw [run_entered, Prog.bind_done (run_keypairLoop cycles rejected accepted _)]
  rfl

theorem run_cryptoKemKeypair_rejections (random : Memory) (rejected : List (Calls × Failure))
    (s : Keygen) : (cryptoKemKeypair cycles random (rejections rejected)).run s =
      (.timeout, (s.entered cycles random).afterAll cycles rejected) := by
  rw [run_entered, Prog.bind_timeout (run_keypairLoop_rejections cycles rejected _)]

theorem run_mlonmcuRun (random : Memory) (rejected : List (Calls × Failure)) (accepted : Calls)
    (s : Keygen) : (mlonmcuRun cycles random (attempts rejected accepted)).run s = (.done 0,
      (((s.entered cycles random).afterAll cycles rejected).after cycles accepted none).left
        cycles) :=
  Prog.bind_done (run_cryptoKemKeypair cycles random rejected accepted s)

end Mlonmcu.McEliece
