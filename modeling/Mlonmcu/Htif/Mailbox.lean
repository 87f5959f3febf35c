import Mlonmcu.CLib.Channel
import Mlonmcu.Htif.Request

/-! `_write` of `syscalls.c` with the host.  The words of `tohost` are volatile, so each access of
the guest to one of them is a step of its own, and the host may take a step between two of them. -/

namespace Mlonmcu.Htif

open CLib

inductive Errno
  | nosys
  deriving DecidableEq, Repr

/-- Where the guest is in `_write`, with the bytes that are left and their number at the start: at
the head of its loop, in the loop of `htif_set_tohost`, before the first and before the second store
of `htif_send`, or past its end, with the value that it returned. -/
inductive Guest
  | loop (rest : List UInt8) (len : Nat)
  | wait (val : UInt64) (rest : List UInt8) (len : Nat)
  | storeLow (val : UInt64) (rest : List UInt8) (len : Nat)
  | storeHigh (val : UInt64) (rest : List UInt8) (len : Nat)
  | returned (ret : Int) (errno : Option Errno)
  deriving DecidableEq, Repr

/-- The start of `_write`. -/
def write (file : Int32) (bytes : List UInt8) : Guest :=
  if file ≠ 1 ∧ file ≠ 2 then .returned (-1) (some .nosys) else .loop bytes bytes.length

variable (charSigned : Bool)

/-- A step of the guest, and what it stores. -/
def Guest.step : Guest → Words → Guest × Words
  | .loop [] len, tohost => (.returned len none, tohost)
  | .loop (c :: rest) len, tohost => (.wait (putchar (intOfChar charSigned c)) rest len, tohost)
  | .wait val rest len, tohost =>
    if tohost.low ≠ 0 then (.wait val rest len, tohost) else (.storeLow val rest len, tohost)
  | .storeLow val rest len, tohost =>
    (.storeHigh val rest len, { tohost with low := (Words.ofVal val).low })
  | .storeHigh val rest len, tohost =>
    (.loop rest len, { tohost with high := (Words.ofVal val).high })
  | .returned ret errno, tohost => (.returned ret errno, tohost)

/-- Only one word of a request has been stored. -/
def Guest.sending : Guest → Bool
  | .storeHigh .. => true
  | _ => false

/-- The guest, the mailbox, and the requests that the host has recorded. -/
structure System where
  guest : Guest
  tohost : Words
  recorded : List UInt64
  deriving DecidableEq, Repr

def System.start (file : Int32) (bytes : List UInt8) : System := ⟨write file bytes, .zero, []⟩

/-- A step of the guest, or of the host, which takes a request. -/
inductive Step : System → System → Prop
  | guest (s : System) : Step s { s with
      guest := (s.guest.step charSigned s.tohost).1
      tohost := (s.guest.step charSigned s.tohost).2 }
  | host (s : System) : s.guest.sending = false → s.tohost.val ≠ 0 → Step s { s with
      tohost := .zero
      recorded := s.recorded ++ [s.tohost.val] }

/-- The guest has returned, and no request is left. -/
def System.Finished (s : System) : Prop :=
  (∃ ret errno, s.guest = .returned ret errno) ∧ s.tohost = .zero

/-- The data of the requests to the console. -/
def System.console (s : System) : List Int64 :=
  (s.recorded.map decode).filterMap fun (dev, cmd, data) =>
    if dev = 1 ∧ cmd = 1 then some data else none

/-- The console receives the bytes that are written, whatever the order of the steps. -/
def Delivers (bytes : List UInt8) : Prop :=
  ∀ t, Relation.ReflTransGen (Step charSigned) (.start 1 bytes) t → t.Finished →
    t.console = bytes.map fun c => c.toUInt64.toInt64

/-! ### The requests for bytes -/

/-- The request for a byte. -/
def request (c : UInt8) : UInt64 := putchar (intOfChar charSigned c)

variable {charSigned}

theorem request_eq (c : UInt8) : request charSigned c = encode 1 1 c.toUInt64.toInt64 :=
  putchar_intOfChar charSigned c

theorem data_lt (c : UInt8) : c.toUInt64.toInt64.toUInt64.toNat < 2 ^ 48 := by
  have hlt := c.toNat_lt
  simp
  omega

theorem decode_request (c : UInt8) :
    decode (request charSigned c) = (1, 1, c.toUInt64.toInt64) := by
  rw [request_eq, decode_encode (data_lt c)]

theorem request_ne_zero (c : UInt8) : request charSigned c ≠ 0 := by
  intro hzero
  have hdev : (decode (request charSigned c)).1 = 1 := congrArg Prod.fst (decode_request c)
  rw [hzero] at hdev
  exact absurd hdev (by decide)

/-- The guest does not see the request for a NUL. -/
theorem request_low (c : UInt8) : (Words.ofVal (request charSigned c)).low = 0 ↔ c = 0 := by
  have hlt := c.toNat_lt
  have hval := encode_toNat (data_lt c) 1 1
  rw [request_eq, ← UInt32.toNat_inj, ← UInt8.toNat_inj, Words.ofVal, UInt64.toNat_toUInt32, hval]
  simp
  omega

/-- The console receives the bytes of the requests. -/
theorem console_requests {s : System} {bytes : List UInt8}
    (h : s.recorded = bytes.map (request charSigned)) :
    s.console = bytes.map fun c => c.toUInt64.toInt64 := by
  rw [System.console, h, List.map_map, List.filterMap_map, ← List.filterMap_eq_map]
  congr 1
  funext c
  simp [decode_request]

end Mlonmcu.Htif
