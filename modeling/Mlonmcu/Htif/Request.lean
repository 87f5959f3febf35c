import Mlonmcu.CLib.Words

/-! The requests of `syscalls.c` to the host: a device, a command, and data in one number of 64
bits, which takes two words. -/

namespace Mlonmcu.Htif

open CLib

/-- The number that `htif_send` encodes. -/
def encode (dev cmd : UInt8) (data : Int64) : UInt64 :=
  dev.toUInt64 <<< 56 ||| cmd.toUInt64 <<< 48 ||| data.toUInt64

/-- The device, the command, and the data that `htif_recv` decodes. -/
def decode (val : UInt64) : UInt8 × UInt8 × Int64 :=
  ((val >>> 56).toUInt8, (val >>> 48 &&& 0xff).toUInt8, (val <<< 16 >>> 16).toInt64)

/-- `tohost`, with the words `arr[0]` and `arr[1]`. -/
structure Words where
  low : UInt32
  high : UInt32
  deriving DecidableEq, Repr

namespace Words

def zero : Words := ⟨0, 0⟩

def val (w : Words) : UInt64 := w.high.toUInt64 <<< 32 ||| w.low.toUInt64

/-- The words of a number in little endian. -/
def ofVal (val : UInt64) : Words := ⟨val.toUInt32, (val >>> 32).toUInt32⟩

theorem val_ofVal (n : UInt64) : (ofVal n).val = n := join_halves n

end Words

/-- The number that `htif_putchar` sends. -/
def putchar (ch : Int32) : UInt64 := encode 1 1 (ch &&& 0xff).toInt64

theorem encode_toNat {data : Int64} (h : data.toUInt64.toNat < 2 ^ 48) (dev cmd : UInt8) :
    (encode dev cmd data).toNat =
      dev.toNat * 2 ^ 56 + cmd.toNat * 2 ^ 48 + data.toUInt64.toNat := by
  have hdev := dev.toNat_lt
  have hcmd := cmd.toNat_lt
  have hhigh : (dev.toUInt64 <<< 56).toNat = dev.toNat <<< 56 := by
    simp [UInt64.toNat_shiftLeft, Nat.shiftLeft_eq]
    omega
  have hmid : (cmd.toUInt64 <<< 48).toNat = cmd.toNat <<< 48 := by
    simp [UInt64.toNat_shiftLeft, Nat.shiftLeft_eq]
    omega
  have hor : dev.toNat <<< 56 ||| cmd.toNat <<< 48 = (dev.toNat * 2 ^ 8 + cmd.toNat) <<< 48 := by
    rw [← Nat.shiftLeft_add_eq_or_of_lt (by rw [Nat.shiftLeft_eq]; omega)]
    simp only [Nat.shiftLeft_eq]
    omega
  rw [encode, UInt64.toNat_or, UInt64.toNat_or, hhigh, hmid, hor,
    ← Nat.shiftLeft_add_eq_or_of_lt h, Nat.shiftLeft_eq]
  omega

/-- A request whose data have 48 bits is decoded as it was encoded. -/
theorem decode_encode {data : Int64} (h : data.toUInt64.toNat < 2 ^ 48) (dev cmd : UInt8) :
    decode (encode dev cmd data) = (dev, cmd, data) := by
  have hval := encode_toNat h dev cmd
  have hdev := dev.toNat_lt
  have hcmd := cmd.toNat_lt
  simp only [decode, Prod.mk.injEq]
  refine ⟨?_, ?_, ?_⟩
  · apply UInt8.toNat_inj.mp
    simp [hval, Nat.shiftRight_eq_div_pow]
    omega
  · have hand (n : Nat) : n &&& 255 = n % 256 := Nat.and_two_pow_sub_one_eq_mod n 8
    apply UInt8.toNat_inj.mp
    simp [hval, Nat.shiftRight_eq_div_pow, hand]
    omega
  · rw [← Int64.toInt64_toUInt64 data]
    congr 1
    apply UInt64.toNat_inj.mp
    simp [UInt64.toNat_shiftLeft, hval, Nat.shiftRight_eq_div_pow, Nat.shiftLeft_eq]
    omega

theorem putchar_intOfChar (charSigned : Bool) (c : UInt8) :
    putchar (intOfChar charSigned c) = encode 1 1 c.toUInt64.toInt64 := by
  have hbyte : ∀ (charSigned : Bool) (n : Fin 256),
      (intOfChar charSigned (UInt8.ofFin n) &&& 0xff).toInt64 =
        (UInt8.ofFin n).toUInt64.toInt64 := by
    decide +kernel
  exact congrArg (encode 1 1) (hbyte charSigned c.toFin)

end Mlonmcu.Htif
