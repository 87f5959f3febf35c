import Mlonmcu.CLib.Prog
import Mlonmcu.Htif.Request

/-! The values that the callers of `htif_set_tohost` pass, and `_exit_`: an `int` that is negative
fills the bits of the device and the command when it is extended. -/

namespace Mlonmcu.Htif

open CLib

/-- The words that `htif_send` stores. -/
def send (dev cmd : UInt8) (data : Int64) : Words := .ofVal (encode dev cmd data)

/-- What `htif_recv` reads from words. -/
def recv (words : Words) : UInt8 × UInt8 × Int64 := decode words.val

/-- The calls of `htif_set_tohost`, with the arguments of the functions that make them. -/
inductive Source
  | putchar (ch : Int32)
  | getchar
  | poweroff (status : Int32)
  deriving DecidableEq, Repr

/-- The data that is passed.  The shift of an `int` keeps the low 32 bits. -/
def Source.data : Source → Int64
  | putchar ch => (ch &&& 0xff).toInt64
  | getchar => 0
  | poweroff status => (status <<< 1 ||| 1).toInt64

/-- `htif_set_tohost`, when the host takes each request, on the requests that have been stored. -/
def setTohost (dev cmd : UInt8) (data : Int64) : Prog (List Words) Unit :=
  Prog.modify (· ++ [send dev cmd data])

/-- The first rounds of the loop of `htif_poweroff`, which does not end. -/
def poweroff (status : Int32) : Nat → Prog (List Words) Unit
  | 0 => Prog.timeout
  | fuel + 1 => do
    setTohost 0 0 (Source.poweroff status).data
    poweroff status fuel

/-- `_exit_`. -/
def exit (exitStatus : Int32) (fuel : Nat) : Prog (List Words) Unit := poweroff exitStatus fuel

/-- The low 48 bits of the data. -/
def low48 (data : Int64) : Int64 := (data.toUInt64 &&& 0xffffffffffff).toInt64

/-- The exit status in the data of a request to exit. -/
def statusOf (payload : Int64) : Int32 := (payload >>> 1).toInt32

/-- A request to exit with a status. -/
structure ExitsWith (words : Words) (status : Int32) : Prop where
  device : (recv words).1 = 0
  command : (recv words).2.1 = 0
  bit : (recv words).2.2 &&& 1 = 1
  status : statusOf (recv words).2.2 = status

/-- The data of a call is read as it was sent, and a call of `_exit_` sends requests to exit. -/
structure Faithful (source : Source) : Prop where
  fields : ∀ dev cmd, recv (send dev cmd source.data) = (dev, cmd, low48 source.data)
  exits : ∀ status, source = .poweroff status → ∀ fuel, ∃ words, ExitsWith words status ∧
    ((exit status fuel).run []).2 = List.replicate fuel words

/-! ### Numbers -/

theorem shiftLeft_or_one (x : BitVec 32) : x <<< 1 ||| 1#32 = x <<< 1 + 1#32 := by
  refine (BitVec.add_eq_or_of_and_eq_zero _ _ ?_).symm
  ext i hi
  rw [BitVec.getElem_and, BitVec.getElem_shiftLeft, BitVec.getElem_zero]
  rcases Nat.eq_zero_or_pos i with rfl | hpos
  · simp
  · have hbit : (1#32)[i] = false := by simp; omega
    rw [hbit, Bool.and_false]

theorem poweroff_data_toInt (status : Int32) :
    (Source.poweroff status).data.toInt = (2 * status.toInt + 1).bmod (2 ^ 32) := by
  have hshift : (status <<< 1).toBitVec = status.toBitVec <<< 1 := by
    rw [Int32.toBitVec_shiftLeft]
    rfl
  have hone : (1 : Int32).toBitVec = 1#32 := rfl
  rw [Source.data, Int32.toInt_toInt64, ← Int32.toInt_toBitVec, Int32.toBitVec_or, hshift, hone,
    shiftLeft_or_one, BitVec.toInt_add, BitVec.toInt_shiftLeft, ← Int32.toInt_toBitVec,
    show (1#32).toInt = 1 from rfl, BitVec.toInt_eq_toNat_bmod, Nat.shiftLeft_eq]
  simp only [Int.bmod_def]
  omega

theorem recv_send (dev cmd : UInt8) (data : Int64) :
    recv (send dev cmd data) = decode (encode dev cmd data) := by
  rw [recv, send, Words.val_ofVal]

section

variable {data : Int64}

theorem toUInt64_of_nonneg (h : 0 ≤ data.toInt) : (data.toUInt64.toNat : Int) = data.toInt := by
  have hdata := toNat_toUInt64 data
  have hlt := data.toInt_lt
  omega

theorem low48_of_lt (h : data.toUInt64.toNat < 2 ^ 48) : low48 data = data := by
  have hand : (data.toUInt64 &&& 0xffffffffffff).toNat = data.toUInt64.toNat % 2 ^ 48 :=
    Nat.and_two_pow_sub_one_eq_mod _ 48
  have hlow := UInt64.toNat_inj.mp (hand.trans (Nat.mod_eq_of_lt h))
  exact (congrArg UInt64.toInt64 hlow).trans (Int64.toInt64_toUInt64 data)

/-- Data that is not negative leaves the device and the command as they are. -/
theorem recv_send_of_nonneg (h : 0 ≤ data.toInt) (hlt : data.toInt < 2 ^ 48) (dev cmd : UInt8) :
    recv (send dev cmd data) = (dev, cmd, data) ∧ low48 data = data := by
  have hdata := toUInt64_of_nonneg h
  have hnat : data.toUInt64.toNat < 2 ^ 48 := by omega
  exact ⟨(recv_send _ _ _).trans (decode_encode hnat dev cmd), low48_of_lt hnat⟩

/-- Negative data sets all bits of the device. -/
theorem device_of_neg (h : data.toInt < 0) (hge : -2 ^ 32 ≤ data.toInt) :
    (recv (send 0 0 data)).1 = 255 := by
  have hdata := toNat_toUInt64 data
  have hencode : encode 0 0 data = data.toUInt64 := by simp [encode]
  rw [recv_send, hencode]
  apply UInt8.toNat_inj.mp
  simp [decode, Nat.shiftRight_eq_div_pow]
  omega

theorem statusOf_toInt (payload : Int64) :
    (statusOf payload).toInt = (payload.toInt / 2).bmod (2 ^ 32) := by
  have hshift : (payload >>> 1).toBitVec = payload.toBitVec.sshiftRight 1 := rfl
  rw [statusOf, Int64.toInt_toInt32, ← Int64.toInt_toBitVec, hshift, BitVec.toInt_sshiftRight,
    Int64.toInt_toBitVec, Int.shiftRight_eq_div_pow]
  rfl

theorem and_one_of_odd (h : 0 ≤ data.toInt) (hodd : data.toInt % 2 = 1) : data &&& 1 = 1 := by
  have hdata := toUInt64_of_nonneg h
  have hnat : (data.toUInt64 &&& 1).toNat = 1 := by
    rw [UInt64.toNat_and, UInt64.toNat_one, Nat.and_one_is_mod]
    omega
  have hand : (data &&& 1).toUInt64 = 1 := UInt64.toNat_inj.mp hnat
  exact (Int64.toInt64_toUInt64 _).symm.trans (congrArg UInt64.toInt64 hand)

end

theorem run_exit (status : Int32) (fuel : Nat) (stored : List Words) :
    ((exit status fuel).run stored).2 =
      stored ++ List.replicate fuel (send 0 0 (Source.poweroff status).data) := by
  unfold exit
  induction fuel generalizing stored with
  | zero => rw [List.replicate_zero, List.append_nil]; rfl
  | succ fuel ih =>
    rw [poweroff, setTohost, Prog.run_modify_bind, ih, List.replicate_succ, List.append_assoc]
    rfl

/-- The data of a status that keeps its bits. -/
theorem poweroff_data_of_fits {status : Int32} (h : 0 ≤ status.toInt)
    (hlt : status.toInt < 2 ^ 30) : (Source.poweroff status).data.toInt = 2 * status.toInt + 1 := by
  rw [poweroff_data_toInt, Int.bmod_def]
  omega

theorem putchar_data_bounds (ch : Int32) :
    0 ≤ (Source.putchar ch).data.toInt ∧ (Source.putchar ch).data.toInt < 2 ^ 48 := by
  have hand : (ch &&& 0xff).toUInt32.toNat = ch.toUInt32.toNat % 2 ^ 8 :=
    Nat.and_two_pow_sub_one_eq_mod _ 8
  have hint := toInt_toInt32 (ch &&& 0xff).toUInt32
  rw [Int32.toInt32_toUInt32, hand] at hint
  rw [Source.data, Int32.toInt_toInt64, hint, Int.bmod_def]
  omega

theorem exitsWith_of_fits {status : Int32} (h : 0 ≤ status.toInt) (hlt : status.toInt < 2 ^ 30) :
    ExitsWith (send 0 0 (Source.poweroff status).data) status := by
  have hdata := poweroff_data_of_fits h hlt
  have hnonneg : 0 ≤ (Source.poweroff status).data.toInt := by omega
  have hrecv := (recv_send_of_nonneg hnonneg (by omega) 0 0).1
  refine ⟨congrArg Prod.fst hrecv, congrArg (fun fields => fields.2.1) hrecv, ?_, ?_⟩
  · rw [hrecv]
    exact and_one_of_odd (by dsimp only; omega) (by dsimp only; omega)
  · rw [hrecv, ← Int32.toInt_inj, statusOf_toInt, hdata, Int.bmod_def]
    omega

theorem fits_of_faithful {status : Int32} (h : Faithful (.poweroff status)) :
    0 ≤ status.toInt ∧ status.toInt < 2 ^ 30 := by
  have hdata := poweroff_data_toInt status
  have hlower := status.le_toInt
  have hupper := status.toInt_lt
  rw [Int.bmod_def] at hdata
  have hnonneg : 0 ≤ (Source.poweroff status).data.toInt := by
    by_contra hneg
    have hdevice := device_of_neg (Int.not_le.mp hneg) (by omega)
    rw [h.fields 0 0] at hdevice
    exact absurd hdevice (show (0 : UInt8) ≠ 255 by decide)
  obtain ⟨words, hexits, hrun⟩ := h.exits status rfl 1
  rw [run_exit, List.nil_append, List.replicate_one, List.replicate_one,
    List.singleton_inj] at hrun
  have hstatus := hexits.status
  rw [← hrun, (recv_send_of_nonneg hnonneg (by omega) 0 0).1, ← Int32.toInt_inj, statusOf_toInt,
    Int.bmod_def] at hstatus
  dsimp only at hstatus
  omega

/-- The encoding is faithful exactly for the statuses whose bits 30 and 31 are 0. -/
theorem faithful_iff (source : Source) : Faithful source ↔
    ∀ status, source = .poweroff status → 0 ≤ status.toInt ∧ status.toInt < 2 ^ 30 := by
  constructor
  · rintro h status rfl
    exact fits_of_faithful h
  · intro hfits
    have hbounds : 0 ≤ source.data.toInt ∧ source.data.toInt < 2 ^ 48 := by
      cases source with
      | putchar ch => exact putchar_data_bounds ch
      | getchar => decide
      | poweroff status =>
        have hstatus := hfits status rfl
        rw [poweroff_data_of_fits hstatus.1 hstatus.2]
        omega
    refine ⟨fun dev cmd => ?_, ?_⟩
    · obtain ⟨hrecv, hlow⟩ := recv_send_of_nonneg hbounds.1 hbounds.2 dev cmd
      rw [hrecv, hlow]
    · rintro status rfl fuel
      exact ⟨_, exitsWith_of_fits (hfits status rfl).1 (hfits status rfl).2, run_exit _ _ _⟩

/-- The request for a negative status goes to device 255. -/
theorem not_faithful_negative : ¬ Faithful (.poweroff (-1)) := fun h =>
  absurd (fits_of_faithful h).1 (by decide)

end Mlonmcu.Htif
