import Mlonmcu.CLib.Network
import Mlonmcu.McEliece.Controlbits
import Mlonmcu.McEliece.KeySort

/-! The arrays of `cbrecursion`: the bits that it computes from a permutation are the control bits
of the permutation.  `A`, `B` and `q` are parts of `temp`; the call for a half of the places has the
first half of `temp`, which `q` is not in. -/

namespace Mlonmcu.McEliece.NassimiSahni

open CLib Equiv Equiv.Perm

/-- The least places after one step, as `(p << 16) + c` in `B`, and `A = (id << 16) + p^2`, where `p`
is `pibar`. -/
def firstPlaces (pi : Nat → BitVec 16) (n : Nat) : (Nat → BitVec 32) × (Nat → BitVec 32) :=
  let A := fun x => ((pi x).signExtend 32 ^^^ 1) <<< 16 ||| (pi (x ^^^ 1)).signExtend 32
  let A := int32Sort A n
  let B := fun x =>
    let Ax := A x
    let px := Ax &&& 0xffff
    let cx := int32Min px (BitVec.ofNat 32 x)
    px <<< 16 ||| cx
  let A := fun x => A x <<< 16 ||| BitVec.ofNat 32 x
  let A := int32Sort A n
  let A := fun x => A x <<< 16 + (B x).sshiftRight 16
  let A := int32Sort A n
  (A, B)

/-- The body of the loop over `i` for `w <= 10`, where `B = (p << 10) + c`. -/
def smallRound (n : Nat) (B : Nat → BitVec 32) : Nat → BitVec 32 :=
  let A := fun x => (B x &&& ~~~0x3ff) <<< 6 ||| BitVec.ofNat 32 x
  let A := int32Sort A n
  let A := fun x => A x <<< 20 ||| B x
  let A := int32Sort A n
  fun x =>
    let ppcpx := A x &&& 0xfffff
    let ppcx := (A x &&& 0xffc00) ||| (B x &&& 0x3ff)
    int32Min ppcx ppcpx

/-- The body of the loop over `i` for the other `w`, where `B = (p << 16) + c`. -/
def largeRound (w n : Nat) (B : Nat → BitVec 32) (i : Nat) : Nat → BitVec 32 :=
  let A := fun x => (B x &&& ~~~0xffff) ||| BitVec.ofNat 32 x
  let A := int32Sort A n
  let A := fun x => A x <<< 16 ||| (B x &&& 0xffff)
  let B :=
    if i < w - 2 then
      let B := fun x => (A x &&& ~~~0xffff) ||| (B x).sshiftRight 16
      let B := int32Sort B n
      fun x => B x <<< 16 ||| (A x &&& 0xffff)
    else B
  let A := int32Sort A n
  fun x =>
    let cpx := (B x &&& ~~~0xffff) ||| (A x &&& 0xffff)
    int32Min (B x) cpx

/-- The least places of the cycles, which are in `B` before the bits are stored. -/
def leastPlaces (pi : Nat → BitVec 16) (w n : Nat) : Nat → BitVec 32 :=
  let (A, B) := firstPlaces pi n
  if w ≤ 10 then
    let B := fun x => (A x &&& 0xffff) <<< 10 ||| (B x &&& 0x3ff)
    let B := (List.range' 1 (w - 2)).foldl (fun B _ => smallRound n B) B
    fun x => B x &&& 0x3ff
  else
    let B := fun x => A x <<< 16 ||| (B x &&& 0xffff)
    let B := (List.range' 1 (w - 2)).foldl (largeRound w n) B
    fun x => B x &&& 0xffff

/-- `F[x]` and `L[x]`, where the low bits of the words at even places tell which pairs to
exchange. -/
def switched (B : Nat → BitVec 32) (x : Nat) : BitVec 32 :=
  let y := 2 * (x / 2)
  let f := B y &&& 1
  let Fy := BitVec.ofNat 32 y + f
  if x % 2 = 0 then Fy else Fy ^^^ 1

/-- The stores of the loops over `j` and `k`, with the position after them. -/
def storeBits (out step : Nat) (B : Nat → BitVec 32) (m pos : Nat) (c : Cells) : Cells × Nat :=
  (List.range m).foldl (fun (c, pos) j =>
    (flipBit out pos (UInt8.ofNat (B (2 * j) &&& 1).toNat) c, pos + step)) (c, pos)

/-- `B = (id << 16) + F(pi)`, after the loop over `j`. -/
def outerImages (pi : Nat → BitVec 16) (w n : Nat) : Nat → BitVec 32 :=
  let B := leastPlaces pi w n
  let A := fun x => (pi x).signExtend 32 <<< 16 + BitVec.ofNat 32 x
  let A := int32Sort A n
  let B := fun x => A x <<< 16 ||| switched B x
  int32Sort B n

/-- `A = (id << 16) + M`, after the loop over `k`. -/
def middleImages (pi : Nat → BitVec 16) (w n : Nat) : Nat → BitVec 32 :=
  let B := outerImages pi w n
  let A := fun x => switched B x <<< 16 ||| (B x &&& 0xffff)
  int32Sort A n

/-- The permutations `q` and `q + n/2` of the halves. -/
def halves (pi : Nat → BitVec 16) (w n j : Nat) : BitVec 16 :=
  let A := middleImages pi w n
  if j < n / 2 then ((A (2 * j) &&& 0xffff).sshiftRight 1).truncate 16
  else ((A (2 * (j - n / 2) + 1) &&& 0xffff).sshiftRight 1).truncate 16

/-- `cbrecursion`. -/
def cbrecursion (out : Nat) : Nat → Nat → Nat → (Nat → BitVec 16) → Nat → Cells → Cells
  | 0, _, _, _, _, c => c
  | 1, pos, _, pi, _, c => flipBit out pos (UInt8.ofNat (pi 0).toNat) c
  | w + 2, pos, step, pi, n, c =>
    let (c, pos) := storeBits out step (leastPlaces pi (w + 2) n) (n / 2) pos c
    let pos := pos + (2 * (w + 2) - 3) * step * (n / 2)
    let (c, pos) := storeBits out step (outerImages pi (w + 2) n) (n / 2) pos c
    let pos := pos - (2 * (w + 2) - 2) * step * (n / 2)
    let q := halves pi (w + 2) n
    let c := cbrecursion out (w + 1) pos (step * 2) q (n / 2) c
    cbrecursion out (w + 1) (pos + step) (step * 2) (fun j => q (j + n / 2)) (n / 2) c

/-- An array of 16-bit words that holds a permutation. -/
def Holds (n : Nat) (pi : Nat → BitVec 16) (π : Perm Nat) : Prop := ∀ x < n, (pi x).toNat = π x

section

variable {n : Nat} {pi : Nat → BitVec 16} {π P : Perm Nat} {B : Nat → BitVec 32} {c : Nat → Nat}

/-! ### The least places -/

theorem xor_one_eq (x : Nat) : x ^^^ 1 = mate x := by
  rw [mate]
  split
  · case isTrue h => exact Nat.xor_one_of_even (Nat.even_iff.mpr h)
  · case isFalse h => exact Nat.xor_one_of_odd (Nat.odd_iff.mpr (by omega))

theorem mate_lt {x : Nat} (hn : n % 2 = 0) (hx : x < n) : mate x < n := by
  rw [mate]
  split <;> omega

/-- The exchange of all pairs of the places below `n`. -/
def matesBelow (n : Nat) : Perm Nat := swapPairs fun j => 2 * j < n

theorem below_matesBelow (hn : n % 2 = 0) : Below n (matesBelow n) :=
  below_swapPairs hn fun _ hj => decide_eq_false (by omega)

theorem matesBelow_apply {x : Nat} (hx : x < n) : matesBelow n x = mate x := by
  rw [matesBelow, swapPairs_apply, if_pos (decide_eq_true (by omega))]

theorem toNat_extended {a : BitVec 16} (ha : a.toNat < 2 ^ 14) :
    (a.signExtend 32).toNat = a.toNat := by
  have hmsb : a.msb = false := by
    rw [BitVec.msb_eq_false_iff_two_mul_lt]
    omega
  rw [BitVec.signExtend_eq_setWidth_of_msb_false hmsb, BitVec.toNat_setWidth_of_le (by decide)]

theorem toNat_index {x : Nat} (hx : x < 2 ^ 14) : (BitVec.ofNat 32 x).toNat = x := by
  rw [BitVec.toNat_ofNat, Nat.mod_eq_of_lt (by omega)]

theorem minUpTo_one (p : Perm Nat) (x : Nat) : minUpTo p 1 x = min (p x) x := by
  rw [minUpTo, Nat.min_comm]
  rfl

theorem minUpTo_lt {p : Perm Nat} (hp : Below n p) (i : Nat) {x : Nat} (hx : x < n) :
    minUpTo p i x < n := by
  obtain ⟨j, hj⟩ := exists_minUpTo (p := p) i x
  rw [hj]
  exact hp.pow_lt hx j

theorem below_two_pow {p : Perm Nat} (hp : Below n p) (i : Nat) : Below n (p ^ 2 ^ i) := by
  intro k hk
  have h := zpow_apply_eq_self_of_apply_eq_self (hp k hk) (2 ^ i : Nat)
  rwa [zpow_natCast] at h

theorem two_pow_apply (p : Perm Nat) (i x : Nat) :
    (p ^ 2 ^ (i + 1)) x = (p ^ 2 ^ i) ((p ^ 2 ^ i) x) := by
  rw [Nat.pow_succ, Nat.mul_two, pow_add, mul_apply]

theorem lt_word (hn : n ≤ 2 ^ 14) {σ : Perm Nat} (hσ : Below n σ) :
    ∀ x < n, σ x < 2 ^ 16 := fun x hx => by
  have h := hσ.lt hx
  omega

/-- `A = (id << 16) + pibar`, after the first sort. -/
theorem packed_pibar (hn : n ≤ 2 ^ 14) (heven : n % 2 = 0) (hπ : Below n π) (hpi : Holds n pi π) :
    Packed 16 n (int32Sort (fun x => ((pi x).signExtend 32 ^^^ 1) <<< 16 |||
      (pi (x ^^^ 1)).signExtend 32) n) id (around π) := by
  have hword (x : Nat) (hx : x < n) : ((pi x).signExtend 32).toNat = π x := by
    have h := hπ.lt hx
    rw [toNat_extended (by rw [hpi x hx]; omega), hpi x hx]
  have hpacked : Packed 16 n (fun x => ((pi x).signExtend 32 ^^^ 1) <<< 16 |||
      (pi (x ^^^ 1)).signExtend 32) (matesBelow n * π : Perm Nat) fun x => π (mate x) :=
      fun x hx => by
    have hlow := hπ.lt (mate_lt heven hx)
    have hhigh := mate_lt heven (hπ.lt hx)
    rw [toNat_shiftLeft_or (by decide) (by rw [xor_one_eq, hword _ (mate_lt heven hx)]; omega),
      xor_one_eq, hword _ (mate_lt heven hx), BitVec.toNat_xor, hword x hx, mul_apply,
      matesBelow_apply (hπ.lt hx), ← xor_one_eq (π x)]
    rw [← xor_one_eq (π x)] at hhigh
    change (π x ^^^ 1) % 2 ^ 16 * 2 ^ 16 + _ = _
    rw [Nat.mod_eq_of_lt (by omega)]
  refine (hpacked.sort ((below_matesBelow heven).mul hπ) (fun x hx => ?_) (by omega)).congr
    fun x hx => ?_
  · have h := hπ.lt (mate_lt heven hx)
    omega
  · rw [mul_inv_rev, mul_apply, show (matesBelow n)⁻¹ = matesBelow n from swapPairs_inv _,
      matesBelow_apply hx]
    rfl

theorem firstPlaces_spec (hn : n ≤ 2 ^ 14) (heven : n % 2 = 0) (hπ : Below n π)
    (hpi : Holds n pi π) :
    Packed 16 n (firstPlaces pi n).1 id (fun x => (around π ^ 2 ^ 1) x) ∧
      Packed 16 n (firstPlaces pi n).2 (around π) (minUpTo (around π) 1) := by
  obtain ⟨p, hp⟩ : ∃ p, around π = p := ⟨_, rfl⟩
  have hbelow : Below n p := hp ▸ hπ.around heven
  have hindex (x : Nat) (hx : x < n) : (BitVec.ofNat 32 x).toNat = x := toNat_index (by omega)
  have hA := packed_pibar hn heven hπ hpi
  rw [firstPlaces]
  rw [hp] at hA ⊢
  obtain ⟨A, hAeq⟩ : ∃ A, int32Sort (fun x => ((pi x).signExtend 32 ^^^ 1) <<< 16 |||
      (pi (x ^^^ 1)).signExtend 32) n = A := ⟨_, rfl⟩
  simp only [hAeq] at hA ⊢
  obtain ⟨B, hBeq⟩ : ∃ B, (fun x => (A x &&& 0xffff) <<< 16 |||
      int32Min (A x &&& 0xffff) (BitVec.ofNat 32 x)) = B := ⟨_, rfl⟩
  rw [hBeq]
  have hlow (x : Nat) (hx : x < n) : (A x &&& 0xffff).toNat = p x :=
    hA.low (by decide) (lt_word hn hbelow) hx
  have hB : Packed 16 n B p (minUpTo p 1) := fun x hx => by
    have hpx := hbelow.lt hx
    have hmin : (int32Min (A x &&& 0xffff) (BitVec.ofNat 32 x)).toNat = minUpTo p 1 x := by
      rw [toNat_int32Min (by rw [hlow x hx]; omega) (by rw [hindex x hx]; omega), hlow x hx,
        hindex x hx, minUpTo_one]
    have hlt := minUpTo_lt hbelow 1 hx
    rw [← hBeq, toNat_shiftLeft_or (by decide) (by rw [hmin]; omega), hmin, hlow x hx,
      Nat.mod_eq_of_lt (by omega)]
  have hinv := (hA.rekey (lt_word hn hbelow) hindex fun x hx => by omega).sort hbelow
    (fun x hx => by omega) (by omega)
  have hBhigh (x : Nat) (hx : x < n) : ((B x).sshiftRight 16).toNat = p x := by
    have hpx := hbelow.lt hx
    have hlt := minUpTo_lt hbelow 1 hx
    have hBx := hB x hx
    rw [toNat_sshiftRight_of_lt (by omega), hBx]
    omega
  refine ⟨?_, hB⟩
  have hkeyed : Packed 16 n (fun x => int32Sort (fun x => A x <<< 16 ||| BitVec.ofNat 32 x) n x
      <<< 16 + (B x).sshiftRight 16) (p⁻¹ : Perm Nat) p := fun x hx => by
    have hpx := hbelow.lt hx
    have hinvx := hbelow.inv.lt hx
    have hvalue : (int32Sort (fun x => A x <<< 16 ||| BitVec.ofNat 32 x) n x).toNat =
      x * 2 ^ 16 + p⁻¹ x := hinv x hx
    rw [toNat_shiftLeft_add (by decide) (by rw [hBhigh x hx]; omega), hvalue, hBhigh x hx]
    omega
  subst hBeq
  refine (hkeyed.sort hbelow.inv (lt_word hn hbelow) (by omega)).congr fun x hx => ?_
  rw [inv_inv, two_pow_apply]
  rfl

theorem smallRound_spec (hn : n ≤ 2 ^ 10) (hP : Below n P) (hc : ∀ x < n, c x < n)
    (hB : Packed 10 n B P c) :
    Packed 10 n (smallRound n B) (P * P : Perm Nat) fun x => min (c x) (c (P x)) := by
  have hlt (x : Nat) (hx : x < n) : P x < 2 ^ 10 ∧ c x < 2 ^ 10 :=
    ⟨(hP.lt hx).trans_le hn, (hc x hx).trans_le hn⟩
  obtain ⟨A, hA⟩ : ∃ A, int32Sort (fun x => (B x &&& ~~~0x3ff) <<< 6 ||| BitVec.ofNat 32 x) n = A :=
    ⟨_, rfl⟩
  have hinv : Packed 16 n A id (P⁻¹ : Perm Nat) := by
    have hpacked : Packed 16 n (fun x => (B x &&& ~~~0x3ff) <<< 6 ||| BitVec.ofNat 32 x) P id := by
      intro x hx
      obtain ⟨hPx, hcx⟩ := hlt x hx
      have hhigh : (B x &&& ~~~0x3ff).toNat = P x * 2 ^ 10 :=
        hB.high (by decide) (fun x hx => (hlt x hx).2) hx
      have hindex : (BitVec.ofNat 32 x).toNat = x := toNat_index (by omega)
      have hshift : ((B x &&& ~~~0x3ff) <<< 6).toNat = P x * 2 ^ 16 := by
        rw [toNat_shiftLeft_of_le (by decide), hhigh]
        omega
      rw [toNat_or_of_high hshift (by rw [hindex]; omega), hindex]
      rfl
    exact hA ▸ hpacked.sort hP (fun x hx => by rw [id]; omega) (by omega)
  have hpairs : Packed 20 n (int32Sort (fun x => A x <<< 20 ||| B x) n) id
      fun x => P (P x) * 2 ^ 10 + c (P x) := by
    have hpacked : Packed 20 n (fun x => A x <<< 20 ||| B x) (P⁻¹ : Perm Nat)
        fun x => P x * 2 ^ 10 + c x := by
      intro x hx
      obtain ⟨hPx, hcx⟩ := hlt x hx
      have hinvx := hP.inv.lt hx
      have hvalue : (A x).toNat = x * 2 ^ 16 + P⁻¹ x := hinv x hx
      rw [toNat_shiftLeft_or (by decide) (by rw [hB x hx]; omega), hvalue, hB x hx]
      change _ = P⁻¹ x * 2 ^ 20 + (P x * 2 ^ 10 + c x)
      omega
    refine (hpacked.sort hP.inv (fun x hx => ?_) (by omega)).congr fun x _ => by rw [inv_inv]
    obtain ⟨hPx, hcx⟩ := hlt x hx
    omega
  intro x hx
  obtain ⟨hPP, hcP⟩ := hlt (P x) (hP.lt hx)
  obtain ⟨-, hcx⟩ := hlt x hx
  rw [smallRound]
  simp only [hA]
  obtain ⟨A', hA'⟩ : ∃ A', int32Sort (fun x => A x <<< 20 ||| B x) n = A' := ⟨_, rfl⟩
  rw [hA'] at hpairs ⊢
  have hsecond : (A' x &&& 0xfffff).toNat = P (P x) * 2 ^ 10 + c (P x) :=
    hpairs.low (by decide) (fun x hx => by
      obtain ⟨hPP, hcP⟩ := hlt (P x) (hP.lt hx)
      omega) hx
  have hmask : (0xffc00 : BitVec 32) = 0xfffff &&& ~~~0x3ff := by decide
  have hfield : (A' x &&& 0xffc00).toNat = P (P x) * 2 ^ 10 := by
    have h : (A' x &&& 0xfffff &&& ~~~0x3ff).toNat = (A' x &&& 0xfffff).toNat / 2 ^ 10 * 2 ^ 10 :=
      toNat_and_high (s := 10) (by decide) _
    rw [hmask, ← BitVec.and_assoc, h, hsecond]
    omega
  have hlow : (B x &&& 0x3ff).toNat = c x := hB.low (by decide) (fun x hx => (hlt x hx).2) hx
  have hfirst : (A' x &&& 0xffc00 ||| B x &&& 0x3ff).toNat = P (P x) * 2 ^ 10 + c x := by
    rw [toNat_or_of_high hfield (by rw [hlow]; omega), hlow]
  rw [toNat_int32Min (by rw [hfirst]; omega) (by rw [hsecond]; omega), hfirst, hsecond,
    Nat.add_min_add_left, mul_apply]

theorem largeRound_spec {w i : Nat} (hn : n ≤ 2 ^ 14) (hP : Below n P) (hc : ∀ x < n, c x < n)
    (hB : Packed 16 n B P c) :
    ∃ Q : Perm Nat, Below n Q ∧
      Packed 16 n (largeRound w n B i) Q (fun x => min (c x) (c (P x))) ∧
      (i < w - 2 → Q = P * P) := by
  have hPw := lt_word hn hP
  have hcw (x : Nat) (hx : x < n) : c x < 2 ^ 16 := by
    have h := hc x hx
    omega
  obtain ⟨A, hA⟩ : ∃ A, int32Sort (fun x => B x &&& ~~~0xffff ||| BitVec.ofNat 32 x) n = A :=
    ⟨_, rfl⟩
  have hinv : Packed 16 n A id (P⁻¹ : Perm Nat) := by
    have hpacked : Packed 16 n (fun x => B x &&& ~~~0xffff ||| BitVec.ofNat 32 x) P id := by
      intro x hx
      have hhigh : (B x &&& ~~~0xffff).toNat = P x * 2 ^ 16 := hB.high (by decide) hcw hx
      have hindex : (BitVec.ofNat 32 x).toNat = x := toNat_index (by omega)
      rw [toNat_or_of_high hhigh (by rw [hindex]; omega), hindex]
      rfl
    exact hA ▸ hpacked.sort hP (fun x hx => by rw [id]; omega) (by omega)
  have hlow (x : Nat) (hx : x < n) : (B x &&& 0xffff).toNat = c x := hB.low (by decide) hcw hx
  have hkeyed : Packed 16 n (fun x => A x <<< 16 ||| B x &&& 0xffff) (P⁻¹ : Perm Nat) c :=
    hinv.rekey (lt_word hn hP.inv) hlow hcw
  obtain ⟨E, hE⟩ : ∃ E, int32Sort (fun x => A x <<< 16 ||| B x &&& 0xffff) n = E := ⟨_, rfl⟩
  have hmoved : Packed 16 n E id fun x => c (P x) :=
    hE ▸ (hkeyed.sort hP.inv hcw (by omega)).congr fun x _ => by rw [inv_inv]
  -- The last round has no use for the square.
  obtain ⟨D, hD⟩ : ∃ D, (if i < w - 2 then fun x => int32Sort (fun x =>
      (A x <<< 16 ||| B x &&& 0xffff) &&& ~~~0xffff ||| (B x).sshiftRight 16) n x <<< 16 |||
        (A x <<< 16 ||| B x &&& 0xffff) &&& 0xffff else B) = D := ⟨_, rfl⟩
  have hsquare : ∃ Q : Perm Nat, Below n Q ∧ Packed 16 n D Q c ∧ (i < w - 2 → Q = P * P) := by
    rw [← hD]
    split
    · case isTrue hi =>
      refine ⟨P * P, hP.mul hP, ?_, fun _ => rfl⟩
      have hpacked : Packed 16 n (fun x => (A x <<< 16 ||| B x &&& 0xffff) &&& ~~~0xffff |||
          (B x).sshiftRight 16) (P⁻¹ : Perm Nat) P := by
        intro x hx
        have hPx := hP.lt hx
        have hcx := hcw x hx
        have hBx := hB x hx
        have hhigh : ((A x <<< 16 ||| B x &&& 0xffff) &&& ~~~0xffff).toNat = P⁻¹ x * 2 ^ 16 :=
          hkeyed.high (by decide) hcw hx
        have hshift : ((B x).sshiftRight 16).toNat = P x := by
          rw [toNat_sshiftRight_of_lt (by omega), hBx]
          omega
        rw [toNat_or_of_high hhigh (by rw [hshift]; omega), hshift]
      exact ((hpacked.sort hP.inv hPw (by omega)).congr fun x _ => by rw [inv_inv]; rfl).rekey
        (lt_word hn (hP.mul hP)) (fun x hx => hkeyed.low (by decide) hcw hx) hcw
    · case isFalse hi => exact ⟨P, hP, hB, fun h => absurd h hi⟩
  obtain ⟨Q, hQ, hDQ, hQP⟩ := hsquare
  refine ⟨Q, hQ, fun x hx => ?_, hQP⟩
  have hQx := hQ.lt hx
  have hcx := hcw x hx
  have hcP := hcw (P x) (hP.lt hx)
  rw [largeRound]
  simp only [hA, hD, hE]
  have hhigh : (D x &&& ~~~0xffff).toNat = Q x * 2 ^ 16 := hDQ.high (by decide) hcw hx
  have hnext : (E x &&& 0xffff).toNat = c (P x) :=
    hmoved.low (by decide) (fun x hx => hcw (P x) (hP.lt hx)) hx
  have hsecond : (D x &&& ~~~0xffff ||| E x &&& 0xffff).toNat = Q x * 2 ^ 16 + c (P x) := by
    rw [toNat_or_of_high hhigh (by rw [hnext]; omega), hnext]
  have hDx := hDQ x hx
  rw [toNat_int32Min (by rw [hDx]; omega) (by rw [hsecond]; omega), hDx, hsecond,
    Nat.add_min_add_left]

theorem smallRounds_spec {p : Perm Nat} (hn : n ≤ 2 ^ 10) (hp : Below n p)
    (hB : Packed 10 n B (p ^ 2 ^ 1 : Perm Nat) (minUpTo p 1)) (k : Nat) :
    Packed 10 n ((List.range' 1 k).foldl (fun B _ => smallRound n B) B)
      (p ^ 2 ^ (k + 1) : Perm Nat) (minUpTo p (k + 1)) := by
  induction k with
  | zero => exact hB
  | succ k ih =>
    have hround := smallRound_spec hn (below_two_pow hp (k + 1))
      (fun _ hx => minUpTo_lt hp (k + 1) hx) ih
    rw [List.range'_1_concat, List.foldl_append, Nat.pow_succ 2 (k + 1), Nat.mul_two, pow_add]
    exact hround

/-- The square is computed in all rounds but the last one. -/
theorem largeRounds_spec {p : Perm Nat} {w : Nat} (hn : n ≤ 2 ^ 14) (hp : Below n p)
    (hB : Packed 16 n B (p ^ 2 ^ 1 : Perm Nat) (minUpTo p 1)) (k : Nat) (hk : k ≤ w - 2) :
    ∃ Q : Perm Nat, Below n Q ∧
      Packed 16 n ((List.range' 1 k).foldl (largeRound w n) B) Q (minUpTo p (k + 1)) ∧
      (k < w - 2 → Q = p ^ 2 ^ (k + 1)) := by
  induction k with
  | zero => exact ⟨p ^ 2 ^ 1, below_two_pow hp 1, hB, fun _ => rfl⟩
  | succ k ih =>
    obtain ⟨Q, hQ, hbefore, heq⟩ := ih (by omega)
    obtain ⟨Q', hQ', hround, hsquare⟩ := largeRound_spec (w := w) (i := 1 + k) hn hQ
      (fun _ hx => minUpTo_lt hp (k + 1) hx) hbefore
    rw [heq (by omega)] at hround hsquare
    refine ⟨Q', hQ', ?_, fun hlt => ?_⟩
    · rw [List.range'_1_concat, List.foldl_append]
      exact hround
    · rw [hsquare (by omega), ← pow_add, ← Nat.mul_two, ← Nat.pow_succ]

/-- `B` holds the least places of the cycles of `pibar`. -/
theorem leastPlaces_spec {v : Nat} (hn : n = 2 ^ (v + 2)) (hle : n ≤ 2 ^ 14) (hπ : Below n π)
    (hpi : Holds n pi π) {x : Nat} (hx : x < n) :
    (leastPlaces pi (v + 2) n x).toNat = cycleMin (around π) x := by
  have heven : n % 2 = 0 := by
    rw [hn, Nat.pow_succ]
    omega
  obtain ⟨hA, hB⟩ := firstPlaces_spec hle heven hπ hpi
  obtain ⟨p, hp⟩ : ∃ p, around π = p := ⟨_, rfl⟩
  have hbelow : Below n p := hp ▸ hπ.around heven
  have hleast : minUpTo p (v + 1) x = cycleMin p x := hp ▸ minUpTo_around hn hπ hx
  obtain ⟨⟨A, B⟩, hAB⟩ : ∃ AB, firstPlaces pi n = AB := ⟨_, rfl⟩
  rw [hAB, hp] at hA hB
  rw [hp, ← hleast, leastPlaces, hAB]
  have hsquare (x : Nat) (hx : x < n) : (A x &&& 0xffff).toNat = (p ^ 2 ^ 1) x :=
    hA.low (by decide) (lt_word hle (below_two_pow hbelow 1)) hx
  split
  · case isTrue hw =>
    have hsmall : n ≤ 2 ^ 10 := hn ▸ Nat.pow_le_pow_right (by decide) hw
    have hmin (x : Nat) (hx : x < n) : (B x &&& 0x3ff).toNat = minUpTo p 1 x := by
      have hlt := minUpTo_lt hbelow 1 hx
      have hBx := hB x hx
      have hlow : (B x &&& 0x3ff).toNat = (B x).toNat % 2 ^ 10 :=
        toNat_and_low (s := 10) (by decide) _
      rw [hlow, hBx]
      omega
    have hstart : Packed 10 n (fun x => (A x &&& 0xffff) <<< 10 ||| B x &&& 0x3ff)
        (p ^ 2 ^ 1 : Perm Nat) (minUpTo p 1) := fun x hx => by
      have hlt := minUpTo_lt hbelow 1 hx
      have hp2 := (below_two_pow hbelow 1).lt hx
      rw [toNat_shiftLeft_or (by decide) (by rw [hmin x hx]; omega), hmin x hx, hsquare x hx,
        Nat.mod_eq_of_lt (by omega)]
    exact (smallRounds_spec hsmall hbelow hstart v).low (by decide)
      (fun x hx => (minUpTo_lt hbelow (v + 1) hx).trans_le hsmall) hx
  · case isFalse hw =>
    have hmin (i x : Nat) (hx : x < n) : minUpTo p i x < 2 ^ 16 := by
      have hlt := minUpTo_lt hbelow i hx
      omega
    have hstart : Packed 16 n (fun x => A x <<< 16 ||| B x &&& 0xffff) (p ^ 2 ^ 1 : Perm Nat)
        (minUpTo p 1) :=
      hA.rekey (lt_word hle (below_two_pow hbelow 1))
        (fun x hx => hB.low (by decide) (hmin 1) hx) (hmin 1)
    obtain ⟨Q, -, hrounds, -⟩ := largeRounds_spec (w := v + 2) hle hbelow hstart v (Nat.le_refl v)
    exact hrounds.low (by decide) (hmin (v + 1)) hx

/-! ### The bits -/

theorem toNat_and_one (a : BitVec 32) : (a &&& 1).toNat = a.toNat % 2 :=
  toNat_and_low (s := 1) (by decide) a

theorem switched_eq {f : Nat → Bool} (hn : n ≤ 2 ^ 14) (heven : n % 2 = 0)
    (hB : ∀ j, 2 * j < n → (B (2 * j)).toNat % 2 = (f j).toNat) {x : Nat} (hx : x < n) :
    (switched B x).toNat = swapPairs f x := by
  have hbit := hB (x / 2) (by omega)
  have hsum : (BitVec.ofNat 32 (2 * (x / 2)) + (B (2 * (x / 2)) &&& 1)).toNat =
      2 * (x / 2) + (f (x / 2)).toNat := by
    have hle := Bool.toNat_le (f (x / 2))
    rw [BitVec.toNat_add, toNat_index (by omega), toNat_and_one, hbit, Nat.mod_eq_of_lt (by omega)]
  rw [switched, swapPairs_apply]
  split
  · rw [hsum]
    cases f (x / 2) <;>
      simp only [mate, Bool.toNat_true, Bool.toNat_false, Bool.false_eq_true, if_true, if_false]
    · omega
    · split <;> omega
  · rw [BitVec.toNat_xor, hsum]
    change (2 * (x / 2) + _) ^^^ 1 = _
    rw [xor_one_eq]
    cases f (x / 2) <;>
      simp only [mate, Bool.toNat_true, Bool.toNat_false, Bool.false_eq_true, if_true, if_false]
    · split <;> omega
    · split <;> omega

theorem outerImages_spec {v : Nat} (hn : n = 2 ^ (v + 2)) (hle : n ≤ 2 ^ 14) (hπ : Below n π)
    (hpi : Holds n pi π) :
    Packed 16 n (outerImages pi (v + 2) n) id fun x => outer π (π x) := by
  have heven : n % 2 = 0 := by
    rw [hn, Nat.pow_succ]
    omega
  have hword (x : Nat) (hx : x < n) : ((pi x).signExtend 32).toNat = π x := by
    have h := hπ.lt hx
    rw [toNat_extended (by rw [hpi x hx]; omega), hpi x hx]
  have hinv : Packed 16 n (int32Sort
      (fun x => (pi x).signExtend 32 <<< 16 + BitVec.ofNat 32 x) n) id (π⁻¹ : Perm Nat) := by
    have hpacked : Packed 16 n (fun x => (pi x).signExtend 32 <<< 16 + BitVec.ofNat 32 x) π id := by
      intro x hx
      have hπx := hπ.lt hx
      have hindex : (BitVec.ofNat 32 x).toNat = x := toNat_index (by omega)
      rw [toNat_shiftLeft_add (by decide) (by rw [hindex]; omega), hindex, hword x hx,
        Nat.mod_eq_of_lt (by omega)]
      rfl
    exact hpacked.sort hπ (fun x hx => by rw [id]; omega) (by omega)
  have hswitched (x : Nat) (hx : x < n) : (switched (leastPlaces pi (v + 2) n) x).toNat =
      outer π x := by
    refine switched_eq hle heven (fun j hj => ?_) hx
    rw [leastPlaces_spec hn hle hπ hpi hj]
    rcases Nat.mod_two_eq_zero_or_one (cycleMin (around π) (2 * j)) with h | h <;> simp [h]
  have hbelow := below_outer heven hπ
  have hkeyed := hinv.rekey (lt_word hle hπ.inv) hswitched (lt_word hle hbelow)
  exact (hkeyed.sort hπ.inv (lt_word hle hbelow) (by omega)).congr fun x _ => by rw [inv_inv]

theorem middleImages_spec {v : Nat} (hn : n = 2 ^ (v + 2)) (hle : n ≤ 2 ^ 14) (hπ : Below n π)
    (hpi : Holds n pi π) : Packed 16 n (middleImages pi (v + 2) n) id (middle π) := by
  have heven : n % 2 = 0 := by
    rw [hn, Nat.pow_succ]
    omega
  have hB := outerImages_spec hn hle hπ hpi
  have hinner := below_inner heven hπ
  have himages := lt_word hle ((below_outer heven hπ).mul hπ)
  have hswitched (x : Nat) (hx : x < n) : (switched (outerImages pi (v + 2) n) x).toNat =
      inner π x := by
    refine switched_eq hle heven (fun j hj => ?_) hx
    rw [hB _ hj]
    rcases Nat.mod_two_eq_zero_or_one (outer π (π (2 * j))) with h | h <;> simp [h] <;> omega
  have hpacked : Packed 16 n (fun x => switched (outerImages pi (v + 2) n) x <<< 16 |||
      outerImages pi (v + 2) n x &&& 0xffff) (inner π) fun x => outer π (π x) := by
    intro x hx
    have hlow : (outerImages pi (v + 2) n x &&& 0xffff).toNat = outer π (π x) :=
      hB.low (by decide) himages hx
    have hlt : outer π (π x) < 2 ^ 16 := himages x hx
    have hkey := hinner.lt hx
    rw [toNat_shiftLeft_or (by decide) (by rw [hlow]; exact hlt), hlow, hswitched x hx,
      Nat.mod_eq_of_lt (by omega)]
  exact hpacked.sort hinner himages (by omega)

theorem halves_spec {v : Nat} (hn : n = 2 ^ (v + 2)) (hle : n ≤ 2 ^ 14) (hπ : Below n π)
    (hpi : Holds n pi π) :
    Holds (n / 2) (halves pi (v + 2) n) (evenHalf (middle π) middle_mod) ∧
      Holds (n / 2) (fun j => halves pi (v + 2) n (j + n / 2)) (oddHalf (middle π) middle_mod) := by
  have heven : n % 2 = 0 := by
    rw [hn, Nat.pow_succ]
    omega
  have hbelow := below_middle heven hπ
  have hA := middleImages_spec hn hle hπ hpi
  have hhalf (x : Nat) (hx : x < n) : (((middleImages pi (v + 2) n x &&& 0xffff).sshiftRight
      1).truncate 16).toNat = middle π x / 2 := by
    have hlow : (middleImages pi (v + 2) n x &&& 0xffff).toNat = middle π x :=
      hA.low (by decide) (lt_word hle hbelow) hx
    have hlt := hbelow.lt hx
    rw [BitVec.truncate, BitVec.toNat_setWidth, toNat_sshiftRight_of_lt (by omega), hlow,
      Nat.mod_eq_of_lt (by omega), Nat.pow_one]
  refine ⟨fun j hj => ?_, fun j hj => ?_⟩
  · rw [halves, if_pos hj, hhalf _ (by omega), evenHalf_apply]
  · change (halves pi (v + 2) n (j + n / 2)).toNat = _
    rw [halves, if_neg (by omega), Nat.add_sub_cancel, hhalf _ (by omega), oddHalf_apply]

/-- The loops over `j` and `k` store the low bits of the words at even places. -/
theorem storeBits_eq {out step m pos : Nat} {bit : Nat → UInt8}
    (h : ∀ j < m, UInt8.ofNat (B (2 * j) &&& 1).toNat = bit (pos + step * j)) (c : Cells) :
    storeBits out step B m pos c = flipBits out bit step m pos c := by
  have hloop (m a : Nat) (h : ∀ j < m, UInt8.ofNat (B (2 * (a + j)) &&& 1).toNat =
      bit (pos + step * (a + j))) (c : Cells) :
      (List.range' a m).foldl (fun (c, pos) j =>
        (flipBit out pos (UInt8.ofNat (B (2 * j) &&& 1).toNat) c, pos + step)) (c, pos + step * a) =
      flipBits out bit step m (pos + step * a) c := by
    induction m generalizing a c with
    | zero => rfl
    | succ m ih =>
      have hfirst := h 0 (Nat.succ_pos m)
      rw [Nat.add_zero] at hfirst
      rw [List.range'_succ, List.foldl_cons, flipBits, hfirst]
      change (List.range' (a + 1) m).foldl _ (flipBit out (pos + step * a) (bit (pos + step * a)) c,
        pos + step * a + step) = _
      rw [Nat.add_assoc, ← Nat.mul_succ]
      refine ih (a + 1) (fun j hj => ?_) _
      have hnext := h (j + 1) (Nat.succ_lt_succ hj)
      rwa [show a + (j + 1) = a + 1 + j by omega] at hnext
  have hstart := hloop m 0 (fun j hj => by rw [Nat.zero_add]; exact h j hj) c
  rw [Nat.mul_zero, Nat.add_zero] at hstart
  rw [storeBits, List.range_eq_range']
  exact hstart

end

/-- The byte with a bit. -/
def bitByte (b : Bool) : UInt8 := UInt8.ofNat b.toNat

theorem bitByte_decide (k : Nat) :
    bitByte (decide (k % 2 = 1)) = UInt8.ofNat (k % 2) := by
  rcases Nat.mod_two_eq_zero_or_one k with h | h <;> rw [h] <;> rfl

/-- `cbrecursion` stores the control bits of the permutation. -/
theorem cbrecursion_stores {out w pos step : Nat} {bit : Nat → UInt8} {pi : Nat → BitVec 16}
    {π : Perm Nat} (hw : w ≤ 14) (hπ : Below (2 ^ w) π) (hpi : Holds (2 ^ w) pi π)
    (hbit : ∀ i < (2 * w - 1) * 2 ^ (w - 1), bit (pos + step * i) = bitByte (controlBit w π i))
    (c : Cells) : cbrecursion out w pos step pi (2 ^ w) c =
      storeCbrecursion out bit w pos step (2 ^ w) c := by
  induction w generalizing pos step pi π c with
  | zero => rfl
  | succ w ih =>
    cases w with
    | zero =>
      have hzero := hbit 0 (by decide)
      have hlt : π 0 < 2 := hπ.lt (by decide)
      rw [Nat.mul_zero, Nat.add_zero] at hzero
      rw [cbrecursion, storeCbrecursion, hzero, hpi 0 (by decide), controlBit]
      congr 1
      rcases show π 0 = 0 ∨ π 0 = 1 by omega with h | h <;> rw [h] <;> rfl
    | succ v =>
      obtain ⟨n, hn⟩ : ∃ n, 2 ^ (v + 2) = n := ⟨_, rfl⟩
      have hle : n ≤ 2 ^ 14 := hn ▸ Nat.pow_le_pow_right (by decide) hw
      have hhalf : n / 2 = 2 ^ (v + 1) := by
        rw [← hn, Nat.pow_succ, Nat.mul_div_cancel _ (by decide)]
      rw [show v + 1 + 1 = v + 2 from rfl, hn] at hπ hpi ⊢
      have hbit (i : Nat) (hi : i < (2 * v + 2) * 2 ^ (v + 1) + 2 ^ (v + 1)) :
          bit (pos + step * i) = bitByte (controlBit (v + 2) π i) := by
        refine hbit i (hi.trans_eq ?_)
        rw [Nat.add_sub_cancel, show 2 * (v + 1 + 1) - 1 = 2 * v + 3 by omega]
        ring
      have hhalves : (2 * v + 2) * 2 ^ (v + 1) = 2 ^ (v + 1) + 2 * ((2 * v + 1) * 2 ^ v) := by ring
      have hmid : pos + step * (n / 2) + (2 * (v + 2) - 3) * step * (n / 2) =
          pos + step * ((2 * v + 2) * (n / 2)) := by
        rw [show 2 * (v + 2) - 3 = 2 * v + 1 by omega]
        ring
      have hback : pos + step * ((2 * v + 2) * (n / 2)) + step * (n / 2) -
          (2 * (v + 2) - 2) * step * (n / 2) = pos + step * (n / 2) := by
        rw [show 2 * (v + 2) - 2 = 2 * v + 2 by omega, Nat.mul_assoc, Nat.mul_left_comm,
          Nat.add_comm pos, Nat.add_assoc, Nat.add_sub_cancel_left]
      have hfirst (c : Cells) : storeBits out step (leastPlaces pi (v + 2) n) (n / 2) pos c =
          flipBits out bit step (n / 2) pos c := by
        refine storeBits_eq (fun j hj => ?_) c
        rw [toNat_and_one, leastPlaces_spec hn.symm hle hπ hpi (by omega),
          hbit j (by omega), controlBit_outer (by omega), bitByte_decide]
      have hsecond (c : Cells) : storeBits out step (outerImages pi (v + 2) n) (n / 2)
          (pos + step * ((2 * v + 2) * (n / 2))) c =
            flipBits out bit step (n / 2) (pos + step * ((2 * v + 2) * (n / 2))) c := by
        refine storeBits_eq (fun j hj => ?_) c
        have himage : (outerImages pi (v + 2) n (2 * j)).toNat =
          2 * j * 2 ^ 16 + outer π (π (2 * j)) :=
          outerImages_spec hn.symm hle hπ hpi (2 * j) (by omega)
        rw [toNat_and_one, himage, Nat.add_assoc, ← Nat.mul_add, hhalf, hbit _ (by omega),
          controlBit_inner, bitByte_decide]
        congr 1
        omega
      have htwo : 2 * (n / 2) = n := by rw [hhalf, ← hn, ← Nat.pow_succ']
      obtain ⟨heven, hodd⟩ := halves_spec hn.symm hle hπ hpi
      obtain ⟨hbelowEven, hbelowOdd⟩ := below_halves (n := n / 2) middle_mod
        (htwo.symm ▸ below_middle (by omega) hπ)
      obtain ⟨c₁, c₂, hc₁, hc₂, heq⟩ := storeCbrecursion_eq out bit v pos step n c
      have hrun₁ : flipBits out bit step (n / 2) pos c = (c₁, pos + step * (n / 2)) :=
        Prod.ext hc₁.symm (flipBits_pos _ _ _ _)
      have hrun₂ : flipBits out bit step (n / 2) (pos + step * ((2 * v + 2) * (n / 2))) c₁ =
          (c₂, pos + step * ((2 * v + 2) * (n / 2)) + step * (n / 2)) :=
        Prod.ext hc₂.symm (flipBits_pos _ _ _ _)
      rw [heq, cbrecursion, hfirst, hrun₁]
      dsimp only
      rw [hmid, hsecond, hrun₂]
      dsimp only
      rw [hback]
      rw [hhalf] at heven hodd hbelowEven hbelowOdd ⊢
      rw [ih (by omega) hbelowEven heven fun i hi => ?_,
        ih (by omega) hbelowOdd hodd fun i hi => ?_]
      · rw [Nat.add_sub_cancel, show 2 * (v + 1) - 1 = 2 * v + 1 by omega] at hi
        have hpos : pos + step * 2 ^ (v + 1) + step + step * 2 * i =
            pos + step * (2 ^ (v + 1) + 2 * i + 1) := by ring
        rw [hpos, hbit _ (by omega), controlBit_odd hi]
      · rw [Nat.add_sub_cancel, show 2 * (v + 1) - 1 = 2 * v + 1 by omega] at hi
        have hpos : pos + step * 2 ^ (v + 1) + step * 2 * i =
            pos + step * (2 ^ (v + 1) + 2 * i) := by ring
        rw [hpos, hbit _ (by omega), controlBit_even hi]

end Mlonmcu.McEliece.NassimiSahni
