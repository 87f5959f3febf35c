import Mathlib.Tactic.Ring
import Mlonmcu.McEliece.Cells

/-! The stores of `controlbits.c`. -/

namespace Mlonmcu.McEliece

open CLib

/-- `out[pos>>3] ^= bit<<(pos&7)`. -/
def flipBit (out pos : Nat) (bit : UInt8) (c : Cells) : Cells :=
  c.put (out + pos / 8) (c.mem (out + pos / 8) ^^^ bit <<< UInt8.ofNat (pos % 8))

/-- The stores of a loop of `cbrecursion` over the positions that are left, with the position after
it. -/
def flipBits (out : Nat) (bit : Nat → UInt8) (step : Nat) : Nat → Nat → Cells → Cells × Nat
  | 0, pos, c => (c, pos)
  | n + 1, pos, c => flipBits out bit step n (pos + step) (flipBit out pos (bit pos) c)

/-- The stores of `cbrecursion`, whatever bits it computes: `bit` gives the one for a position. -/
def storeCbrecursion (out : Nat) (bit : Nat → UInt8) : Nat → Nat → Nat → Nat → Cells → Cells
  | 0, _, _, _, c => c
  | 1, pos, _, _, c => flipBit out pos (bit pos) c
  | w + 2, pos, step, n, c =>
    let (c, pos) := flipBits out bit step (n / 2) pos c
    let pos := pos + (2 * (w + 2) - 3) * step * (n / 2)
    let (c, pos) := flipBits out bit step (n / 2) pos c
    let pos := pos - (2 * (w + 2) - 2) * step * (n / 2)
    let c := storeCbrecursion out bit (w + 1) pos (step * 2) (n / 2) c
    storeCbrecursion out bit (w + 1) (pos + step) (step * 2) (n / 2) c

/-- The length of `memset` in `controlbitsfrompermutation`. -/
def controlBytes (w n : Nat) : Nat := ((2 * w - 1) * n / 2 + 7) / 8

/-- A round of the loop of `controlbitsfrompermutation`. -/
def controlbitsRound (out : Nat) (bit : Nat → UInt8) (w n : Nat) (c : Cells) : Cells :=
  storeCbrecursion out bit w 0 1 n (c.write out (List.replicate (controlBytes w n) 0))

/-- The stores of `controlbitsfrompermutation`, which repeats the round as often as its check fails.
-/
def storeControlbits (out : Nat) (bit : Nat → UInt8) (w n retries : Nat) (c : Cells) : Cells :=
  (controlbitsRound out bit w n)^[retries + 1] c

section

variable {out : Nat} {bit : Nat → UInt8} {bound : Nat}

theorem storedIn_flipBit {pos : Nat} (h : pos < bound) (x : UInt8) (c : Cells) :
    Cells.StoredIn c (flipBit out pos x c) out (out + (bound + 7) / 8) :=
  Cells.storedIn_put (by omega) (by omega) _

theorem flipBits_pos (step n pos : Nat) (c : Cells) :
    (flipBits out bit step n pos c).2 = pos + step * n := by
  induction n generalizing pos c with
  | zero => rfl
  | succ n ih => rw [flipBits, ih, Nat.mul_succ, Nat.add_assoc, Nat.add_comm step]

theorem storedIn_flipBits {step n pos : Nat} (h : ∀ i < n, pos + step * i < bound) (c : Cells) :
    Cells.StoredIn c (flipBits out bit step n pos c).1 out (out + (bound + 7) / 8) := by
  induction n generalizing pos c with
  | zero => exact Cells.StoredIn.refl c _ _
  | succ n ih =>
    refine (storedIn_flipBit (by simpa using h 0 (Nat.succ_pos n)) _ c).trans
      (ih (fun i hi => ?_) _)
    have hnext := h (i + 1) (Nat.succ_lt_succ hi)
    rw [Nat.mul_succ] at hnext
    omega

/-- The loops and the calls of `cbrecursion`, with the positions that they start at. -/
theorem storeCbrecursion_eq (out : Nat) (bit : Nat → UInt8) (w pos step n : Nat) (c : Cells) :
    ∃ c₁ c₂, c₁ = (flipBits out bit step (n / 2) pos c).1 ∧
      c₂ = (flipBits out bit step (n / 2) (pos + step * ((2 * w + 2) * (n / 2))) c₁).1 ∧
      storeCbrecursion out bit (w + 2) pos step n c =
        storeCbrecursion out bit (w + 1) (pos + step * (n / 2) + step) (step * 2) (n / 2)
          (storeCbrecursion out bit (w + 1) (pos + step * (n / 2)) (step * 2) (n / 2) c₂) := by
  have hmid : pos + step * (n / 2) + (2 * (w + 2) - 3) * step * (n / 2) =
      pos + step * ((2 * w + 2) * (n / 2)) := by
    rw [show 2 * (w + 2) - 3 = 2 * w + 1 by omega]
    ring
  have hback : pos + step * ((2 * w + 2) * (n / 2)) + step * (n / 2) -
      (2 * (w + 2) - 2) * step * (n / 2) = pos + step * (n / 2) := by
    rw [show 2 * (w + 2) - 2 = 2 * w + 2 by omega, Nat.mul_assoc, Nat.mul_left_comm,
      Nat.add_comm pos, Nat.add_assoc, Nat.add_sub_cancel_left]
  obtain ⟨c₁, hc₁⟩ : ∃ c₁, flipBits out bit step (n / 2) pos c = (c₁, pos + step * (n / 2)) :=
    ⟨_, Prod.ext rfl (flipBits_pos _ _ _ _)⟩
  obtain ⟨c₂, hc₂⟩ : ∃ c₂, flipBits out bit step (n / 2)
      (pos + step * ((2 * w + 2) * (n / 2))) c₁ =
        (c₂, pos + step * ((2 * w + 2) * (n / 2)) + step * (n / 2)) :=
    ⟨_, Prod.ext rfl (flipBits_pos _ _ _ _)⟩
  refine ⟨c₁, c₂, by rw [hc₁], by rw [hc₂], ?_⟩
  rw [storeCbrecursion, hc₁]
  dsimp only
  rw [hmid, hc₂]
  dsimp only
  rw [hback]

/-- The positions of the bits are `(2 * w - 1) * 2 ^ (w - 1)` steps. -/
theorem storedIn_storeCbrecursion {w pos step : Nat} (hw : 0 < w)
    (h : ∀ i < (2 * w - 1) * 2 ^ (w - 1), pos + step * i < bound) (c : Cells) :
    Cells.StoredIn c (storeCbrecursion out bit w pos step (2 ^ w) c) out
      (out + (bound + 7) / 8) := by
  induction w generalizing pos step c with
  | zero => exact absurd hw (Nat.lt_irrefl 0)
  | succ w ih =>
    cases w with
    | zero => exact storedIn_flipBit (by simpa using h 0 (by decide)) _ c
    | succ w =>
      obtain ⟨m, hm⟩ : ∃ m, 2 ^ w = m := ⟨_, rfl⟩
      have htwo : 2 ^ (w + 1) = 2 * m := by rw [pow_succ, hm, Nat.mul_comm]
      have hhalf : 2 ^ (w + 2) / 2 = 2 * m := by
        rw [pow_succ, Nat.mul_div_cancel _ (by decide), htwo]
      have hpos : 0 < m := hm ▸ Nat.two_pow_pos w
      have hsteps : (2 * (w + 2) - 1) * 2 ^ (w + 1) = 4 * (w * m) + 6 * m := by
        rw [htwo, show 2 * (w + 2) - 1 = 2 * w + 3 by omega]
        ring
      have hrest : (2 * (w + 1) - 1) * 2 ^ w = 2 * (w * m) + m := by
        rw [hm, show 2 * (w + 1) - 1 = 2 * w + 1 by omega]
        ring
      have hat (i x : Nat) (hi : i < 4 * (w * m) + 6 * m) (hx : x = pos + step * i) : x < bound :=
        hx ▸ h i (hsteps ▸ hi)
      obtain ⟨c₁, c₂, rfl, rfl, heq⟩ := storeCbrecursion_eq out bit w pos step (2 ^ (w + 2)) c
      rw [heq, hhalf, ← htwo]
      refine (((storedIn_flipBits (fun i hi => ?_) c).trans
        (storedIn_flipBits (fun i hi => ?_) _)).trans
        (ih (Nat.succ_pos w) (fun i hi => ?_) _)).trans (ih (Nat.succ_pos w) (fun i hi => ?_) _)
      · exact hat i _ (by omega) rfl
      · have hprod : (2 * w + 2) * (2 * m) = 4 * (w * m) + 4 * m := by ring
        refine hat ((2 * w + 2) * (2 * m) + i) _ (by omega) ?_
        rw [htwo]
        ring
      · rw [Nat.add_sub_cancel, hrest] at hi
        refine hat (2 * m + 2 * i) _ (by omega) ?_
        rw [htwo]
        ring
      · rw [Nat.add_sub_cancel, hrest] at hi
        refine hat (2 * m + 2 * i + 1) _ (by omega) ?_
        rw [htwo]
        ring

/-- `controlbitsfrompermutation` stores only to the bytes that it sets to 0. -/
theorem storedIn_storeControlbits (out : Nat) (bit : Nat → UInt8) {w : Nat} (hw : 0 < w)
    (retries : Nat) (c : Cells) :
    Cells.StoredIn c (storeControlbits out bit w (2 ^ w) retries c) out
      (out + controlBytes w (2 ^ w)) := by
  have hbits : (2 * w - 1) * 2 ^ w / 2 = (2 * w - 1) * 2 ^ (w - 1) := by
    obtain ⟨v, rfl⟩ : ∃ v, w = v + 1 := ⟨w - 1, by omega⟩
    rw [pow_succ, ← Nat.mul_assoc, Nat.mul_div_cancel _ (by decide), Nat.add_sub_cancel]
  have hround (c : Cells) : Cells.StoredIn c (controlbitsRound out bit w (2 ^ w) c) out
      (out + controlBytes w (2 ^ w)) := by
    have hset := Cells.storedIn_write c out (List.replicate (controlBytes w (2 ^ w)) 0)
    rw [List.length_replicate] at hset
    refine hset.trans ?_
    rw [controlbitsRound, controlBytes, hbits]
    exact storedIn_storeCbrecursion hw (fun i hi => by rw [Nat.zero_add, Nat.one_mul]; exact hi) _
  rw [storeControlbits]
  induction retries generalizing c with
  | zero => exact hround c
  | succ retries ih =>
    rw [Function.iterate_succ_apply]
    exact (hround c).trans (ih _)

end

end Mlonmcu.McEliece
