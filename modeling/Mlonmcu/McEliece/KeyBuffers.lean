import Mlonmcu.McEliece.Keypair
import Mlonmcu.McEliece.Randombytes

/-! Whether the bytes that `crypto_kem_keypair` stores lie in the arrays `pk` and `sk` of
`mceliece_keypair.c`. -/

namespace Mlonmcu.McEliece

open CLib

/-- A call of `mlonmcu_run` stores through `pk` and `sk` only to the arrays. -/
def StoresInside (cycles : Nat → Nat) (random : Memory) (rejected : List (Calls × Failure))
    (accepted : Calls) (s : Keygen) : Prop :=
  ∃ t, (mlonmcuRun cycles random (attempts rejected accepted)).run s = (.done 0, t) ∧
    s.pk.StoredIn t.pk 0 sizeofPk ∧ s.sk.StoredIn t.sk 0 sizeofSk

/-! ### Stores -/

theorem storedIn_storeI (out : Nat) (x : UInt64) (i : Nat) (c : Cells) :
    c.StoredIn (storeI out x i c) out (out + i) := by
  have h := Cells.storedIn_write c out
    ((List.range i).map fun j => (x >>> UInt64.ofNat (j * 8) &&& 0xFF).toUInt8)
  rwa [List.length_map, List.length_range] at h

theorem storedIn_storeGf (dest : Nat) (a : Gf) (c : Cells) :
    c.StoredIn (storeGf dest a c) dest (dest + 2) := Cells.storedIn_write _ _ _

theorem storedIn_storeRow (oneRow : Nat → Nat → UInt64) (c : Cells) (pk row : Nat) :
    c.StoredIn (storeRow oneRow (c, pk) row).1 pk (pk + pkRowBytes) ∧
      (storeRow oneRow (c, pk) row).2 = pk + pkRowBytes := by
  have hwidth : pkRowBytes = 8 * (nblocksH - 1 - nblocksI) + pkRowBytes % 8 := rfl
  obtain ⟨hwords, hp⟩ := Cells.storedIn_foldl (storeRowWord (oneRow row))
    (fun c pk k => ⟨storedIn_storeI pk (oneRow row k) 8 c, rfl⟩)
    (List.range' nblocksI (nblocksH - 1 - nblocksI)) c pk
  rw [List.length_range'] at hwords hp
  obtain ⟨c', hc'⟩ : ∃ c', (List.range' nblocksI (nblocksH - 1 - nblocksI)).foldl
      (storeRowWord (oneRow row)) (c, pk) = (c', pk + 8 * (nblocksH - 1 - nblocksI)) :=
    ⟨_, Prod.ext rfl hp⟩
  rw [hc'] at hwords
  have hlast := storedIn_storeI (pk + 8 * (nblocksH - 1 - nblocksI))
    (oneRow row (nblocksH - 1)) (pkRowBytes % 8) c'
  rw [Nat.add_assoc, ← hwidth] at hlast
  rw [storeRow, hc']
  refine ⟨(hwords.mono (Nat.le_refl _) ?_).trans (hlast.mono (Nat.le_add_right _ _)
    (Nat.le_refl _)), ?_⟩
  · omega
  · exact (Nat.add_assoc ..).trans (congrArg (pk + ·) hwidth.symm)

theorem storedIn_storeRows (oneRow : Nat → Nat → UInt64) (c : Cells) :
    c.StoredIn (storeRows oneRow c) 0 sizeofPk := by
  have h := (Cells.storedIn_foldl (storeRow oneRow) (storedIn_storeRow oneRow)
    (List.range pkNrows) c 0).1
  rw [List.length_range, Nat.zero_add, Nat.mul_comm] at h
  rw [storeRows, sizeofPk]
  exact h

theorem storedIn_irr (irr : Nat → Gf) (c : Cells) :
    c.StoredIn ((List.range sysT).foldl (fun c i => storeGf (32 + 8 + i * 2) (irr i) c) c) 0
      (32 + 8 + irrBytes) := by
  refine Cells.storedIn_rounds (fun i hi c => ?_) c
  have hlt : i < 64 := List.mem_range.mp hi
  have hbytes : irrBytes = 128 := rfl
  exact (storedIn_storeGf _ _ c).mono (Nat.zero_le _) (by omega)

theorem storedIn_seed (seed : Memory) (c : Cells) :
    c.StoredIn (c.write 0 ((seed.drop 1).load 32)) 0 (32 + 8 + irrBytes) := by
  have h := Cells.storedIn_write c 0 ((seed.drop 1).load 32)
  rw [Memory.length_load] at h
  exact h.mono (Nat.le_refl _) (by decide)

section

variable (cycles : Nat → Nat) (s : Keygen) (calls : Calls)

/-- An attempt that is rejected stores the bytes of the seed, and may store those of the Goppa
polynomial. -/
theorem storedIn_rejected (failure : Failure) :
    (s.after cycles calls (some failure)).pk = s.pk ∧
      s.sk.StoredIn (s.after cycles calls (some failure)).sk 0 (32 + 8 + irrBytes) := by
  cases failure with
  | genpolyGen => exact ⟨rfl, storedIn_seed s.seed s.sk⟩
  | pkGen => exact ⟨rfl, (storedIn_seed s.seed s.sk).trans (storedIn_irr _ _)⟩

theorem storedIn_skWithIrr (r : Memory) :
    s.sk.StoredIn (s.skWithIrr calls r) 0 (32 + 8 + irrBytes) :=
  (storedIn_seed s.seed s.sk).trans (storedIn_irr _ _)

/-- An attempt that is accepted stores the random string behind the control bits. -/
theorem storedIn_accepted : s.pk.StoredIn (s.after cycles calls none).pk 0 sizeofPk ∧
    ∃ c bytes, bytes.length = sysN / 8 ∧
      s.sk.StoredIn c 0 (32 + 8 + irrBytes + condBytes) ∧
      (s.after cycles calls none).sk =
        store8 32 0xFFFFFFFF (c.write (32 + 8 + irrBytes + condBytes) bytes) := by
  obtain ⟨r, bytes, hlength, hpk, hsk⟩ := keys_after cycles calls s
  rw [hpk]
  refine ⟨storedIn_storeRows _ _, _, bytes, hlength, ?_, hsk⟩
  have hcontrol := storedIn_storeControlbits (32 + 8 + irrBytes)
    (calls.controlBit (s.matrix calls r).pi) (show 0 < gfbits by decide) calls.retries
    (s.skWithIrr calls r)
  exact ((storedIn_skWithIrr s calls r).mono (Nat.le_refl _) (Nat.le_add_right _ _)).trans
    (hcontrol.mono (Nat.zero_le _) (by decide))

/-- Any number of attempts that are rejected store only to the arrays. -/
theorem storedIn_afterAll (rejected : List (Calls × Failure)) :
    s.pk.StoredIn (s.afterAll cycles rejected).pk 0 sizeofPk ∧
      s.sk.StoredIn (s.afterAll cycles rejected).sk 0 (32 + 8 + irrBytes) := by
  induction rejected generalizing s with
  | nil => exact ⟨.refl _ _ _, .refl _ _ _⟩
  | cons attempt rejected ih =>
    obtain ⟨hpk, hsk⟩ := storedIn_rejected cycles s attempt.1 attempt.2
    obtain ⟨hpk', hsk'⟩ := ih (s.after cycles attempt.1 (some attempt.2))
    rw [hpk] at hpk'
    exact ⟨hpk', hsk.trans hsk'⟩

end

/-! ### Calls -/

section

variable (cycles : Nat → Nat) (random : Memory) (rejected : List (Calls × Failure))
  (accepted : Calls) (s : Keygen)

/-- The stores through `pk` stay in the array, and those through `sk` go 8 bytes beyond it. -/
theorem stores_mlonmcuRun : ∃ t,
    (mlonmcuRun cycles random (attempts rejected accepted)).run s = (.done 0, t) ∧
      s.pk.StoredIn t.pk 0 sizeofPk ∧ ∀ b, s.sk.StoredIn t.sk 0 b ↔ sizeofSk + 8 ≤ b := by
  refine ⟨_, run_mlonmcuRun cycles random rejected accepted s, ?_⟩
  obtain ⟨hpk, hsk⟩ := storedIn_afterAll cycles (s.entered cycles random) rejected
  obtain ⟨hpk', c, bytes, hlength, hc, hlast⟩ :=
    storedIn_accepted cycles ((s.entered cycles random).afterAll cycles rejected) accepted
  rw [Keygen.entered_pk] at hpk
  rw [Keygen.entered_sk] at hsk
  rw [Keygen.left_pk, Keygen.left_sk]
  refine ⟨hpk.trans hpk', fun b => ?_⟩
  have hend : 32 + 8 + irrBytes + condBytes + sysN / 8 = sizeofSk + 8 := by decide
  have hbefore : s.sk.StoredIn c 0 (32 + 8 + irrBytes + condBytes) :=
    (hsk.mono (Nat.le_refl _) (Nat.le_add_right _ _)).trans hc
  have hpivots := storedIn_storeI 32 0xFFFFFFFF 8 (c.write (32 + 8 + irrBytes + condBytes) bytes)
  rw [hlast, store8]
  constructor
  · intro h
    have hlargest := h.of_write hbefore hpivots (sizeofSk + 7)
      (List.mem_range'_1.mpr (by rw [hlength]; decide))
    omega
  · intro hb
    have hstring := Cells.storedIn_write c (32 + 8 + irrBytes + condBytes) bytes
    rw [hlength, hend] at hstring
    refine ((hbefore.mono (Nat.le_refl _) ?_).trans
      (hstring.mono (Nat.zero_le _) hb)).trans (hpivots.mono (Nat.zero_le _) ?_)
    · exact Nat.le_trans (by decide) hb
    · exact Nat.le_trans (by decide) hb

theorem le_of_stores {b : Nat} {t : Keygen}
    (hrun : (mlonmcuRun cycles random (attempts rejected accepted)).run s = (.done 0, t))
    (hsk : s.sk.StoredIn t.sk 0 b) : sizeofSk + 8 ≤ b := by
  obtain ⟨t', hrun', -, hstores⟩ := stores_mlonmcuRun cycles random rejected accepted s
  obtain ⟨-, rfl⟩ := Prod.mk.inj (hrun.symm.trans hrun')
  exact (hstores b).mp hsk

/-- No call stores only to the arrays: the last 8 bytes of the random string lie behind `sk`. -/
theorem not_storesInside : ¬ StoresInside cycles random rejected accepted s := by
  rintro ⟨t, hrun, -, hsk⟩
  have hle := le_of_stores cycles random rejected accepted s hrun hsk
  omega

end

/-- The first call, whatever its attempts compute, with the default seed of `randombytes`. -/
theorem not_storesInside_default : ¬ ∃ rejected accepted, StoresInside (fun _ => 0)
    (fun i => (outputBytes 88172645463325252 32).getD i 0) rejected accepted .start := by
  rintro ⟨rejected, accepted, t, hrun, -, hsk⟩
  have hle := le_of_stores _ _ rejected accepted _ hrun hsk
  omega

end Mlonmcu.McEliece
