import Mlonmcu.McEliece.Keypair

/-! The cycle counts of the key generation over its attempts. -/

namespace Mlonmcu.McEliece

open CLib

/-- The growth of a count from a profile to a later one. -/
def Profile.growth (p q : Profile) (cy : KeygenCount) : UInt64 :=
  (q.count cy).totalCycleCount - (p.count cy).totalCycleCount

/-- The counts that are measured in attempts that are rejected. -/
def rejectedCounts (rejected : List (Calls × Failure)) : List KeygenCount :=
  rejected.flatMap fun attempt => Failure.counts (some attempt.2)

/-- The counts account for the laps of the attempts of a call. -/
structure Accounts (cycles : Nat → Nat) (counts : List KeygenCount) (p q : Profile)
    (laps : List (Lap KeygenCount)) : Prop where
  watches : laps.map Lap.watch = counts
  ticks : q.ticks = p.ticks ++ (.start .cycle (cycles p.readings) ::
    laps.flatMap Lap.ticks ++ [.stop .cycle (cycles (q.readings - 1))])
  paired : Paired (.start .cycle (cycles p.readings) ::
    laps.flatMap Lap.ticks ++ [.stop .cycle (cycles (q.readings - 1))])
  within : Within (cycles p.readings) laps (cycles (q.readings - 1))
  total : (p.growth q .cycle).toNat = cycles (q.readings - 1) - cycles p.readings
  share : ∀ cy, cy ≠ .cycle → (p.growth q cy).toNat = lapTime cy laps
  sum : (p.growth q .skGen).toNat + (p.growth q .pkGen).toNat +
    (p.growth q .controlBits).toNat ≤ (p.growth q .cycle).toNat

section

variable {cycles : Nat → Nat} {p : Profile}

theorem measured_measure (hmono : Monotone cycles) (p : Profile) (counts : List KeygenCount) :
    ∃ laps, laps.map Lap.watch = counts ∧ Measured cycles p (p.measure cycles counts) laps := by
  induction counts generalizing p with
  | nil => exact ⟨[], rfl, .refl p⟩
  | cons cy counts ih =>
    obtain ⟨laps, hwatches, hlaps⟩ := ih ((p.started cycles cy).ended cycles cy)
    exact ⟨lap hmono p cy :: laps, congrArg (cy :: ·) hwatches,
      (measured_lap hmono p cy).trans hlaps⟩

theorem measure_append (p : Profile) (counts counts' : List KeygenCount) :
    p.measure cycles (counts ++ counts') = (p.measure cycles counts).measure cycles counts' :=
  List.foldl_append

theorem profile_afterAll (s : Keygen) (rejected : List (Calls × Failure)) :
    (s.afterAll cycles rejected).profile =
      s.profile.measure cycles (rejectedCounts rejected) := by
  induction rejected generalizing s with
  | nil => rfl
  | cons attempt rejected ih =>
    rw [rejectedCounts, List.flatMap_cons, measure_append, ← profile_after]
    exact ih _

/-- The laps inside of a measurement of the whole call. -/
theorem accounts_of_measured {counts : List KeygenCount} {laps : List (Lap KeygenCount)}
    {q : Profile} (hwatches : laps.map Lap.watch = counts) (hne : .cycle ∉ counts)
    (h : Measured cycles (p.started cycles .cycle) q laps) (hmono : Monotone cycles)
    (helapsed : cycles q.readings - cycles p.readings < 2 ^ 64) :
    Accounts cycles counts p (q.ended cycles .cycle) laps := by
  have hwithin : Within (cycles p.readings) laps (cycles q.readings) :=
    h.within.mono (hmono (Nat.le_succ _))
  have hsum := hwithin.sum_le
  have htotal : (p.growth (q.ended cycles .cycle) .cycle).toNat =
      cycles q.readings - cycles p.readings := by
    have hcount : q.count .cycle = (p.started cycles .cycle).count .cycle :=
      h.other .cycle (hwatches ▸ hne)
    have hgrowth : p.growth (q.ended cycles .cycle) .cycle =
        UInt64.ofNat (cycles q.readings) - UInt64.ofNat (cycles p.readings) := by
      simp only [Profile.growth, Profile.ended, Function.update_self, hcount, Profile.started]
      rw [UInt64.add_comm, UInt64.add_sub_cancel]
    rw [hgrowth, ← UInt64.ofNat_sub (by omega)]
    exact UInt64.toNat_ofNat_of_lt' helapsed
  have hshare (cy : KeygenCount) (hcy : cy ≠ .cycle) :
      (p.growth (q.ended cycles .cycle) cy).toNat = lapTime cy laps := by
    have htime := sum_lapTime_le {cy} laps
    rw [Finset.sum_singleton] at htime
    have hgrowth : p.growth (q.ended cycles .cycle) cy = UInt64.ofNat (lapTime cy laps) := by
      simp only [Profile.growth, Profile.ended, Function.update_of_ne hcy, h.total, Profile.started]
      rw [UInt64.add_comm, UInt64.add_sub_cancel]
    have hlt : lapTime cy laps < 2 ^ 64 := by omega
    rw [hgrowth]
    exact UInt64.toNat_ofNat_of_lt' hlt
  have hshares := sum_lapTime_le {.skGen, .pkGen, .controlBits} laps
  rw [Finset.sum_insert (by decide), Finset.sum_pair (by decide)] at hshares
  refine ⟨hwatches, ?_, ?_, hwithin, htotal, hshare, ?_⟩
  · simp [Profile.ended, h.ticks, Profile.started]
  · refine (paired_laps laps).enclose (fun u hu => hne ?_) _ _
    exact hwatches ▸ watch_mem_of_stop hu
  · rw [htotal, hshare _ (by decide), hshare _ (by decide), hshare _ (by decide)]
    omega

/-- The counts are balanced over attempts that are rejected, and account for the cycles of a call
that returns. -/
theorem keygen_accounts (hmono : Monotone cycles) (random : Memory)
    (rejected : List (Calls × Failure)) (s : Keygen) :
    (∃ t ticks, (cryptoKemKeypair cycles random (rejections rejected)).run s = (.timeout, t) ∧
      t.profile.ticks = s.profile.ticks ++ ticks ∧ Paired ticks) ∧
    ∀ accepted, ∃ t,
      (cryptoKemKeypair cycles random (attempts rejected accepted)).run s = (.done 0, t) ∧
      (cycles (t.profile.readings - 1) - cycles s.profile.readings < 2 ^ 64 → ∃ laps,
        Accounts cycles (rejectedCounts rejected ++ Failure.counts none) s.profile t.profile
          laps) := by
  have hne : .cycle ∉ rejectedCounts rejected := by
    intro hmem
    obtain ⟨⟨calls, failure⟩, -, hcount⟩ := List.mem_flatMap.mp hmem
    cases failure <;> simp [Failure.counts] at hcount
  have hrejected : ((s.entered cycles random).afterAll cycles rejected).profile =
      (s.profile.started cycles .cycle).measure cycles (rejectedCounts rejected) :=
    profile_afterAll _ _
  constructor
  · obtain ⟨laps, hwatches, hlaps⟩ := measured_measure hmono
      (s.profile.started cycles .cycle) (rejectedCounts rejected)
    refine ⟨_, .start .cycle (cycles s.profile.readings) :: laps.flatMap Lap.ticks,
      run_cryptoKemKeypair_rejections cycles random rejected s, ?_, ?_⟩
    · rw [hrejected, hlaps.ticks, Profile.started, List.append_assoc]
      rfl
    · refine ((paired_laps laps).enclose (fun u hu => hne ?_) _ 0).of_append
      exact hwatches ▸ watch_mem_of_stop hu
  · intro accepted
    obtain ⟨laps, hwatches, hlaps⟩ := measured_measure hmono
      (s.profile.started cycles .cycle) (rejectedCounts rejected ++ Failure.counts none)
    have hprofile : ((((s.entered cycles random).afterAll cycles rejected).after cycles accepted
        none).left cycles).profile = ((s.profile.started cycles .cycle).measure cycles
          (rejectedCounts rejected ++ Failure.counts none)).ended cycles .cycle := by
      rw [measure_append, Keygen.left, profile_after, hrejected]
    refine ⟨_, run_cryptoKemKeypair cycles random rejected accepted s, fun helapsed => ⟨laps, ?_⟩⟩
    rw [hprofile] at helapsed ⊢
    refine accounts_of_measured hwatches (fun hmem => ?_) hlaps hmono helapsed
    exact (List.mem_append.mp hmem).elim hne (by decide)

end

/-- Calls that compute zeros. -/
def Calls.zero : Calls where
  shake _ _ := 0
  genpolyGen _ _ := 0
  pkGen _ _ := ⟨fun _ _ => 0, fun _ => 0⟩
  controlBit _ _ := 0
  retries := 0

theorem keygen_accounts_two : ∃ t laps,
    (cryptoKemKeypair (min 1000) (fun _ => 0)
      (attempts [(.zero, .genpolyGen), (.zero, .pkGen)] .zero)).run .start = (.done 0, t) ∧
    Accounts (min 1000) [.skGen, .skGen, .pkGen, .skGen, .pkGen, .controlBits]
      Keygen.start.profile t.profile laps := by
  have hmono : Monotone (min 1000) := fun _ _ h => min_le_min_left 1000 h
  obtain ⟨t, hrun, haccounts⟩ := (keygen_accounts hmono (fun _ => 0)
    [(.zero, .genpolyGen), (.zero, .pkGen)] .start).2 .zero
  have hmin := Nat.min_le_left 1000 (t.profile.readings - 1)
  obtain ⟨laps, hlaps⟩ := haccounts (by omega)
  exact ⟨t, laps, hrun, hlaps⟩

end Mlonmcu.McEliece
