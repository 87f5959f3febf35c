import Mathlib.Algebra.BigOperators.Group.Finset.Piecewise
import Mathlib.Algebra.Ring.Nat

/-! Stopwatches: the laps that they measure one after the other, and the record of when they are
started and stopped. -/

namespace CLib

/-- A time that a stopwatch measures. -/
structure Lap (κ : Type) where
  watch : κ
  start : Nat
  stop : Nat
  le : start ≤ stop

inductive Tick (κ : Type)
  | start (watch : κ) (time : Nat)
  | stop (watch : κ) (time : Nat)
  deriving DecidableEq, Repr

variable {κ : Type}

/-- Each stop follows a start of its stopwatch, with no other stop of it in between. -/
def Paired (ticks : List (Tick κ)) : Prop :=
  ∀ before watch b after, ticks = before ++ .stop watch b :: after →
    ∃ earlier a between, before = earlier ++ .start watch a :: between ∧
      ∀ u, .stop watch u ∉ between

namespace Lap

def ticks (lap : Lap κ) : List (Tick κ) :=
  [.start lap.watch lap.start, .stop lap.watch lap.stop]

def duration (lap : Lap κ) : Nat := lap.stop - lap.start

end Lap

/-- Laps one after the other from one time to another. -/
def Within (a : Nat) : List (Lap κ) → Nat → Prop
  | [], b => a ≤ b
  | lap :: laps, b => a ≤ lap.start ∧ Within lap.stop laps b

theorem paired_laps (laps : List (Lap κ)) : Paired (laps.flatMap Lap.ticks) := by
  induction laps with
  | nil => exact fun before watch b after h => by simp at h
  | cons lap laps ih =>
    intro before watch b after h
    rw [List.flatMap_cons, Lap.ticks, List.cons_append, List.cons_append, List.nil_append] at h
    match before with
    | [] => simp at h
    | [tick] =>
      simp only [List.cons_append, List.nil_append, List.cons.injEq, Tick.stop.injEq] at h
      obtain ⟨rfl, ⟨rfl, -⟩, -⟩ := h
      exact ⟨[], lap.start, [], rfl, fun u => List.not_mem_nil⟩
    | tick :: tick' :: before =>
      simp only [List.cons_append, List.cons.injEq] at h
      obtain ⟨rfl, rfl, hrest⟩ := h
      obtain ⟨earlier, a, between, rfl, hbetween⟩ := ih before watch b after hrest
      exact ⟨_ :: _ :: earlier, a, between, rfl, hbetween⟩

theorem Paired.of_append {ticks later : List (Tick κ)} (h : Paired (ticks ++ later)) :
    Paired ticks := by
  rintro before watch b after rfl
  exact h before watch b (after ++ later) (List.append_assoc ..)

theorem watch_mem_of_stop {watch : κ} {u : Nat} {laps : List (Lap κ)}
    (h : .stop watch u ∈ laps.flatMap Lap.ticks) : watch ∈ laps.map Lap.watch := by
  obtain ⟨lap, hlap, htick⟩ := List.mem_flatMap.mp h
  simp only [Lap.ticks, List.mem_cons, reduceCtorEq, Tick.stop.injEq, List.not_mem_nil, or_false,
    false_or] at htick
  exact List.mem_map.mpr ⟨lap, hlap, htick.1.symm⟩

/-- A stopwatch that runs during the laps of others. -/
theorem Paired.enclose {ticks : List (Tick κ)} (h : Paired ticks) {watch : κ}
    (hne : ∀ u, .stop watch u ∉ ticks) (a b : Nat) :
    Paired (.start watch a :: ticks ++ [.stop watch b]) := by
  intro before watch' b' after heq
  obtain ⟨tick, before, rfl⟩ : ∃ tick rest, before = tick :: rest :=
    List.exists_cons_of_ne_nil (by rintro rfl; simp at heq)
  rw [List.cons_append, List.cons_append, List.cons.injEq] at heq
  obtain ⟨rfl, heq⟩ := heq
  rcases List.eq_nil_or_concat after with rfl | ⟨after, last, rfl⟩
  · obtain ⟨rfl, hlast⟩ := List.append_inj' heq rfl
    obtain ⟨rfl, -⟩ := Tick.stop.inj (List.singleton_inj.mp hlast)
    exact ⟨[], a, ticks, rfl, hne⟩
  · rw [List.concat_eq_append, ← List.cons_append, ← List.append_assoc] at heq
    obtain ⟨earlier, a', between, rfl, hbetween⟩ :=
      h before watch' b' after (List.append_inj' heq rfl).1
    exact ⟨_ :: earlier, a', between, rfl, hbetween⟩

theorem Within.mono {a a' b : Nat} {laps : List (Lap κ)} (h : Within a laps b) (ha : a' ≤ a) :
    Within a' laps b := by
  cases laps with
  | nil => exact Nat.le_trans ha h
  | cons lap laps => exact ⟨Nat.le_trans ha h.1, h.2⟩

theorem Within.append {a b c : Nat} {laps laps' : List (Lap κ)} (h : Within a laps b)
    (h' : Within b laps' c) : Within a (laps ++ laps') c := by
  induction laps generalizing a with
  | nil =>
    exact h'.mono h
  | cons lap laps ih => exact ⟨h.1, ih h.2⟩

theorem Within.sum_le {a b : Nat} {laps : List (Lap κ)} (h : Within a laps b) :
    a + (laps.map Lap.duration).sum ≤ b := by
  induction laps generalizing a with
  | nil => exact h
  | cons lap laps ih =>
    have hrest := ih h.2
    have hstart := h.1
    have hle := lap.le
    rw [List.map_cons, List.sum_cons, Lap.duration]
    omega

variable [DecidableEq κ]

/-- The time that a stopwatch measures. -/
def lapTime (watch : κ) (laps : List (Lap κ)) : Nat :=
  ((laps.filter (·.watch = watch)).map Lap.duration).sum

theorem lapTime_append (watch : κ) (laps laps' : List (Lap κ)) :
    lapTime watch (laps ++ laps') = lapTime watch laps + lapTime watch laps' := by
  rw [lapTime, List.filter_append, List.map_append, List.sum_append]
  rfl

theorem lapTime_cons (watch : κ) (lap : Lap κ) (laps : List (Lap κ)) :
    lapTime watch (lap :: laps) =
      (if lap.watch = watch then lap.duration else 0) + lapTime watch laps := by
  rw [lapTime, List.filter_cons]
  by_cases h : lap.watch = watch
  · rw [if_pos (decide_eq_true h), if_pos h]
    rfl
  · rw [if_neg (by simpa using h), if_neg h, Nat.zero_add]
    rfl

/-- The stopwatches share the time of the laps. -/
theorem sum_lapTime_le (watches : Finset κ) (laps : List (Lap κ)) :
    ∑ watch ∈ watches, lapTime watch laps ≤ (laps.map Lap.duration).sum := by
  induction laps with
  | nil => simp [lapTime]
  | cons lap laps ih =>
    simp only [lapTime_cons, Finset.sum_add_distrib, Finset.sum_ite_eq, List.map_cons,
      List.sum_cons]
    refine Nat.add_le_add ?_ ih
    split
    · exact Nat.le_refl _
    · exact Nat.zero_le _

end CLib
