import Mathlib.Algebra.BigOperators.Pi
import Mathlib.Data.Fintype.BigOperators
import Mlonmcu.CLib.Prog

/-! Loops over the elements of a list, and loops that add to the cells of an array or set them. -/

namespace CLib

section

variable {σ ι : Type}

def forEach (body : ι → Prog σ Unit) : List ι → Prog σ Unit
  | [] => pure ()
  | i :: is => do
    body i
    forEach body is

theorem run_forEach_append {body : ι → Prog σ Unit} {is js : List ι} {s s' : σ}
    (h : (forEach body is).run s = (.done (), s')) :
    (forEach body (is ++ js)).run s = (forEach body js).run s' := by
  induction is generalizing s with
  | nil =>
    obtain ⟨-, rfl⟩ := Prod.mk.inj h
    rfl
  | cons i is ih =>
    obtain ⟨_, t, hfirst, hrest⟩ := Prog.bind_eq_done h
    exact (Prog.bind_done hfirst).trans (ih hrest)

theorem run_forEach_skip {body : ι → Prog σ Unit} {is : List ι}
    (h : ∀ i ∈ is, body i = pure ()) (s : σ) : (forEach body is).run s = (.done (), s) := by
  induction is with
  | nil => rfl
  | cons i is ih =>
    rw [forEach, h i List.mem_cons_self, Prog.run_pure_bind]
    exact ih fun j hj => h j (List.mem_cons_of_mem _ hj)

theorem forEach_singleton {body : ι → Prog σ Unit} {i : ι} {s s' : σ}
    (h : (body i).run s = (.done (), s')) : (forEach body [i]).run s = (.done (), s') :=
  Prog.bind_done h

end

section

variable {R : Type} [AddCommMonoid R] {p : Prog (Nat → R) Unit} {body : Nat → Prog (Nat → R) Unit}

/-- The program adds to the cells of an array. -/
def Adds (p : Prog (Nat → R) Unit) (g : Nat → R) : Prop := ∀ d, p.run d = (.done (), d + g)

theorem adds_cell (k : Nat) (v : R) :
    Adds (Prog.modify fun d => Function.update d k (d k + v)) (Pi.single k v) := by
  intro d
  have hcell : Function.update d k (d k + v) = d + Pi.single k v := by
    funext j
    by_cases hj : j = k
    · subst hj; simp
    · simp [hj]
  rw [Prog.run_modify, hcell]

/-- A loop adds what its rounds add. -/
theorem adds_range {g : Nat → Nat → R} {n : Nat} (h : ∀ i < n, Adds (body i) (g i)) :
    Adds (forEach body (List.range n)) (∑ i ∈ Finset.range n, g i) := by
  intro d
  induction n with
  | zero => simp [forEach]
  | succ n ih =>
    rw [List.range_succ, run_forEach_append (ih fun i hi => h i (Nat.lt_succ_of_lt hi)),
      forEach_singleton (h n (Nat.lt_succ_self n) _), Finset.sum_range_succ, add_assoc]

end

section

variable {R : Type} {body : Nat → Prog (Nat → R) Unit}

/-- The program sets the cells of an array in a set to values that do not depend on the array. -/
def Sets (p : Prog (Nat → R) Unit) (cells : Set Nat) (value : Nat → R) : Prop :=
  ∀ d, ∃ d', p.run d = (.done (), d') ∧ (∀ k ∈ cells, d' k = value k) ∧ ∀ k ∉ cells, d' k = d k

theorem sets_cell (k : Nat) (value : Nat → R) :
    Sets (Prog.modify fun d => Function.update d k (value k)) {k} value := by
  refine fun d => ⟨_, Prog.run_modify _ _, ?_, fun j hj => Function.update_of_ne hj _ _⟩
  rintro j rfl
  exact Function.update_self ..

/-- A loop sets the cells that its rounds set. -/
theorem sets_range {cells : Nat → Set Nat} {value : Nat → R} {n : Nat}
    (h : ∀ i < n, Sets (body i) (cells i) value) :
    Sets (forEach body (List.range n)) {k | ∃ i < n, k ∈ cells i} value := by
  intro d
  induction n with
  | zero => exact ⟨d, rfl, fun k hk => by simp at hk, fun k _ => rfl⟩
  | succ n ih =>
    obtain ⟨d', hrun, hset, hframe⟩ := ih fun i hi => h i (Nat.lt_succ_of_lt hi)
    obtain ⟨d'', hrun', hset', hframe'⟩ := h n (Nat.lt_succ_self n) d'
    refine ⟨d'', ?_, ?_, ?_⟩
    · rw [List.range_succ, run_forEach_append hrun, forEach_singleton hrun']
    · rintro k ⟨i, hi, hk⟩
      by_cases hlast : k ∈ cells n
      · exact hset' k hlast
      · rw [hframe' k hlast]
        rcases Nat.lt_succ_iff_lt_or_eq.mp hi with hlt | rfl
        · exact hset k ⟨i, hlt, hk⟩
        · exact absurd hk hlast
    · intro k hk
      rw [hframe' k fun hlast => hk ⟨n, Nat.lt_succ_self n, hlast⟩]
      exact hframe k fun ⟨i, hi, hmem⟩ => hk ⟨i, Nat.lt_succ_of_lt hi, hmem⟩

end

end CLib
