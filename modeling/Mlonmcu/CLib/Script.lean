import Mlonmcu.CLib.Prog
import Mathlib.Data.List.Basic

/-! Scripts: the events that a program goes through, each with the result of the program when the
event ends it.  A program follows a script when its log grows by the events up to the first one that
ends it, with the result of that event. -/

namespace CLib

/-- The events of a script with the results of those that end it. -/
abbrev Script (ε ρ : Type) := List (ε × Option ρ)

namespace Script

variable {ε ρ : Type}

/-- The events up to the first one that ends the script. -/
def performed : Script ε ρ → List ε
  | [] => []
  | (event, none) :: script => event :: performed script
  | (event, some _) :: _ => [event]

/-- The result of the first event that ends the script. -/
def outcome : Script ε ρ → Option ρ
  | [] => none
  | (_, none) :: script => outcome script
  | (_, some result) :: _ => some result

def events (script : Script ε ρ) : List ε := script.map Prod.fst

/-- No event ends the script. -/
def Passes (script : Script ε ρ) : Prop := ∀ step ∈ script, step.2 = none

theorem Passes.cons {event : ε} {script : Script ε ρ} (h : Passes script) :
    Passes ((event, none) :: script) := by
  rintro step hstep
  rcases List.mem_cons.mp hstep with rfl | hstep
  · rfl
  · exact h step hstep

/-- The events before the first one that ends the script, and that one, are performed. -/
theorem performed_append {before after : Script ε ρ} {event : ε} {result : ρ} (h : Passes before) :
    performed (before ++ (event, some result) :: after) = events before ++ [event] := by
  induction before with
  | nil => rfl
  | cons step before ih =>
    obtain ⟨first, stop⟩ := step
    obtain rfl : stop = none := h (first, stop) (by simp)
    rw [List.cons_append, performed, ih fun step hstep => h step (by simp [hstep])]
    rfl

theorem outcome_append {before after : Script ε ρ} {event : ε} {result : ρ} (h : Passes before) :
    outcome (before ++ (event, some result) :: after) = some result := by
  induction before with
  | nil => rfl
  | cons step before ih =>
    obtain ⟨first, stop⟩ := step
    obtain rfl : stop = none := h (first, stop) (by simp)
    exact ih fun step hstep => h step (by simp [hstep])

theorem passes_or (script : Script ε ρ) : Passes script ∨ ∃ before event result after,
    script = before ++ (event, some result) :: after ∧ Passes before := by
  induction script with
  | nil => exact .inl (by simp [Passes])
  | cons step script ih =>
    obtain ⟨event, stop⟩ := step
    cases stop with
    | some result => exact .inr ⟨[], event, result, script, rfl, by simp [Passes]⟩
    | none =>
      rcases ih with hpass | ⟨before, last, result, after, rfl, hbefore⟩
      · exact .inl hpass.cons
      · exact .inr ⟨(event, none) :: before, last, result, after, rfl, hbefore.cons⟩

theorem Passes.outcome {script : Script ε ρ} (h : Passes script) : outcome script = none := by
  induction script with
  | nil => rfl
  | cons step script ih =>
    obtain ⟨event, stop⟩ := step
    obtain rfl : stop = none := h (event, stop) (by simp)
    exact ih fun step hstep => h step (by simp [hstep])

/-- The step that ends a script. -/
theorem stop_of_outcome {script : Script ε ρ} {result : ρ} (h : outcome script = some result) :
    ∃ before event after, script = before ++ (event, some result) :: after ∧ Passes before ∧
      performed script = events before ++ [event] := by
  obtain ⟨before, event, stop, after, hscript, hbefore⟩ :=
    (passes_or script).resolve_left fun hpass => by simp [hpass.outcome] at h
  have hresult := h
  rw [hscript, outcome_append hbefore, Option.some.injEq] at hresult
  subst hresult
  exact ⟨before, event, after, hscript, hbefore, by rw [hscript, performed_append hbefore]⟩

end Script

section

variable {σ α ε : Type} (log : σ → List ε)

/-- The program appends what the script performs to the log and ends with the script's result. -/
def Follows (p : Prog σ α) (s : σ) (script : Script ε (Result α)) : Prop :=
  ∃ result t, p.run s = (result, t) ∧ script.outcome = some result ∧
    log t = log s ++ script.performed

variable {log} {p p' : Prog σ α} {s s' : σ} {event : ε} {script : Script ε (Result α)}

theorem Follows.stop {result : Result α} (hrun : p.run s = (result, s'))
    (hlog : log s' = log s ++ [event]) : Follows log p s ((event, some result) :: script) :=
  ⟨result, s', hrun, rfl, hlog⟩

/-- An event after which the program goes on. -/
theorem Follows.next (hrun : p.run s = p'.run s') (hlog : log s' = log s ++ [event])
    (hrest : Follows log p' s' script) : Follows log p s ((event, none) :: script) := by
  obtain ⟨result, t, hrun', hresult, hlog'⟩ := hrest
  refine ⟨result, t, hrun.trans hrun', hresult, ?_⟩
  rw [hlog', hlog, List.append_assoc]
  rfl

/-- The program only appends to the log. -/
def Appends (log : σ → List ε) (p : Prog σ α) : Prop := ∀ s, log s <+: log (p.run s).2

theorem Appends.pure (a : α) : Appends log (pure a : Prog σ α) := fun _ => List.prefix_rfl

theorem Appends.bind {β : Type} {f : α → Prog σ β} (hp : Appends log p)
    (hf : ∀ a, Appends log (f a)) : Appends log (p >>= f) := by
  intro s
  obtain ⟨result, s', hrun⟩ : ∃ result s', p.run s = (result, s') := ⟨_, _, rfl⟩
  have hlog := hp s
  rw [hrun] at hlog
  cases result with
  | done a => rw [Prog.bind_done hrun]; exact hlog.trans (hf a s')
  | exited c => rw [Prog.bind_exited hrun]; exact hlog
  | fault e => rw [Prog.bind_fault hrun]; exact hlog
  | timeout => rw [Prog.bind_timeout hrun]; exact hlog

end

end CLib
