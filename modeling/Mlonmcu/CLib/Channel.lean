import Mathlib.Logic.Relation

/-! A channel with one place between a sender and a receiver, and simulations between relations. -/

namespace CLib

open Relation

variable {ρ : Type}

/-- What the sender still has to send, what is in the channel, and what the receiver took. -/
structure Channel (ρ : Type) where
  unsent : List ρ
  slot : Option ρ
  taken : List ρ

namespace Channel

/-- The sender puts a value into the empty channel, or the receiver takes it. -/
inductive Step : Channel ρ → Channel ρ → Prop
  | put (r : ρ) (unsent taken : List ρ) : Step ⟨r :: unsent, none, taken⟩ ⟨unsent, some r, taken⟩
  | take (r : ρ) (unsent taken : List ρ) :
      Step ⟨unsent, some r, taken⟩ ⟨unsent, none, taken ++ [r]⟩

/-- What is taken, in the channel, and unsent, in this order. -/
def all (c : Channel ρ) : List ρ := c.taken ++ c.slot.toList ++ c.unsent

theorem Step.all {c c' : Channel ρ} (h : Step c c') : c'.all = c.all := by
  cases h with
  | put r unsent taken => simp [Channel.all]
  | take r unsent taken => simp [Channel.all]

/-- A channel loses nothing, repeats nothing, and keeps the order. -/
theorem run_all {c c' : Channel ρ} (h : ReflTransGen Step c c') : c'.all = c.all := by
  induction h with
  | refl => rfl
  | tail _ hstep ih => exact hstep.all.trans ih

theorem run_taken {unsent taken : List ρ}
    (h : ReflTransGen Step ⟨unsent, none, []⟩ ⟨[], none, taken⟩) : taken = unsent := by
  simpa [all] using run_all h

end Channel

/-- A relation that each step of the first system keeps with steps of the second one is kept by
runs. -/
theorem run_simulated {σ τ : Type} {step : σ → σ → Prop} {step' : τ → τ → Prop} {R : σ → τ → Prop}
    {s t : σ} {c : τ} (hrun : ReflTransGen step s t) (h : R s c)
    (hstep : ∀ s t c, R s c → step s t → ∃ c', ReflTransGen step' c c' ∧ R t c') :
    ∃ c', ReflTransGen step' c c' ∧ R t c' := by
  induction hrun with
  | refl => exact ⟨c, .refl, h⟩
  | tail _ hlast ih =>
    obtain ⟨c', hfirst, hrelated⟩ := ih
    obtain ⟨c'', hsteps, hrelated'⟩ := hstep _ _ _ hrelated hlast
    exact ⟨c'', hfirst.trans hsteps, hrelated'⟩

end CLib
