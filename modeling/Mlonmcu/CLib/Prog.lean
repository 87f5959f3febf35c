import Mathlib.Algebra.Group.Int.Defs
import Mathlib.Tactic.Basic

/-! Programs with a state that can also end the process, fault, or run out of fuel.  A fault is
undefined behavior of C.  The state stays visible in every case, so that what a program did before
it stopped can be stated. -/

namespace CLib

/-- The undefined behavior that a program reached. -/
inductive Fault
  | divideByZero
  | outOfBounds
  | signedOverflow
  deriving DecidableEq, Repr

/-- How a program ended: with a value, in a call of `exit`, in undefined behavior, or not within
the fuel. -/
inductive Result (α : Type)
  | done (value : α)
  | exited (status : Int32)
  | fault (reason : Fault)
  | timeout
  deriving DecidableEq, Repr

/-- A program on states `σ` with values `α`. -/
structure Prog (σ α : Type) where
  run : σ → Result α × σ

namespace Prog

variable {σ α β : Type}

def andThen (p : Prog σ α) (f : α → Prog σ β) : Prog σ β where
  run s :=
    match p.run s with
    | (.done a, s') => (f a).run s'
    | (.exited c, s') => (.exited c, s')
    | (.fault e, s') => (.fault e, s')
    | (.timeout, s') => (.timeout, s')

instance : Monad (Prog σ) where
  pure a := ⟨fun s => (.done a, s)⟩
  bind := andThen

def exit (status : Int32) : Prog σ α := ⟨fun s => (.exited status, s)⟩

def fault (reason : Fault) : Prog σ α := ⟨fun s => (.fault reason, s)⟩

def timeout : Prog σ α := ⟨fun s => (.timeout, s)⟩

def get : Prog σ σ := ⟨fun s => (.done s, s)⟩

def modify (f : σ → σ) : Prog σ Unit := ⟨fun s => (.done (), f s)⟩

def div (a b : UInt64) : Prog σ UInt64 := if b = 0 then fault .divideByZero else pure (a / b)

/-- A program on a part of the state. -/
def zoom {τ : Type} (view : σ → τ) (put : τ → σ → σ) (p : Prog τ α) : Prog σ α :=
  ⟨fun s => ((p.run (view s)).1, put (p.run (view s)).2 s)⟩

def intMax : Nat := 2147483647

/-- `n++` on an `int` that is not negative. -/
def increment (n : Nat) : Prog σ Nat :=
  if n < intMax then pure (n + 1) else fault .signedOverflow

/-- The result of an operation on values of type `int`. -/
def checkInt (value : Int) : Prog σ Int :=
  if -2 ^ 31 ≤ value ∧ value < 2 ^ 31 then pure value else fault .signedOverflow

@[simp] theorem run_pure (a : α) (s : σ) : (pure a : Prog σ α).run s = (.done a, s) := rfl

@[simp] theorem run_exit (c : Int32) (s : σ) : (exit c : Prog σ α).run s = (.exited c, s) := rfl

@[simp] theorem run_fault (e : Fault) (s : σ) : (fault e : Prog σ α).run s = (.fault e, s) := rfl

@[simp] theorem run_timeout (s : σ) : (timeout : Prog σ α).run s = (.timeout, s) := rfl

@[simp] theorem run_modify (f : σ → σ) (s : σ) : (modify f).run s = (.done (), f s) := rfl

theorem bind_done {p : Prog σ α} {f : α → Prog σ β} {s s' : σ} {a : α}
    (h : p.run s = (.done a, s')) : (p >>= f).run s = (f a).run s' := by
  simp only [bind, andThen, h]

theorem bind_exited {p : Prog σ α} {f : α → Prog σ β} {s s' : σ} {c : Int32}
    (h : p.run s = (.exited c, s')) : (p >>= f).run s = (.exited c, s') := by
  simp only [bind, andThen, h]

theorem bind_fault {p : Prog σ α} {f : α → Prog σ β} {s s' : σ} {e : Fault}
    (h : p.run s = (.fault e, s')) : (p >>= f).run s = (.fault e, s') := by
  simp only [bind, andThen, h]

theorem bind_timeout {p : Prog σ α} {f : α → Prog σ β} {s s' : σ}
    (h : p.run s = (.timeout, s')) : (p >>= f).run s = (.timeout, s') := by
  simp only [bind, andThen, h]

theorem run_bind_assoc {γ : Type} (p : Prog σ α) (f : α → Prog σ β) (g : β → Prog σ γ) (s : σ) :
    (p >>= f >>= g).run s = (p >>= fun a => f a >>= g).run s := by
  obtain ⟨r, s', hp⟩ : ∃ r s', p.run s = (r, s') := ⟨_, _, rfl⟩
  cases r with
  | done a => rw [bind_done hp]; simp only [bind, andThen, hp]
  | exited c => rw [bind_exited hp, bind_exited (bind_exited hp)]
  | fault e => rw [bind_fault hp, bind_fault (bind_fault hp)]
  | timeout => rw [bind_timeout hp, bind_timeout (bind_timeout hp)]

theorem bind_stop {p : Prog σ α} {f : α → Prog σ α} {s s' : σ} {result : Result α}
    (h : p.run s = (result, s')) (hstop : ∀ a, result ≠ .done a) :
    (p >>= f).run s = (result, s') := by
  cases result with
  | done a => exact absurd rfl (hstop a)
  | exited c => exact bind_exited h
  | fault e => exact bind_fault h
  | timeout => exact bind_timeout h

/-- A sequence ends with a value only when its first part does. -/
theorem bind_eq_done {p : Prog σ α} {f : α → Prog σ β} {s t : σ} {b : β}
    (h : (p >>= f).run s = (.done b, t)) :
    ∃ a s', p.run s = (.done a, s') ∧ (f a).run s' = (.done b, t) := by
  obtain ⟨r, s', hp⟩ : ∃ r s', p.run s = (r, s') := ⟨_, _, rfl⟩
  cases r with
  | done a => exact ⟨a, s', hp, (bind_done hp).symm.trans h⟩
  | exited c => rw [bind_exited hp] at h; cases h
  | fault e => rw [bind_fault hp] at h; cases h
  | timeout => rw [bind_timeout hp] at h; cases h

@[simp] theorem run_pure_bind (a : α) (f : α → Prog σ β) (s : σ) :
    ((pure a : Prog σ α) >>= f).run s = (f a).run s := bind_done rfl

@[simp] theorem run_get_bind (f : σ → Prog σ β) (s : σ) : (get >>= f).run s = (f s).run s :=
  bind_done rfl

@[simp] theorem run_modify_bind (g : σ → σ) (f : Unit → Prog σ β) (s : σ) :
    (modify g >>= f).run s = (f ()).run (g s) := bind_done rfl

theorem run_zoom {τ : Type} {view : σ → τ} {put : τ → σ → σ} {p : Prog τ α} {s : σ} {t : τ}
    {result : Result α} (h : p.run (view s) = (result, t)) :
    (zoom view put p).run s = (result, put t s) := by
  simp only [zoom, h]

theorem run_div {a b : UInt64} (hb : b ≠ 0) (s : σ) : (div a b).run s = (.done (a / b), s) := by
  simp [div, hb]

theorem run_div_zero (a : UInt64) (s : σ) : (div a 0).run s = (.fault .divideByZero, s) := rfl

theorem run_increment {n : Nat} (hn : n < intMax) (s : σ) :
    (increment n).run s = (.done (n + 1), s) := by
  simp [increment, hn]

theorem run_increment_overflow {n : Nat} (hn : intMax ≤ n) (s : σ) :
    (increment n).run s = (.fault .signedOverflow, s) := by
  simp [increment, Nat.not_lt.mpr hn]

theorem run_checkInt {value : Int} (hlow : -2 ^ 31 ≤ value) (hhigh : value < 2 ^ 31) (s : σ) :
    (checkInt value).run s = (.done value, s) := by
  rw [checkInt, if_pos ⟨hlow, hhigh⟩, run_pure]

/-! ### More fuel -/

/-- `q` ends as `p` does wherever `p` does not run out of fuel. -/
def Extends (p q : Prog σ α) : Prop :=
  ∀ s result t, p.run s = (result, t) → result ≠ .timeout → q.run s = (result, t)

theorem Extends.refl (p : Prog σ α) : Extends p p := fun _ _ _ hrun _ => hrun

theorem Extends.trans {p q r : Prog σ α} (hpq : Extends p q) (hqr : Extends q r) : Extends p r :=
  fun s result t hrun hfuel => hqr s result t (hpq s result t hrun hfuel) hfuel

/-- Two runs that end with a value end alike. -/
theorem Extends.done_eq {p q : Prog σ α} (h : Extends p q) {s t u : σ} {a b : α}
    (hp : p.run s = (.done a, t)) (hq : q.run s = (.done b, u)) : a = b ∧ t = u := by
  have hrun := (h s _ t hp nofun).symm.trans hq
  obtain ⟨hvalue, hstate⟩ := Prod.mk.inj hrun
  exact ⟨Result.done.inj hvalue, hstate⟩

theorem extends_timeout (q : Prog σ α) : Extends timeout q := by
  intro s result t hrun hfuel
  cases hrun
  exact absurd rfl hfuel

theorem Extends.bind (p : Prog σ α) {f g : α → Prog σ β} (h : ∀ a, Extends (f a) (g a)) :
    Extends (p >>= f) (p >>= g) := by
  intro s result t hrun hfuel
  obtain ⟨first, s', hp⟩ : ∃ first s', p.run s = (first, s') := ⟨_, _, rfl⟩
  cases first with
  | done a => rw [bind_done hp] at hrun ⊢; exact h a s' result t hrun hfuel
  | exited c => rw [bind_exited hp] at hrun ⊢; exact hrun
  | fault e => rw [bind_fault hp] at hrun ⊢; exact hrun
  | timeout => rw [bind_timeout hp] at hrun ⊢; exact hrun

theorem Extends.bind_left {p q : Prog σ α} (h : Extends p q) (f : α → Prog σ β) :
    Extends (p >>= f) (q >>= f) := by
  intro s result t hrun hfuel
  obtain ⟨first, s', hp⟩ : ∃ first s', p.run s = (first, s') := ⟨_, _, rfl⟩
  cases first with
  | done a =>
    rw [bind_done hp] at hrun
    rw [bind_done (h s _ s' hp nofun)]
    exact hrun
  | exited c =>
    rw [bind_exited hp] at hrun
    rw [bind_exited (h s _ s' hp nofun)]
    exact hrun
  | fault e =>
    rw [bind_fault hp] at hrun
    rw [bind_fault (h s _ s' hp nofun)]
    exact hrun
  | timeout =>
    rw [bind_timeout hp] at hrun
    exact absurd (Prod.mk.inj hrun).1.symm hfuel

end Prog

end CLib
