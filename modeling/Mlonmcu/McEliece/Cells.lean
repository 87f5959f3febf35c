import Mlonmcu.CLib.Bytes

/-! Memory with the bytes that have been stored to it. -/

namespace Mlonmcu.McEliece

open CLib

/-- The memory from a pointer on.  The indices of the bytes that have been stored to it have no
counterpart in the program. -/
@[ext]
structure Cells where
  mem : Memory
  stored : List Nat

namespace Cells

/-- A store of one byte. -/
def put (c : Cells) (i : Nat) (b : UInt8) : Cells where
  mem := Function.update c.mem i b
  stored := c.stored ++ [i]

/-- Stores of bytes one after the other. -/
def write (c : Cells) (i : Nat) : Bytes → Cells
  | [] => c
  | b :: bytes => (c.put i b).write (i + 1) bytes

theorem write_append (c : Cells) (i : Nat) (a b : Bytes) :
    c.write i (a ++ b) = (c.write i a).write (i + a.length) b := by
  induction a generalizing c i with
  | nil => rfl
  | cons x a ih =>
    rw [List.cons_append, write, ih, List.length_cons, Nat.add_assoc, Nat.add_comm 1]
    rfl

theorem write_stored (c : Cells) (i : Nat) (bytes : Bytes) :
    (c.write i bytes).stored = c.stored ++ List.range' i bytes.length := by
  induction bytes generalizing c i with
  | nil => exact (List.append_nil _).symm
  | cons b bytes ih =>
    rw [write, ih, put, List.length_cons, List.range'_succ, List.append_assoc]
    rfl

theorem write_mem (c : Cells) (i : Nat) (bytes : Bytes) (a : Nat) :
    (c.write i bytes).mem a = if i ≤ a then bytes[a - i]?.getD (c.mem a) else c.mem a := by
  induction bytes generalizing c i with
  | nil => simp [write]
  | cons b bytes ih =>
    simp only [write, ih, put]
    rcases Nat.lt_trichotomy a i with hlt | rfl | hgt
    · rw [if_neg (by omega), if_neg (by omega), Function.update_of_ne (by omega)]
    · rw [if_neg (by omega), if_pos (Nat.le_refl a), Function.update_self, Nat.sub_self]
      rfl
    · obtain ⟨k, hk⟩ : ∃ k, a - i = k + 1 := ⟨a - i - 1, by omega⟩
      rw [if_pos (by omega), if_pos (by omega), Function.update_of_ne (by omega), hk,
        show a - (i + 1) = k by omega, List.getElem?_cons_succ]

/-! ### The bytes that are stored -/

/-- The bytes that have been stored to get from some cells to others lie between two indices. -/
def StoredIn (c c' : Cells) (a b : Nat) : Prop :=
  ∃ new, c'.stored = c.stored ++ new ∧ ∀ i ∈ new, a ≤ i ∧ i < b

variable {c c' c'' : Cells} {a b : Nat}

theorem StoredIn.refl (c : Cells) (a b : Nat) : StoredIn c c a b :=
  ⟨[], (List.append_nil _).symm, fun _ h => absurd h List.not_mem_nil⟩

theorem StoredIn.trans (h : StoredIn c c' a b) (h' : StoredIn c' c'' a b) :
    StoredIn c c'' a b := by
  obtain ⟨new, hstored, hnew⟩ := h
  obtain ⟨new', hstored', hnew'⟩ := h'
  refine ⟨new ++ new', by rw [hstored', hstored, List.append_assoc], fun i hi => ?_⟩
  exact (List.mem_append.mp hi).elim (hnew i) (hnew' i)

theorem StoredIn.mono {a' b' : Nat} (h : StoredIn c c' a b) (ha : a' ≤ a) (hb : b ≤ b') :
    StoredIn c c' a' b' := by
  obtain ⟨new, hstored, hnew⟩ := h
  exact ⟨new, hstored, fun i hi => ⟨ha.trans (hnew i hi).1, (hnew i hi).2.trans_le hb⟩⟩

theorem storedIn_put {i : Nat} (ha : a ≤ i) (hb : i < b) (x : UInt8) :
    StoredIn c (c.put i x) a b :=
  ⟨[i], rfl, fun j hj => by rw [List.mem_singleton.mp hj]; exact ⟨ha, hb⟩⟩

theorem storedIn_write (c : Cells) (i : Nat) (bytes : Bytes) :
    StoredIn c (c.write i bytes) i (i + bytes.length) :=
  ⟨_, write_stored c i bytes, fun _ hj => List.mem_range'_1.mp hj⟩

/-- Bytes that are stored on the way lie between the indices. -/
theorem StoredIn.of_write {c₁ c₂ : Cells} {x y x' y' i : Nat} {bytes : Bytes}
    (h : StoredIn c c₂ a b) (hbefore : StoredIn c c₁ x y)
    (hafter : StoredIn (c₁.write i bytes) c₂ x' y') :
    ∀ j ∈ List.range' i bytes.length, a ≤ j ∧ j < b := by
  obtain ⟨new, hstored, hnew⟩ := h
  obtain ⟨first, hfirst, -⟩ := hbefore
  obtain ⟨last, hlast, -⟩ := hafter
  rw [hlast, write_stored, hfirst, List.append_assoc, List.append_assoc] at hstored
  intro j hj
  refine hnew j ?_
  rw [← List.append_cancel_left hstored]
  exact List.mem_append_right _ (List.mem_append_left _ hj)

theorem storedIn_rounds {ι : Type} {f : Cells → ι → Cells} {xs : List ι}
    (h : ∀ x ∈ xs, ∀ c, StoredIn c (f c x) a b) (c : Cells) : StoredIn c (xs.foldl f c) a b := by
  induction xs generalizing c with
  | nil => exact StoredIn.refl _ _ _
  | cons x xs ih =>
    exact (h x List.mem_cons_self c).trans (ih (fun y hy => h y (List.mem_cons_of_mem _ hy)) _)

/-- A loop that moves a pointer on by the bytes that each round stores. -/
theorem storedIn_foldl {ι : Type} (step : Cells × Nat → ι → Cells × Nat) {size : Nat}
    (h : ∀ c p x, StoredIn c (step (c, p) x).1 p (p + size) ∧ (step (c, p) x).2 = p + size)
    (xs : List ι) (c : Cells) (p : Nat) :
    StoredIn c (xs.foldl step (c, p)).1 p (p + size * xs.length) ∧
      (xs.foldl step (c, p)).2 = p + size * xs.length := by
  induction xs generalizing c p with
  | nil => exact ⟨StoredIn.refl _ _ _, rfl⟩
  | cons x xs ih =>
    obtain ⟨hfirst, hp⟩ := h c p x
    obtain ⟨hrest, hp'⟩ := ih (step (c, p) x).1 (p + size)
    have hlength : p + size * (x :: xs).length = p + size + size * xs.length := by
      rw [List.length_cons, Nat.mul_succ]
      omega
    rw [List.foldl_cons, hlength, show step (c, p) x = ((step (c, p) x).1, p + size) from
      Prod.ext rfl hp]
    exact ⟨(hfirst.mono (Nat.le_refl _) (Nat.le_add_right _ _)).trans
      (hrest.mono (Nat.le_add_right _ _) (Nat.le_refl _)), hp'⟩

end Cells

end Mlonmcu.McEliece
