import Mlonmcu.CLib.Bytes

/-! Sequences of blocks of one length, and the list that they make when they are joined. -/

namespace CLib

structure Blocks (α : Type) (size : Nat) where
  items : List (List α)
  length_item : ∀ item ∈ items, item.length = size

namespace Blocks

variable {α : Type} {size : Nat}

def empty : Blocks α size := ⟨[], by simp⟩

def append (a b : Blocks α size) : Blocks α size where
  items := a.items ++ b.items
  length_item item h := (List.mem_append.mp h).elim (a.length_item item) (b.length_item item)

def join (a : Blocks α size) : List α := a.items.flatten

@[simp] theorem join_append (a b : Blocks α size) : (a.append b).join = a.join ++ b.join :=
  List.flatten_append

@[simp] theorem length_join (a : Blocks α size) : a.join.length = a.items.length * size := by
  obtain ⟨items, h⟩ := a
  induction items with
  | nil => simp [join]
  | cons item items ih =>
    have hrest : items.flatten.length = items.length * size :=
      ih fun x hx => h x (List.mem_cons_of_mem _ hx)
    simp only [join, List.flatten_cons, List.length_append, List.length_cons, hrest,
      h item List.mem_cons_self, Nat.succ_mul]
    omega

/-- The element `j` of the block `i` stands at `i * size + j`. -/
theorem getElem?_join (a : Blocks α size) {i j : Nat} (hi : i < a.items.length) (hj : j < size) :
    a.join[i * size + j]? = a.items[i][j]? := by
  obtain ⟨items, h⟩ := a
  induction items generalizing i with
  | nil => simp at hi
  | cons item items ih =>
    have hitem := h item List.mem_cons_self
    simp only [join, List.flatten_cons] at ih ⊢
    cases i with
    | zero =>
      rw [Nat.zero_mul, Nat.zero_add, List.getElem?_append_left (by omega)]
      rfl
    | succ i =>
      rw [Nat.succ_mul, List.getElem?_append_right (by omega),
        show i * size + size + j - item.length = i * size + j by omega]
      exact ih (fun x hx => h x (List.mem_cons_of_mem _ hx)) (by simpa using hi)

end Blocks

/-- The `n` blocks of `size` bytes from a pointer on. -/
def Memory.blocks (m : Memory) (size n : Nat) : Blocks UInt8 size where
  items := (List.range n).map fun i => (List.range size).map fun j => m (i * size + j)
  length_item item h := by
    obtain ⟨i, -, rfl⟩ := List.mem_map.mp h
    simp

/-- The indices of `n` blocks of `size` elements, block by block. -/
theorem flatMap_range {β : Type} (f : Nat → β) (size n : Nat) :
    ((List.range n).flatMap fun i => (List.range size).map fun j => f (i * size + j)) =
      (List.range (n * size)).map f := by
  induction n with
  | zero => simp
  | succ n ih =>
    rw [List.range_succ, List.flatMap_append, ih, Nat.succ_mul, List.range_add, List.map_append,
      List.map_map, List.flatMap_singleton]
    rfl

theorem Memory.join_blocks (m : Memory) (size n : Nat) :
    (m.blocks size n).join = m.load (n * size) := by
  rw [Memory.load, ← flatMap_range m size n, Blocks.join, Memory.blocks, List.flatMap_def]

end CLib
