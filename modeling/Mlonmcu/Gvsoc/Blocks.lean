import Mlonmcu.Gvsoc.FreeList

/-! The functions of the allocator as operations on the set of free addresses. -/

namespace Mlonmcu.Gvsoc

open CLib

theorem extends_scan (skip : Nat → MallocChunk → Bool) (fuel more prev pt : Nat) :
    Prog.Extends (scan skip fuel prev pt) (scan skip (fuel + more) prev pt) := by
  induction fuel generalizing prev pt with
  | zero => exact Prog.extends_timeout _
  | succ fuel ih =>
    rw [Nat.add_right_comm, scan, scan]
    refine Prog.Extends.bind _ fun h => ?_
    split
    · exact ih pt _
    · exact Prog.Extends.refl _

theorem extends_malloc (fuel more : Nat) (size : Int) :
    Prog.Extends (malloc fuel size) (malloc (fuel + more) size) :=
  Prog.Extends.bind _ fun _ => Prog.Extends.bind _ fun _ =>
    Prog.Extends.bind_left (extends_scan _ _ _ _ _) _

theorem extends_mallocFree (fuel more chunk : Nat) (size : Int) :
    Prog.Extends (mallocFree fuel chunk size) (mallocFree (fuel + more) chunk size) :=
  Prog.Extends.bind _ fun _ => Prog.Extends.bind _ fun _ =>
    Prog.Extends.bind_left (extends_scan _ _ _ _ _) _

/-- The free chunks of an allocator of an arena. -/
structure Heap.Valid (arena : Arena) (h : Heap) (free : List Extent) : Prop extends
    Separated free where
  linked : h.Free free
  inside : Inside arena.base arena.top free
  aligned : Aligned minChunkSize free

/-- A free chunk has room for its two fields. -/
theorem Heap.Valid.room {arena : Arena} {h : Heap} {free : List Extent}
    (hvalid : h.Valid arena free) : ∀ e ∈ free, minChunkSize ≤ e.size := fun e he =>
  Nat.le_of_dvd (hvalid.size_pos e he) (hvalid.aligned e he).2

/-- The list of the free chunks is never longer than the arena. -/
theorem Heap.Valid.length_le {arena : Arena} {h : Heap} {free : List Extent}
    (hvalid : h.Valid arena free) : free.length ≤ arena.top - arena.base := by
  have hsub : cover free ⊆ Set.Ico arena.base arena.top := by
    rintro a ⟨e, he, hstart, hstop⟩
    obtain ⟨hbase, htop⟩ := hvalid.inside e he
    exact ⟨hbase.trans hstart, hstop.trans_le htop⟩
  rw [← ncard_Ico]
  refine (length_le_totalSize hvalid.size_pos).trans ?_
  rw [← hvalid.ncard_cover]
  exact Set.ncard_le_ncard hsub (Set.finite_Ico _ _)

/-- The addresses of a block. -/
def blockCells (p size : Nat) : Set Nat := Set.Ico p (p + size)

theorem dvd_roundUp (n : Nat) : minChunkSize ∣ roundUp n := Nat.dvd_mul_left _ _

variable {arena : Arena} {h h' : Heap} {free : List Extent} {fuel n p : Nat}

/-- The first chunk that is large enough. -/
theorem exists_fit {k : Nat} (h : ¬∀ e ∈ free, e.size < k) :
    ∃ xs e ys, free = xs ++ e :: ys ∧ (∀ x ∈ xs, x.size < k) ∧ k ≤ e.size := by
  push Not at h
  obtain ⟨f, hf, hle⟩ := h
  obtain ⟨e, he⟩ := Option.isSome_iff_exists.mp
    (List.find?_isSome (p := fun e => k ≤ e.size) |>.mpr ⟨f, hf, decide_eq_true hle⟩)
  obtain ⟨hfit, xs, ys, rfl, hxs⟩ := List.find?_eq_some_iff_append.mp he
  exact ⟨xs, e, ys, rfl, by simpa using hxs, of_decide_eq_true hfit⟩

/-- A block of free addresses, which are free no longer. -/
structure Taken (arena : Arena) (h h' : Heap) (free : List Extent) (p size : Nat) : Prop where
  ne_zero : p ≠ 0
  aligned : minChunkSize ∣ p
  subset : blockCells p size ⊆ cover free
  valid : ∃ free', h'.Valid arena free' ∧ cover free' = cover free \ blockCells p size
  frame : ∀ a ∉ cover free, h'.memory a = h.memory a

/-- `__malloc` returns `NULL` when no chunk is large enough, and else a block. -/
theorem malloc_spec (hvalid : h.Valid arena free) (hn : n + minChunkSize < 2 ^ 31)
    (hfuel : free.length < fuel) : ∃ p h', (malloc fuel n).run h = (.done p, h') ∧
      (p = 0 ∧ h' = h ∧ (∀ e ∈ free, e.size < roundUp n) ∨
        Taken arena h h' free p (roundUp n)) := by
  rcases em (∀ e ∈ free, e.size < roundUp n) with hsmall | hlarge
  · exact ⟨0, h, run_malloc_null hvalid.linked hn hsmall hfuel, .inl ⟨rfl, rfl, hsmall⟩⟩
  · obtain ⟨xs, e, ys, rfl, hxs, he⟩ := exists_fit hlarge
    have hmem : e ∈ xs ++ e :: ys := by simp
    have hcells : e.stop - roundUp n + roundUp n = e.stop := by
      rw [Extent.stop]
      omega
    obtain ⟨h', hmalloc, hfree, hframe⟩ := run_malloc hvalid.linked hvalid.toSeparated
      hvalid.inside hvalid.room hn hxs he hfuel
    obtain ⟨hstart, hsize⟩ := hvalid.aligned e hmem
    have hstop : minChunkSize ∣ e.stop := Nat.dvd_add hstart hsize
    refine ⟨_, h', hmalloc, .inr ⟨?_, Nat.dvd_sub hstop (dvd_roundUp n), ?_, ⟨_, ⟨hvalid.take he,
      hfree, hvalid.inside.take, hvalid.aligned.take (dvd_roundUp n)⟩, ?_⟩, hframe⟩⟩
    · have hbase := (hvalid.inside e hmem).1
      have hbase' := arena.base_pos
      rw [Extent.stop]
      omega
    · rw [blockCells, hcells]
      exact fun a ha => subset_cover hmem ⟨Nat.le_trans (by rw [Extent.stop]; omega) ha.1, ha.2⟩
    · rw [hvalid.cover_take he, blockCells, hcells]

/-- A block that is given back becomes free. -/
theorem mallocFree_spec (hvalid : h.Valid arena free) (hpos : 0 < n)
    (hn : n + minChunkSize < 2 ^ 31) (hp : minChunkSize ∣ p) (hbase : arena.base ≤ p)
    (htop : p + roundUp n ≤ arena.top) (hapart : Disjoint (blockCells p (roundUp n)) (cover free))
    (hfuel : free.length < fuel) :
    ∃ h' free', (mallocFree fuel p n).run h = (.done (), h') ∧ h'.Valid arena free' ∧
      cover free' = cover free ∪ blockCells p (roundUp n) ∧
      ∀ a ∉ cover free ∪ blockCells p (roundUp n), h'.memory a = h.memory a := by
  have hsize : 0 < roundUp n := hpos.trans_le (le_roundUp n)
  have hdvd := dvd_roundUp n
  obtain ⟨e, rfl, he⟩ : ∃ e : Extent, e.start = p ∧ e.size = roundUp n := ⟨⟨p, _⟩, rfl, rfl⟩
  rw [blockCells, ← he] at hapart ⊢
  rw [← he] at hsize htop hdvd
  obtain ⟨xs, ys, rfl, hxs, hys⟩ := hvalid.exists_gap hsize hapart
  obtain ⟨h', hrun, hfree, hframe⟩ := run_mallocFree hvalid.linked hvalid.toSeparated
    hvalid.inside hvalid.room he (Nat.le_of_dvd hsize hdvd) hbase htop hn hxs hys hfuel
  exact ⟨h', _, hrun, ⟨hvalid.giveBack hsize hxs hys, hfree,
    hvalid.inside.giveBack ⟨hbase, htop⟩, hvalid.aligned.giveBack ⟨hp, hdvd⟩⟩,
    cover_giveBack _ _ _, hframe⟩

end Mlonmcu.Gvsoc
