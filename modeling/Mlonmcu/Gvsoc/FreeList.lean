import Mlonmcu.CLib.Extents
import Mlonmcu.Gvsoc.Malloc

/-! The list of free chunks in the memory, and what the functions of the allocator do to it. -/

namespace Mlonmcu.Gvsoc

open CLib

namespace Heap

variable {h h' h'' : Heap} {p a next : Nat} {size : Int}

/-- Only the chunk at `p` has other bytes. -/
def OnlyAt (p : Nat) (h h' : Heap) : Prop :=
  ∀ a, a < p ∨ p + minChunkSize ≤ a → h'.memory a = h.memory a

theorem OnlyAt.trans (h₁ : OnlyAt p h h') (h₂ : OnlyAt p h' h'') : OnlyAt p h h'' :=
  fun a ha => (h₂ a ha).trans (h₁ a ha)

theorem onlyAt_setSize (h : Heap) (p : Nat) (size : Int) : OnlyAt p h (h.setSize p size) :=
  fun a ha => Memory.storeWord_of_notMem (by rw [minChunkSize] at ha; omega)

theorem onlyAt_setNext (h : Heap) (p next : Nat) : OnlyAt p h (h.setNext p next) :=
  fun a ha => Memory.storeWord_of_notMem (by rw [minChunkSize] at ha; omega)

theorem chunk_congr (hsame : ∀ a, p ≤ a → a < p + minChunkSize → h'.memory a = h.memory a) :
    h'.chunk p = h.chunk p := by
  rw [minChunkSize] at hsame
  have hsize : (h'.memory.drop p).word 4 = (h.memory.drop p).word 4 :=
    Memory.word_congr fun i hi => hsame (p + i) (by omega) (by omega)
  have hnext : (h'.memory.drop (p + 4)).word 4 = (h.memory.drop (p + 4)).word 4 :=
    Memory.word_congr fun i hi => hsame (p + 4 + i) (by omega) (by omega)
  rw [chunk, chunk, hsize, hnext]

/-- A chunk that shares no byte with the one at `p`. -/
theorem OnlyAt.chunk_eq (honly : OnlyAt p h h')
    (ha : a + minChunkSize ≤ p ∨ p + minChunkSize ≤ a) : h'.chunk a = h.chunk a :=
  chunk_congr fun b hb hb' => honly b (by omega)

theorem OnlyAt.eq_of_notMem {e : Extent} {es : List Extent} (honly : OnlyAt e.start h h')
    (he : e ∈ es) (hroom : minChunkSize ≤ e.size) (ha : a ∉ cover es) :
    h'.memory a = h.memory a := by
  refine honly a ?_
  by_contra hin
  exact ha (subset_cover he ⟨by omega, by rw [Extent.stop]; omega⟩)

theorem next_lt (h : Heap) (p : Nat) : (h.chunk p).next < 2 ^ 32 := Memory.word_lt _ 4

theorem chunk_setSize (h : Heap) (p : Nat) (hlow : -2 ^ 31 ≤ size) (hhigh : size < 2 ^ 31) :
    (h.setSize p size).chunk p = ⟨size, (h.chunk p).next⟩ := by
  have hlt : toUint32 size < 256 ^ 4 := by
    rw [toUint32]
    omega
  have hsize : toInt32 (toUint32 size) = size := by
    rw [toUint32, toInt32]
    split <;> omega
  rw [chunk, setSize, Memory.word_storeWord _ hlt, hsize,
    Memory.word_storeWord_of_apart _ (Or.inr (Nat.le_refl _))]
  rfl

theorem chunk_setNext (h : Heap) (p : Nat) (hnext : next < 2 ^ 32) :
    (h.setNext p next).chunk p = ⟨(h.chunk p).size, next⟩ := by
  rw [chunk, setNext, Memory.word_storeWord _ hnext,
    Memory.word_storeWord_of_apart _ (Or.inl (Nat.le_refl _))]
  rfl

theorem onlyAt_setBoth (h : Heap) (p : Nat) (size : Int) (next : Nat) :
    OnlyAt p h ((h.setSize p size).setNext p next) :=
  (h.onlyAt_setSize p size).trans (onlyAt_setNext _ p next)

theorem chunk_setBoth (h : Heap) (p : Nat) (hlow : -2 ^ 31 ≤ size) (hhigh : size < 2 ^ 31)
    (hnext : next < 2 ^ 32) : ((h.setSize p size).setNext p next).chunk p = ⟨size, next⟩ := by
  rw [chunk_setNext _ p hnext, h.chunk_setSize p hlow hhigh]

end Heap

/-- From the pointer `p`, the chunks of some extents are linked, and the last one to `q`. -/
def Linked (h : Heap) : Nat → List Extent → Nat → Prop
  | p, [], q => p = q
  | p, e :: es, q => p = e.start ∧ e.start ≠ 0 ∧ (h.chunk e.start).size = e.size ∧
    Linked h (h.chunk e.start).next es q

/-- The free chunks of an allocator. -/
def Heap.Free (h : Heap) (free : List Extent) : Prop := Linked h h.firstFree free 0

namespace Linked

variable {h h' : Heap} {p q q' : Nat} {e : Extent} {es xs ys : List Extent}

theorem append_iff : Linked h p (xs ++ ys) q ↔ ∃ r, Linked h p xs r ∧ Linked h r ys q := by
  induction xs generalizing p with
  | nil => exact ⟨fun h => ⟨p, rfl, h⟩, fun ⟨r, hr, h⟩ => hr ▸ h⟩
  | cons x xs ih => simp only [List.cons_append, Linked, ih, ← exists_and_left, and_assoc]

theorem lt_word (hl : Linked h p es 0) (hes : ∀ e ∈ es, e.start < 2 ^ 32) : p < 2 ^ 32 := by
  cases es with
  | nil =>
    obtain rfl : p = 0 := hl
    decide
  | cons e es =>
    rw [hl.1]
    exact hes e List.mem_cons_self

/-- Stores elsewhere. -/
theorem congr (hl : Linked h p es q) (hsame : ∀ e ∈ es, h'.chunk e.start = h.chunk e.start) :
    Linked h' p es q := by
  induction es generalizing p with
  | nil => exact hl
  | cons e es ih =>
    obtain ⟨hp, hne, hsize, htail⟩ := hl
    rw [Linked, hsame e List.mem_cons_self]
    exact ⟨hp, hne, hsize, ih htail fun f hf => hsame f (List.mem_cons_of_mem e hf)⟩

/-- Stores to the last chunk. -/
theorem update_last (hl : Linked h p (xs ++ [e]) q) (honly : Heap.OnlyAt e.start h h')
    (hxs : ∀ x ∈ xs, x.start + minChunkSize ≤ e.start) {size : Nat}
    (hchunk : h'.chunk e.start = ⟨size, q'⟩) :
    Linked h' p (xs ++ [⟨e.start, size⟩]) q' := by
  obtain ⟨r, hfirst, hr, hne, -⟩ := append_iff.mp hl
  refine append_iff.mpr ⟨r, hfirst.congr fun x hx => honly.chunk_eq (Or.inl (hxs x hx)), hr, hne,
    ?_⟩
  rw [hchunk]
  exact ⟨rfl, rfl⟩

theorem setNext (hl : Linked h p (xs ++ [e]) q)
    (hxs : ∀ x ∈ xs, x.start + minChunkSize ≤ e.start) (hq' : q' < 2 ^ 32) :
    Linked (h.setNext e.start q') p (xs ++ [e]) q' := by
  obtain ⟨r, -, hr⟩ := append_iff.mp hl
  refine hl.update_last (h.onlyAt_setNext _ _) hxs ?_
  rw [h.chunk_setNext _ hq', hr.2.2.1]

end Linked

/-- The address of the last extent, if there is one. -/
def lastStart (prev : Nat) (xs : List Extent) : Nat := (xs.getLast?.map Extent.start).getD prev

theorem run_scan {skip : Nat → MallocChunk → Bool} {h : Heap} {xs ys : List Extent}
    {fuel prev p q : Nat} (hxs : Linked h p xs q) (hys : Linked h q ys 0)
    (hskip : ∀ x ∈ xs, skip x.start (h.chunk x.start) = true)
    (hstop : ∀ y ∈ ys.head?, skip y.start (h.chunk y.start) = false) (hfuel : xs.length < fuel) :
    (scan skip fuel prev p).run h = (.done (lastStart prev xs, q), h) := by
  induction xs generalizing fuel prev p with
  | nil =>
    obtain ⟨fuel, rfl⟩ : ∃ n, fuel = n + 1 := ⟨fuel - 1, by omega⟩
    obtain rfl : p = q := hxs
    rw [scan, Prog.run_get_bind, if_neg]
    · rfl
    · rintro ⟨hne, hp⟩
      cases ys with
      | nil => exact hne hys
      | cons y ys =>
        rw [hys.1, hstop y rfl] at hp
        cases hp
  | cons x xs ih =>
    obtain ⟨fuel, rfl⟩ : ∃ n, fuel = n + 1 := ⟨fuel - 1, by omega⟩
    obtain ⟨rfl, hne, -, htail⟩ := hxs
    rw [scan, Prog.run_get_bind, if_pos ⟨hne, hskip x List.mem_cons_self⟩,
      ih htail (fun y hy => hskip y (List.mem_cons_of_mem x hy)) (by simpa using hfuel)]
    cases hlast : xs.getLast? with
    | none => simp [lastStart, List.getLast?_eq_none_iff.mp hlast]
    | some y => simp [lastStart, List.getLast?_cons, hlast]

/-! ### `__malloc` and `__malloc_free` -/

/-- The size of the block for a request. -/
def roundUp (n : Nat) : Nat := (n + 7) / minChunkSize * minChunkSize

theorem le_roundUp (n : Nat) : n ≤ roundUp n := by
  rw [roundUp, minChunkSize]
  omega

theorem run_alignUp {σ : Type} {n : Nat} (hn : n + minChunkSize < 2 ^ 31) (s : σ) :
    (alignUp (n : Int)).run s = (.done (roundUp n : Int), s) := by
  rw [minChunkSize] at hn
  rw [alignUp, minChunkSize, Prog.bind_done (Prog.run_checkInt (by omega) (by omega) _),
    Prog.run_pure, alignDown, roundUp, minChunkSize]
  simp only [Prod.mk.injEq, Result.done.injEq, and_true]
  omega

/-- An extent that has room for a chunk ends after it. -/
theorem start_add_le {e : Extent} {a : Nat} (hroom : minChunkSize ≤ e.size) (hle : e.stop ≤ a) :
    e.start + minChunkSize ≤ a := by
  rw [Extent.stop] at hle
  omega

/-- The memory of an allocator. -/
structure Arena where
  base : Nat
  top : Nat
  base_pos : 0 < base
  base_lt : base < top
  top_lt : top < 2 ^ 32
  small : top - base < 2 ^ 31

section

variable {arena : Arena} {h : Heap} {free xs ys : List Extent} {e : Extent} {n fuel : Nat}

theorem toUint32_of_lt {x : Nat} (hx : x < 2 ^ 32) : toUint32 (x : Int) = x := by
  rw [toUint32]
  omega

private theorem run_fit (hfree : h.Free (xs ++ ys))
    (hxs : ∀ x ∈ xs, x.size < roundUp n) (hys : ∀ y ∈ ys.head?, roundUp n ≤ y.size)
    (hfuel : (xs ++ ys).length < fuel) : ∃ pt, Linked h h.firstFree xs pt ∧
      Linked h pt ys 0 ∧ (scan (fun _ chunk => chunk.size < (roundUp n : Int)) fuel 0
        h.firstFree).run h = (.done (lastStart 0 xs, pt), h) := by
  obtain ⟨pt, hfirst, hrest⟩ := Linked.append_iff.mp hfree
  refine ⟨pt, hfirst, hrest, run_scan hfirst hrest (fun x hx => ?_) (fun y hy => ?_) ?_⟩
  · obtain ⟨as, bs, rfl⟩ := List.append_of_mem hx
    obtain ⟨r, -, hr⟩ := Linked.append_iff.mp hfirst
    have hlt := hxs x hx
    simp only [hr.2.2.1, decide_eq_true_eq]
    omega
  · obtain ⟨ys, rfl⟩ : ∃ zs, ys = y :: zs := by
      cases ys with
      | nil => cases hy
      | cons z zs => exact ⟨zs, by rw [Option.mem_some_iff.mp hy]⟩
    have hle := hys y hy
    simp only [hrest.2.2.1, decide_eq_false_iff_not]
    omega
  · rw [List.length_append] at hfuel
    omega

/-- No chunk is large enough. -/
theorem run_malloc_null (hfree : h.Free free) (hn : n + minChunkSize < 2 ^ 31)
    (hsmall : ∀ e ∈ free, e.size < roundUp n) (hfuel : free.length < fuel) :
    (malloc fuel n).run h = (.done 0, h) := by
  rw [← List.append_nil free] at hfree hfuel
  obtain ⟨pt, -, rfl, hscan⟩ := run_fit hfree hsmall nofun hfuel
  rw [malloc, Prog.run_get_bind, Prog.bind_done (run_alignUp hn h), Prog.bind_done hscan]
  rfl

/-- The first chunk that is large enough gives its end. -/
theorem run_malloc (hfree : h.Free (xs ++ e :: ys)) (hext : Separated (xs ++ e :: ys))
    (hin : Inside arena.base arena.top (xs ++ e :: ys))
    (hroom : ∀ f ∈ xs ++ e :: ys, minChunkSize ≤ f.size) (hn : n + minChunkSize < 2 ^ 31)
    (hxs : ∀ x ∈ xs, x.size < roundUp n) (he : roundUp n ≤ e.size)
    (hfuel : (xs ++ e :: ys).length < fuel) :
    ∃ h', (malloc fuel n).run h = (.done (e.stop - roundUp n), h') ∧
      h'.Free (xs ++ e.rest (roundUp n) ++ ys) ∧
      ∀ a ∉ cover (xs ++ e :: ys), h'.memory a = h.memory a := by
  obtain ⟨pt, hfirst, ⟨rfl, hne, hsize, hrest⟩, hscan⟩ := run_fit hfree hxs
    (fun y hy => Option.mem_some_iff.mp hy ▸ he) hfuel
  have hmem : e ∈ xs ++ e :: ys := by simp
  have heroom := hroom e hmem
  rw [malloc, Prog.run_get_bind, Prog.bind_done (run_alignUp hn h), Prog.bind_done hscan]
  dsimp only
  rw [if_neg hne, hsize]
  by_cases hall : e.size = roundUp n
  · -- The whole chunk is taken out of the list.
    rw [if_pos (by rw [hall]), Extent.rest, if_pos hall, List.append_nil, Extent.stop, hall,
      Nat.add_sub_cancel]
    rcases List.eq_nil_or_concat' xs with rfl | ⟨init, prev, rfl⟩
    · exact ⟨_, rfl, hrest.congr fun _ _ => rfl, fun a _ => rfl⟩
    · have hsep : Separated (init ++ prev :: (e :: ys)) := by simpa using hext
      have hproom : minChunkSize ≤ prev.size := hroom prev (by simp)
      have hprev : lastStart 0 (init ++ [prev]) = prev.start := by simp [lastStart]
      have hnz : prev.start ≠ 0 := by
        obtain ⟨r, -, hr⟩ := Linked.append_iff.mp hfirst
        exact hr.2.1
      rw [hprev, if_pos hnz]
      refine ⟨_, rfl, Linked.append_iff.mpr ⟨_, hfirst.setNext (fun x hx => ?_) (h.next_lt _),
        hrest.congr fun y hy => ?_⟩, fun a ha => ?_⟩
      · exact start_add_le (hroom x (by simp [hx])) (Nat.le_of_lt (hsep.stop_lt hx))
      · exact (h.onlyAt_setNext _ _).chunk_eq (Or.inr (start_add_le hproom
          (Nat.le_of_lt (hsep.lt_next (List.mem_cons_of_mem e hy)))))
      · exact (h.onlyAt_setNext _ _).eq_of_notMem (by simp) hproom ha
  · -- The chunk keeps its first addresses.
    have hlt := (hin.size_le hmem).trans_lt arena.small
    have hstop := (hin e hmem).2.trans_lt arena.top_lt
    have hleft : (e.size : Int) - (roundUp n : Int) = ((e.size - roundUp n : Nat) : Int) := by omega
    have hresult : (e.start : Int) + (e.size : Int) - (roundUp n : Int) =
        ((e.stop - roundUp n : Nat) : Int) := by
      rw [Extent.stop]
      omega
    have honly := h.onlyAt_setSize e.start ((e.size - roundUp n : Nat) : Int)
    rw [if_neg (by omega), Extent.rest, if_neg hall, hleft,
      Prog.bind_done (Prog.run_checkInt (by omega) (by omega) _), hresult,
      toUint32_of_lt (by omega)]
    refine ⟨_, rfl, ?_, fun a ha => honly.eq_of_notMem hmem heroom ha⟩
    rw [List.append_assoc]
    refine Linked.append_iff.mpr ⟨e.start, hfirst.congr fun x hx => ?_, rfl, hne, ?_⟩
    · exact honly.chunk_eq (Or.inl (start_add_le (hroom x (by simp [hx]))
        (Nat.le_of_lt (hext.stop_lt hx))))
    · rw [h.chunk_setSize e.start (by omega) (by omega)]
      exact ⟨rfl, hrest.congr fun y hy => honly.chunk_eq (Or.inr (start_add_le heroom
        (Nat.le_of_lt (hext.lt_next hy))))⟩

theorem run_coalesceNext {next : Nat} (hys : Linked h next ys 0) (hpos : e.start ≠ 0)
    (hroom : minChunkSize ≤ e.size) (hstop : e.stop < 2 ^ 32) (hnext : next < 2 ^ 32)
    (hle : ∀ y ∈ ys, e.stop ≤ y.start) (hsize : ∀ f ∈ e.join ys, f.size < 2 ^ 31) :
    ∃ h', (coalesceNext e.start e.size next).run h = (.done (), h') ∧ h'.firstFree = h.firstFree ∧
      Linked h' e.start (e.join ys) 0 ∧ Heap.OnlyAt e.start h h' := by
  have hend : toUint32 ((e.start : Int) + (e.size : Int)) = e.stop := by
    rw [← Int.natCast_add]
    exact toUint32_of_lt hstop
  have hafter (y : Extent) (hy : y ∈ ys) : e.start + minChunkSize ≤ y.start :=
    start_add_le hroom (hle y hy)
  -- The chunk is linked to the next one.
  have hlink (hne : e.join ys = e :: ys) : Linked ((h.setSize e.start e.size).setNext e.start next)
      e.start (e :: ys) 0 := by
    have hlt : e.size < 2 ^ 31 := hsize e (hne ▸ List.mem_cons_self)
    rw [Linked, h.chunk_setBoth e.start (by omega) (by omega) hnext]
    exact ⟨rfl, hpos, rfl, hys.congr fun y hy =>
      (h.onlyAt_setBoth _ _ _).chunk_eq (Or.inr (hafter y hy))⟩
  rw [coalesceNext, Prog.run_get_bind, hend]
  cases ys with
  | nil =>
    obtain rfl : next = 0 := hys
    rw [if_neg (by rw [Extent.stop]; omega)]
    exact ⟨_, rfl, rfl, hlink rfl, h.onlyAt_setBoth _ _ _⟩
  | cons y ys =>
    obtain ⟨rfl, hy, hysize, hrest⟩ := hys
    rw [Extent.join] at hsize hlink ⊢
    by_cases htouch : e.stop = y.start
    · rw [if_pos htouch] at hsize
      have hsum : e.size + y.size < 2 ^ 31 := hsize _ List.mem_cons_self
      have hsame := (h.onlyAt_setSize e.start ((e.size + y.size : Nat) : Int)).chunk_eq
        (Or.inr (hafter y List.mem_cons_self))
      rw [if_pos htouch, if_pos htouch, hysize, ← Int.natCast_add,
        Prog.bind_done (Prog.run_checkInt (by omega) (by omega) _), Prog.run_modify_bind,
        Prog.run_modify, hsame]
      refine ⟨_, rfl, rfl, ?_, h.onlyAt_setBoth _ _ _⟩
      rw [Linked, h.chunk_setBoth e.start (by omega) (by omega) (h.next_lt _)]
      exact ⟨rfl, hpos, rfl, hrest.congr fun z hz => (h.onlyAt_setBoth _ _ _).chunk_eq
        (Or.inr (hafter z (List.mem_cons_of_mem y hz)))⟩
    · rw [if_neg htouch, if_neg htouch]
      exact ⟨_, rfl, rfl, hlink (if_neg htouch), h.onlyAt_setBoth _ _ _⟩

theorem run_coalescePrev_none (hys : Linked h e.start ys 0) :
    ∃ h', (coalescePrev 0 e.start).run h = (.done (), h') ∧ h'.Free ys ∧ h'.memory = h.memory :=
  ⟨_, rfl, hys.congr fun _ _ => rfl, rfl⟩

theorem run_coalescePrev {chunk q : Nat} (hfirst : Linked h h.firstFree (xs ++ [e]) q)
    (hys : Linked h chunk ys 0) (hext : Separated (xs ++ [e])) (hchunk : chunk ≠ 0)
    (hlt : chunk < 2 ^ 32) (hroom : ∀ f ∈ xs ++ [e], minChunkSize ≤ f.size)
    (hstop : e.stop < 2 ^ 32) (hle : ∀ y ∈ ys, e.stop ≤ y.start)
    (hsize : ∀ f ∈ e.join ys, f.size < 2 ^ 31) :
    ∃ h', (coalescePrev e.start chunk).run h = (.done (), h') ∧ h'.Free (xs ++ e.join ys) ∧
      Heap.OnlyAt e.start h h' := by
  obtain ⟨r, -, hr, hpos, hesize, -⟩ := Linked.append_iff.mp hfirst
  have hend : toUint32 ((e.start : Int) + (e.size : Int)) = e.stop := by
    rw [← Int.natCast_add]
    exact toUint32_of_lt hstop
  obtain ⟨y, ys, rfl⟩ : ∃ y zs, ys = y :: zs := by
    cases ys with
    | nil => exact absurd hys hchunk
    | cons y zs => exact ⟨y, zs, rfl⟩
  obtain ⟨rfl, hy, hysize, hrest⟩ := hys
  have hxs (x : Extent) (hx : x ∈ xs) : x.start + minChunkSize ≤ e.start :=
    start_add_le (hroom x (by simp [hx])) (Nat.le_of_lt (hext.stop_lt hx))
  have hafter (z : Extent) (hz : z ∈ y :: ys) : e.start + minChunkSize ≤ z.start :=
    start_add_le (hroom e (by simp)) (hle z hz)
  rw [coalescePrev, Prog.run_get_bind, if_pos hpos, hesize, hend]
  rw [Extent.join] at hsize ⊢
  by_cases htouch : e.stop = y.start
  · rw [if_pos htouch] at hsize
    have hsum : e.size + y.size < 2 ^ 31 := hsize _ List.mem_cons_self
    have hsame := (h.onlyAt_setSize e.start ((e.size + y.size : Nat) : Int)).chunk_eq
      (Or.inr (hafter y List.mem_cons_self))
    have honly := h.onlyAt_setBoth e.start ((e.size + y.size : Nat) : Int) (h.chunk y.start).next
    rw [if_pos htouch, if_pos htouch, hysize, ← Int.natCast_add,
      Prog.bind_done (Prog.run_checkInt (by omega) (by omega) _), Prog.run_modify_bind,
      Prog.run_modify, hsame]
    refine ⟨_, rfl, ?_, honly⟩
    rw [List.append_cons]
    exact Linked.append_iff.mpr ⟨_, hfirst.update_last honly hxs
      (h.chunk_setBoth e.start (by omega) (by omega) (h.next_lt _)),
      hrest.congr fun z hz => honly.chunk_eq (Or.inr (hafter z (List.mem_cons_of_mem y hz)))⟩
  · have honly := h.onlyAt_setNext e.start y.start
    rw [if_neg htouch, if_neg htouch]
    refine ⟨_, rfl, ?_, honly⟩
    rw [List.append_cons]
    exact Linked.append_iff.mpr ⟨_, hfirst.setNext hxs hlt,
      Linked.congr ⟨rfl, hy, hysize, hrest⟩ fun z hz => honly.chunk_eq (Or.inr (hafter z hz))⟩

/-- `__malloc_free` of a block that meets no free chunk. -/
theorem run_mallocFree (hfree : h.Free (xs ++ ys)) (hext : Separated (xs ++ ys))
    (hin : Inside arena.base arena.top (xs ++ ys))
    (hroom : ∀ f ∈ xs ++ ys, minChunkSize ≤ f.size) (he : e.size = roundUp n)
    (hsize : minChunkSize ≤ e.size) (hbase : arena.base ≤ e.start) (htop : e.stop ≤ arena.top)
    (hn : n + minChunkSize < 2 ^ 31) (hxs : ∀ x ∈ xs, x.stop ≤ e.start)
    (hys : ∀ y ∈ ys, e.stop ≤ y.start) (hfuel : (xs ++ ys).length < fuel) :
    ∃ h', (mallocFree fuel e.start n).run h = (.done (), h') ∧ h'.Free (giveBack xs e ys) ∧
      ∀ a ∉ cover (xs ++ ys) ∪ e.cells, h'.memory a = h.memory a := by
  obtain ⟨q, hfirst, hrest⟩ := Linked.append_iff.mp hfree
  obtain ⟨hxsep, -, -⟩ := Separated.append_iff.mp hext
  have hpos : e.start ≠ 0 := by
    have hbase' := arena.base_pos
    omega
  have hstop : e.stop < 2 ^ 32 := htop.trans_lt arena.top_lt
  have hestart : e.start < 2 ^ 32 := Nat.lt_of_le_of_lt (Nat.le_add_right _ _) hstop
  have hsmall {fs : List Extent} (hfs : Inside arena.base arena.top fs) (f : Extent)
      (hf : f ∈ fs) : f.size < 2 ^ 31 := (hfs.size_le hf).trans_lt arena.small
  have hscan : (scan (fun next _ => next < e.start) fuel 0 h.firstFree).run h =
      (.done (lastStart 0 xs, q), h) := by
    refine run_scan hfirst hrest (fun x hx => ?_) (fun y hy => ?_) ?_
    · have hx' := hxs x hx
      have hxpos := hxsep.size_pos x hx
      rw [Extent.stop] at hx'
      exact decide_eq_true (by omega)
    · have hy' := hys y (List.mem_of_mem_head? hy)
      rw [Extent.stop] at hy'
      exact decide_eq_false (by omega)
    · rw [List.length_append] at hfuel
      omega
  have hq : q < 2 ^ 32 := hrest.lt_word fun y hy => by
    have hytop := (hin y (List.mem_append_right xs hy)).2
    have harena := arena.top_lt
    rw [Extent.stop] at hytop
    omega
  have hjoin : Inside arena.base arena.top (e.join ys) :=
    Inside.join ⟨hbase, htop⟩ fun y hy => hin y (List.mem_append_right xs hy)
  rw [mallocFree, Prog.run_get_bind, Prog.bind_done (run_alignUp hn h), Prog.bind_done hscan, ← he]
  dsimp only
  obtain ⟨h₁, hnext, hfree₁, hlinked, hframe⟩ :=
    run_coalesceNext hrest hpos hsize hstop hq hys (hsmall hjoin)
  rw [Prog.bind_done hnext]
  have hsame {a : Nat} (ha : a ∉ cover (xs ++ ys) ∪ e.cells) : h₁.memory a = h.memory a :=
    hframe.eq_of_notMem (List.mem_singleton_self e) hsize
      (by simpa using fun hmem => ha (Or.inr hmem))
  rcases List.eq_nil_or_concat' xs with rfl | ⟨init, prev, rfl⟩
  · obtain ⟨h₂, hprev, hfree₂, hmem⟩ := run_coalescePrev_none hlinked
    exact ⟨h₂, hprev, hfree₂, fun a ha => by rw [hmem, hsame ha]⟩
  · have hprev : prev ∈ init ++ [prev] := by simp
    have hxroom (x : Extent) (hx : x ∈ init ++ [prev]) : minChunkSize ≤ x.size :=
      hroom x (List.mem_append_left ys hx)
    have hfirst₁ : Linked h₁ h₁.firstFree (init ++ [prev]) q := by
      rw [hfree₁]
      exact hfirst.congr fun x hx =>
        hframe.chunk_eq (Or.inl (start_add_le (hxroom x hx) (hxs x hx)))
    obtain ⟨h₂, hrun, hfree₂, hframe₂⟩ := run_coalescePrev hfirst₁ hlinked hxsep hpos hestart hxroom
      ((hxs prev hprev).trans_lt hestart)
      (fun g hg => (hxs prev hprev).trans (le_of_mem_join hys hg))
      (hsmall (Inside.join (hin prev (by simp)) hjoin))
    rw [show lastStart 0 (init ++ [prev]) = prev.start by simp [lastStart]]
    refine ⟨h₂, hrun, by rwa [giveBack_append_singleton], fun a ha => ?_⟩
    rw [hframe₂.eq_of_notMem (List.mem_append_left ys hprev) (hxroom prev hprev)
      fun hmem => ha (Or.inl hmem), hsame ha]

end

end Mlonmcu.Gvsoc
