import Mathlib.Logic.Relation
import Mlonmcu.Gvsoc.Aligned

/-! The allocator with its callers, over all orders of their calls and stores. -/

namespace Mlonmcu.Gvsoc

open CLib Relation

/-- The allocator, the blocks that its callers hold, with the sizes they asked for, and what they
have stored in them. -/
structure World where
  heap : Heap
  live : List Extent
  stored : Nat → Option UInt8

/-- The block for a request. -/
def block (e : Extent) : Extent := ⟨e.start, roundUp e.size⟩

namespace World

/-- The addresses of the blocks. -/
def used (w : World) : Set Nat := cover (w.live.map block)

/-- What is stored outside a block. -/
def forget (p size : Nat) (stored : Nat → Option UInt8) (a : Nat) : Option UInt8 :=
  if p ≤ a ∧ a < p + size then none else stored a

/-- The callers get a block, unless it is `NULL`. -/
def acquired (w : World) (p n : Nat) (h : Heap) : World where
  heap := h
  live := if p = 0 then w.live else ⟨p, n⟩ :: w.live
  stored := if p = 0 then w.stored else forget p (roundUp n) w.stored

/-- The callers give a block back. -/
def released (w : World) (e : Extent) (h : Heap) : World where
  heap := h
  live := w.live.erase e
  stored := forget e.start (roundUp e.size) w.stored

/-- A byte is stored at an address. -/
def store (w : World) (a : Nat) (byte : UInt8) : World :=
  { w with
    heap := { w.heap with memory := Function.update w.heap.memory a byte }
    stored := Function.update w.stored a (some byte) }

end World

/-- A call that returns, or a store to a block that is held. -/
inductive Step : World → World → Prop
  | malloc (w : World) (fuel n p : Nat) (h : Heap) : 0 < n → n + minChunkSize < 2 ^ 31 →
      (malloc fuel n).run w.heap = (.done p, h) → Step w (w.acquired p n h)
  | mallocAlign (w : World) (fuel n : Nat) (align : Int) (p : Nat) (h : Heap) : 0 < n →
      KeepsApart w.heap n align → (mallocAlign fuel n align).run w.heap = (.done p, h) →
      Step w (w.acquired p n h)
  | free (w : World) (fuel : Nat) (e : Extent) (h : Heap) : e ∈ w.live →
      (mallocFree fuel e.start e.size).run w.heap = (.done (), h) → Step w (w.released e h)
  | store (w : World) (e : Extent) (a : Nat) (byte : UInt8) : e ∈ w.live →
      a ∈ (block e).cells → Step w (w.store a byte)

/-- What holds between the calls: the free chunks and the blocks share the arena without overlap,
and the blocks hold what has been stored in them. -/
structure World.Valid (arena : Arena) (w : World) (free : List Extent) : Prop where
  heap : w.heap.Valid arena free
  size : ∀ e ∈ w.live, 0 < e.size ∧ e.size + minChunkSize < 2 ^ 31
  aligned : ∀ e ∈ w.live, minChunkSize ∣ e.start
  disjoint : w.live.Pairwise fun e f => Disjoint (block e).cells (block f).cells
  apart : Disjoint (cover free) w.used
  all : cover free ∪ w.used = Set.Ico arena.base arena.top
  kept : ∀ a byte, w.stored a = some byte → a ∈ w.used ∧ w.heap.memory a = byte

section

variable {arena : Arena} {w : World} {free free' : List Extent} {h : Heap} {n p : Nat}

/-- A new block. -/
theorem World.Valid.acquired (hvalid : w.Valid arena free) (hpos : 0 < n)
    (hn : n + minChunkSize < 2 ^ 31) (htaken : Taken arena w.heap h free p (roundUp n)) :
    ∃ free', (w.acquired p n h).Valid arena free' := by
  obtain ⟨hp, hp8, hsub, ⟨free', hheap, hcover⟩, hframe⟩ := htaken
  have hlive : (w.acquired p n h).live = ⟨p, n⟩ :: w.live := if_neg hp
  have hstored : (w.acquired p n h).stored = forget p (roundUp n) w.stored := if_neg hp
  have hused : (w.acquired p n h).used = blockCells p (roundUp n) ∪ w.used := by
    rw [World.used, hlive, List.map_cons, cover_cons]
    rfl
  refine ⟨free', hheap, ?_, ?_, ?_, ?_, ?_, ?_⟩
  · rw [hlive]
    exact List.forall_mem_cons.mpr ⟨⟨hpos, hn⟩, hvalid.size⟩
  · rw [hlive]
    exact List.forall_mem_cons.mpr ⟨hp8, hvalid.aligned⟩
  · rw [hlive]
    refine List.pairwise_cons.mpr ⟨fun e he => ?_, hvalid.disjoint⟩
    exact (hvalid.apart.mono_left hsub).mono_right (subset_cover (List.mem_map_of_mem he))
  · rw [hused, hcover, Set.disjoint_union_right]
    exact ⟨Set.disjoint_sdiff_left, hvalid.apart.mono_left Set.sdiff_subset⟩
  · rw [hused, hcover, ← Set.union_assoc, Set.sdiff_union_of_subset hsub, hvalid.all]
  · intro a byte ha
    rw [hstored, World.forget] at ha
    split at ha
    · cases ha
    · obtain ⟨hmem, hbyte⟩ := hvalid.kept a byte ha
      refine ⟨hused ▸ Or.inr hmem, ?_⟩
      exact (hframe a fun hfree => Set.disjoint_left.mp hvalid.apart hfree hmem).trans hbyte

/-- A block among the others. -/
theorem World.Valid.used_erase (hvalid : w.Valid arena free) {e : Extent} (he : e ∈ w.live) :
    w.used = (block e).cells ∪ cover ((w.live.erase e).map block) ∧
      Disjoint (block e).cells (cover ((w.live.erase e).map block)) := by
  have hperm := List.perm_cons_erase he
  constructor
  · rw [← cover_cons, ← List.map_cons]
    ext a
    exact ⟨fun ⟨f, hf, ha⟩ => ⟨f, (hperm.map block).mem_iff.mp hf, ha⟩,
      fun ⟨f, hf, ha⟩ => ⟨f, (hperm.map block).mem_iff.mpr hf, ha⟩⟩
  · have hpairs := (hperm.pairwise_iff fun h => h.symm).mp hvalid.disjoint
    rw [Set.disjoint_left]
    rintro a ha ⟨f, hf, haf⟩
    obtain ⟨g, hg, rfl⟩ := List.mem_map.mp hf
    exact Set.disjoint_left.mp ((List.pairwise_cons.mp hpairs).1 g hg) ha haf

/-- A block that is given back. -/
theorem World.Valid.run_free (hvalid : w.Valid arena free) {e : Extent} (he : e ∈ w.live)
    {fuel : Nat} (hfuel : free.length < fuel) :
    ∃ h free', (mallocFree fuel e.start e.size).run w.heap = (.done (), h) ∧
      (w.released e h).Valid arena free' := by
  obtain ⟨hused, hdisj⟩ := hvalid.used_erase he
  obtain ⟨hpos, hsmall⟩ := hvalid.size e he
  have hsub : (block e).cells ⊆ Set.Ico arena.base arena.top := by
    rw [← hvalid.all, hused]
    exact fun a ha => Or.inr (Or.inl ha)
  have hround : 0 < roundUp e.size := hpos.trans_le (le_roundUp _)
  have hbase : arena.base ≤ e.start := (hsub (Extent.start_mem hround)).1
  have htop : e.start + roundUp e.size ≤ arena.top := by
    have hlast : e.start + roundUp e.size - 1 ∈ (block e).cells :=
      ⟨show e.start ≤ _ by omega, show _ < e.start + roundUp e.size by omega⟩
    have hlt := (hsub hlast).2
    omega
  have hapart : Disjoint (block e).cells (cover free) :=
    (hvalid.apart.mono_right (hused ▸ Set.subset_union_left)).symm
  obtain ⟨h, free', hrun, hheap, hcover, hframe⟩ := mallocFree_spec hvalid.heap hpos hsmall
    (hvalid.aligned e he) hbase htop hapart hfuel
  have hmem (f : Extent) (hf : f ∈ w.live.erase e) : f ∈ w.live := List.mem_of_mem_erase hf
  refine ⟨h, free', hrun, hheap, fun f hf => hvalid.size f (hmem f hf),
    fun f hf => hvalid.aligned f (hmem f hf), hvalid.disjoint.sublist List.erase_sublist, ?_, ?_,
    ?_⟩
  · rw [hcover, Set.disjoint_union_left]
    exact ⟨hvalid.apart.mono_right (hused ▸ Set.subset_union_right), hdisj⟩
  · rw [hcover, Set.union_assoc]
    exact (congrArg (cover free ∪ ·) hused.symm).trans hvalid.all
  · intro a byte ha
    change World.forget e.start (roundUp e.size) w.stored a = some byte at ha
    rw [World.forget] at ha
    split at ha
    · cases ha
    · case isFalse hout =>
      obtain ⟨hin, hbyte⟩ := hvalid.kept a byte ha
      have hin' : a ∈ (w.released e h).used := (hused ▸ hin).resolve_left hout
      refine ⟨hin', (hframe a fun hfree => ?_).trans hbyte⟩
      exact hfree.elim (fun hfree => Set.disjoint_left.mp hvalid.apart hfree hin) hout

/-- A store to a block. -/
theorem World.Valid.store (hvalid : w.Valid arena free) {e : Extent} (he : e ∈ w.live) {a : Nat}
    (ha : a ∈ (block e).cells) (byte : UInt8) : (w.store a byte).Valid arena free := by
  have hused : a ∈ w.used := subset_cover (List.mem_map_of_mem he) ha
  have hfree : a ∉ cover free := fun hfree => Set.disjoint_left.mp hvalid.apart hfree hused
  have hlinked : (w.store a byte).heap.Free free := hvalid.heap.linked.congr fun f hf => by
    -- The two fields of a free chunk are free bytes.
    have hroom := hvalid.heap.room f hf
    refine Heap.chunk_congr fun b hb hb' => Function.update_of_ne ?_ _ _
    rintro rfl
    exact hfree (subset_cover hf ⟨hb, by rw [Extent.stop]; omega⟩)
  refine ⟨⟨hvalid.heap.toSeparated, hlinked, hvalid.heap.inside, hvalid.heap.aligned⟩, hvalid.size,
    hvalid.aligned, hvalid.disjoint, hvalid.apart, hvalid.all, fun b c hb => ?_⟩
  change Function.update w.stored a (some byte) b = some c at hb
  change b ∈ w.used ∧ Function.update w.heap.memory a byte b = c
  rcases eq_or_ne b a with rfl | hne
  · rw [Function.update_self] at hb ⊢
    exact ⟨hused, Option.some_inj.mp hb⟩
  · rw [Function.update_of_ne hne] at hb ⊢
    exact hvalid.kept b c hb

theorem World.Valid.step (hvalid : w.Valid arena free) {w' : World} (hstep : Step w w') :
    ∃ free', w'.Valid arena free' := by
  have hlength := hvalid.heap.length_le
  -- A call that returns ends as it does with more fuel.
  have hmore (fuel : Nat) : arena.top - arena.base < fuel + (arena.top - arena.base + 1) := by omega
  cases hstep with
  | malloc fuel n p h hpos hn hrun =>
    obtain ⟨p', h', hrun', hcase⟩ := malloc_spec hvalid.heap hn (hlength.trans_lt (hmore fuel))
    obtain ⟨rfl, rfl⟩ := (extends_malloc fuel _ n).done_eq hrun hrun'
    rcases hcase with ⟨rfl, rfl, -⟩ | htaken
    · exact ⟨free, hvalid⟩
    · exact hvalid.acquired hpos hn htaken
  | mallocAlign fuel n align p h hpos hkeeps hrun =>
    obtain ⟨p', h', hrun', hcase⟩ := hkeeps.spec hvalid.heap hpos (hmore fuel)
    obtain ⟨rfl, rfl⟩ := (extends_mallocAlign fuel _ n align).done_eq hrun hrun'
    rcases hcase with ⟨rfl, rfl⟩ | htaken
    · exact ⟨free, hvalid⟩
    · exact hvalid.acquired hpos hkeeps.size_lt htaken
  | free fuel e h he hrun =>
    obtain ⟨h', free', hrun', hvalid'⟩ := hvalid.run_free he (hlength.trans_lt (hmore fuel))
    obtain ⟨-, rfl⟩ := (extends_mallocFree fuel _ e.start e.size).done_eq hrun hrun'
    exact ⟨free', hvalid'⟩
  | store e a byte he ha => exact ⟨free, hvalid.store he ha byte⟩

theorem World.Valid.run (hvalid : w.Valid arena free) {w' : World}
    (hrun : ReflTransGen Step w w') : ∃ free', w'.Valid arena free' := by
  induction hrun with
  | refl => exact ⟨free, hvalid⟩
  | tail _ hlast ih =>
    obtain ⟨free', hvalid'⟩ := ih
    exact hvalid'.step hlast

end

/-! ### From the start on -/

/-- The arguments of `__malloc_init`: a region that holds a chunk. -/
structure Region where
  chunk : Nat
  size : Nat
  chunk_pos : 0 < chunk
  room : roundUp chunk + minChunkSize ≤ chunk + size
  top_lt : chunk + size < 2 ^ 32
  size_lt : size < 2 ^ 31
  /-- `ALIGN_UP` of the pointer, as an `int32_t`, does not overflow. -/
  no_overflow : chunk + minChunkSize < 2 ^ 31 ∨ 2 ^ 31 ≤ chunk

namespace Region

def base (r : Region) : Nat := roundUp r.chunk

def top (r : Region) : Nat :=
  roundUp r.chunk + (r.chunk + r.size - roundUp r.chunk) / minChunkSize * minChunkSize

theorem base_pos (r : Region) : 0 < r.base :=
  Nat.lt_of_lt_of_le r.chunk_pos (le_roundUp _)

theorem base_lt_top (r : Region) : r.base < r.top := by
  have hroom := r.room
  rw [base, top]
  rw [minChunkSize] at hroom ⊢
  omega

theorem top_le (r : Region) : r.top ≤ r.chunk + r.size := by
  have hroom := r.room
  rw [top]
  rw [minChunkSize] at hroom ⊢
  omega

theorem top_lt_word (r : Region) : r.top < 2 ^ 32 :=
  Nat.lt_of_le_of_lt r.top_le r.top_lt

theorem length_lt (r : Region) : r.top - r.base < 2 ^ 31 := by
  have htop := r.top_le
  have hsize := r.size_lt
  have hle : r.chunk ≤ r.base := le_roundUp r.chunk
  omega

/-- The multiples of the size of a chunk in the region. -/
def arena (r : Region) : Arena where
  base := r.base
  top := r.top
  base_pos := r.base_pos
  base_lt := r.base_lt_top
  top_lt := r.top_lt_word
  small := r.length_lt

/-- The one chunk at the start. -/
def whole (r : Region) : Extent := ⟨r.arena.base, r.arena.top - r.arena.base⟩

theorem whole_eq (r : Region) : r.whole = ⟨roundUp r.chunk,
    (r.chunk + r.size - roundUp r.chunk) / minChunkSize * minChunkSize⟩ := by
  simp [whole, arena, base, top]

theorem stop_whole (r : Region) : r.whole.stop = r.arena.top :=
  Nat.add_sub_cancel' (Nat.le_of_lt r.arena.base_lt)

theorem arena_le (r : Region) : r.arena.top - r.arena.base ≤ r.size := by
  have htop : r.arena.top ≤ r.chunk + r.size := r.top_le
  have hle : r.chunk ≤ r.arena.base := le_roundUp r.chunk
  omega

theorem run_mallocInit (r : Region) (h : Heap) :
    ∃ h', (mallocInit r.chunk r.size).run h = (.done (), h') ∧ h'.Valid r.arena [r.whole] := by
  have hpos := r.chunk_pos
  have hroom := r.room
  have htop := r.top_lt
  have hsize := r.size_lt
  have hover := r.no_overflow
  obtain ⟨start, hstart⟩ : ∃ start, roundUp r.chunk = start := ⟨_, rfl⟩
  have hchunk : start = (r.chunk + 7) / 8 * 8 := hstart.symm
  rw [hstart, minChunkSize] at hroom
  rw [minChunkSize] at hover
  have hlow : -2 ^ 31 ≤ toInt32 r.chunk + minChunkSize := by
    rw [toInt32, minChunkSize]
    split <;> omega
  have hhigh : toInt32 r.chunk + minChunkSize < 2 ^ 31 := by
    rw [toInt32, minChunkSize]
    split <;> omega
  have haligned : alignDown (toInt32 r.chunk + minChunkSize - 1) = toInt32 start := by
    rw [alignDown, minChunkSize, toInt32, toInt32]
    split <;> split <;> omega
  have hptr : toUint32 (toInt32 start) = start := by
    rw [toInt32, toUint32]
    split <;> omega
  have hskip : toInt32 start - toInt32 r.chunk = start - r.chunk := by
    rw [toInt32, toInt32]
    split <;> split <;> omega
  have hleft : (r.size : Int) - (start - r.chunk) = (r.chunk + r.size - start : Nat) := by omega
  have hdown : alignDown (r.chunk + r.size - start : Nat) =
      ((r.chunk + r.size - start) / 8 * 8 : Nat) := by
    rw [alignDown, minChunkSize]
    omega
  have hwhole := r.whole_eq
  rw [hstart, minChunkSize] at hwhole
  refine ⟨({ h with firstFree := start }.setSize start
    ((r.chunk + r.size - start) / 8 * 8 : Nat)).setNext start 0, ?_, ⟨?_, ?_, ?_, ?_⟩⟩
  · rw [mallocInit, alignUp, Prog.run_bind_assoc, Prog.bind_done (Prog.run_checkInt hlow hhigh _),
      Prog.run_pure_bind, haligned, hptr, Prog.run_modify_bind, hskip,
      Prog.bind_done (Prog.run_checkInt (by omega) (by omega) _), hleft,
      Prog.bind_done (Prog.run_checkInt (by omega) (by omega) _), if_pos (by omega), hdown]
    rfl
  · exact Separated.cons_iff.mpr ⟨Nat.sub_pos_of_lt r.arena.base_lt, by simp, .nil⟩
  · rw [hwhole]
    rw [Heap.Free, Linked, Heap.chunk_setBoth _ start (by omega) (by omega) (by decide)]
    exact ⟨rfl, show start ≠ 0 by omega, rfl, rfl⟩
  · exact List.forall_mem_cons.mpr ⟨⟨Nat.le_refl _, Nat.le_of_eq r.stop_whole⟩, by simp⟩
  · rw [whole_eq]
    exact List.forall_mem_cons.mpr ⟨⟨dvd_roundUp _, Nat.dvd_mul_left _ _⟩, by simp⟩

/-- The allocator after `__malloc_init`, when nothing is in use. -/
def start (h : Heap) : World := ⟨h, [], fun _ => none⟩

theorem valid_start (r : Region) {h : Heap} (hvalid : h.Valid r.arena [r.whole]) :
    (start h).Valid r.arena [r.whole] := by
  refine ⟨hvalid, nofun, nofun, .nil, ?_, ?_, nofun⟩
  · simp [World.used, start]
  · rw [World.used, start, List.map_nil, cover_nil, Set.union_empty, cover_cons, cover_nil,
      Set.union_empty, Extent.cells, stop_whole]
    rfl

end Region

/-- The states that the callers can reach after `__malloc_init`. -/
def Reachable (r : Region) (w : World) : Prop :=
  ∃ h₀ h, (mallocInit r.chunk r.size).run h₀ = (.done (), h) ∧
    ReflTransGen Step (Region.start h) w

/-- The list of the free chunks is never longer than the region. -/
theorem World.Valid.length_le {r : Region} {w : World} {free : List Extent}
    (hvalid : w.Valid r.arena free) : free.length ≤ r.size :=
  hvalid.heap.length_le.trans r.arena_le

theorem Reachable.valid {r : Region} {w : World} (hw : Reachable r w) :
    ∃ free, w.Valid r.arena free := by
  obtain ⟨h₀, h, hinit, hrun⟩ := hw
  obtain ⟨h', hinit', hvalid⟩ := r.run_mallocInit h₀
  rw [hinit] at hinit'
  obtain rfl : h = h' := (Prod.mk.inj hinit').2
  exact (r.valid_start hvalid).run hrun

/-- Every call that the callers may make returns. -/
structure World.Returns (w : World) (fuel : Nat) : Prop where
  malloc : ∀ n, 0 < n → n + minChunkSize < 2 ^ 31 →
    ∃ p h, (malloc fuel n).run w.heap = (.done p, h)
  mallocAlign : ∀ n align, 0 < n → KeepsApart w.heap n align →
    ∃ p h, (mallocAlign fuel n align).run w.heap = (.done p, h)
  free : ∀ e ∈ w.live, ∃ h, (mallocFree fuel e.start e.size).run w.heap = (.done (), h)

/-- A region for eight chunks. -/
def small : Region := ⟨16, 64, by decide, by decide, by decide, by decide, by decide⟩

/-- The region as one chunk, in a memory of zeros. -/
def smallHeap : Heap := (Heap.setSize 16 64 ⟨fun _ => 0, 16⟩).setNext 16 0

/-- The caller has asked for ten bytes. -/
def blockWorld : World := (Region.start smallHeap).acquired 64 10 (smallHeap.setSize 16 48)

theorem reachable_blockWorld : Reachable small blockWorld :=
  ⟨⟨fun _ => 0, 0⟩, _, rfl, .single (.malloc _ 2 10 64 _ (by decide) (by decide) rfl)⟩

theorem reachable_stored : Reachable small (blockWorld.store 64 7) := by
  obtain ⟨h₀, h, hinit, hrun⟩ := reachable_blockWorld
  exact ⟨h₀, h, hinit, hrun.tail (.store _ ⟨64, 10⟩ 64 _ (.head _) ⟨by decide, by decide⟩)⟩

theorem World.Valid.cover_eq {arena : Arena} {w : World} {free : List Extent}
    (hvalid : w.Valid arena free) : cover free = Set.Ico arena.base arena.top \ w.used := by
  rw [← hvalid.all, Set.union_sdiff_right, hvalid.apart.sdiff_eq_left]

theorem World.Valid.unique {arena : Arena} {w w' : World} {free free' : List Extent}
    (hvalid : w.Valid arena free) (hvalid' : w'.Valid arena free') (hperm : w.live.Perm w'.live) :
    free = free' := by
  refine hvalid.heap.eq_of_cover hvalid'.heap.toSeparated ?_
  have hused : w.used = w'.used := by
    ext a
    exact ⟨fun ⟨f, hf, ha⟩ => ⟨f, (hperm.map block).mem_iff.mp hf, ha⟩,
      fun ⟨f, hf, ha⟩ => ⟨f, (hperm.map block).mem_iff.mpr hf, ha⟩⟩
  rw [hvalid.cover_eq, hvalid'.cover_eq, hused]

/-- The free chunks and the blocks have the size of the arena. -/
theorem World.Valid.totalSize_add {arena : Arena} {w : World} {free : List Extent}
    (hvalid : w.Valid arena free) :
    totalSize free + totalSize (w.live.map block) = arena.top - arena.base := by
  rw [← hvalid.heap.ncard_cover, ← ncard_cover (List.pairwise_map.mpr hvalid.disjoint),
    ← ncard_Ico, ← hvalid.all]
  exact (Set.ncard_union_eq hvalid.apart (finite_cover _) (finite_cover _)).symm

/-- The free chunks depend only on the blocks in use, whatever calls led there.  When nothing is in
use, they are the one chunk of the start. -/
theorem freeChunks_determined {r : Region} {w w' : World} (hw : Reachable r w)
    (hw' : Reachable r w') (hperm : w.live.Perm w'.live) :
    ∃ free, w.heap.Free free ∧ w'.heap.Free free ∧ (w.live = [] → free = [r.whole]) := by
  obtain ⟨free, hvalid⟩ := hw.valid
  obtain ⟨free', hvalid'⟩ := hw'.valid
  obtain rfl := hvalid.unique hvalid' hperm
  refine ⟨free, hvalid.heap.linked, hvalid'.heap.linked, fun hlive => ?_⟩
  obtain ⟨h, -, hstart⟩ := r.run_mallocInit w.heap
  exact hvalid.unique (r.valid_start hstart) (hlive ▸ .nil)

theorem freeChunks_determined_block : ∃ free, blockWorld.heap.Free free ∧
    (blockWorld.store 64 7).heap.Free free ∧ (blockWorld.live = [] → free = [small.whole]) :=
  freeChunks_determined reachable_blockWorld reachable_stored (.refl _)

/-- `__malloc` returns, and it returns `NULL` only when no addresses in a row are free for the
request. -/
theorem malloc_null_iff {r : Region} {w : World} (hw : Reachable r w) {n fuel : Nat} (hpos : 0 < n)
    (hn : n + minChunkSize < 2 ^ 31) (hfuel : r.size < fuel) :
    ∃ p h, (malloc fuel n).run w.heap = (.done p, h) ∧
      (p = 0 ↔ ∀ a, ¬blockCells a (roundUp n) ⊆ Set.Ico r.arena.base r.arena.top \ w.used) := by
  obtain ⟨free, hvalid⟩ := hw.valid
  obtain ⟨p, h, hrun, hcase⟩ := malloc_spec hvalid.heap hn (hvalid.length_le.trans_lt hfuel)
  refine ⟨p, h, hrun, ?_⟩
  rw [← hvalid.cover_eq]
  rcases hcase with ⟨rfl, -, hsmall⟩ | htaken
  · refine iff_of_true rfl fun a hsub => ?_
    obtain ⟨e, he, hstart, hstop⟩ :=
      hvalid.heap.exists_extent (hpos.trans_le (le_roundUp n)) hsub
    have hlt := hsmall e he
    rw [Extent.stop] at hstop
    omega
  · exact iff_of_false htaken.ne_zero fun hnone => hnone p htaken.subset

theorem malloc_null_iff_block : ∃ p h, (malloc 65 3).run blockWorld.heap = (.done p, h) ∧
    (p = 0 ↔ ∀ a, ¬blockCells a (roundUp 3) ⊆
      Set.Ico small.arena.base small.arena.top \ blockWorld.used) :=
  malloc_null_iff reachable_blockWorld (by decide) (by decide) (by decide)

/-- The callers give blocks back one after the other. -/
def freeAll (fuel : Nat) : List Extent → Prog Heap Unit
  | [] => pure ()
  | e :: es => do
    mallocFree fuel e.start e.size
    freeAll fuel es

/-- Whatever has been called, all calls of `__malloc_free` for the blocks in use return, in every
order of these calls, and then the memory is one free chunk again. -/
theorem freeAll_whole {r : Region} {w : World} (hw : Reachable r w) {es : List Extent}
    (hperm : es.Perm w.live) {fuel : Nat} (hfuel : r.size < fuel) :
    ∃ h, (freeAll fuel es).run w.heap = (.done (), h) ∧ h.Free [r.whole] := by
  obtain ⟨free, hvalid⟩ := hw.valid
  clear hw
  induction es generalizing w free with
  | nil =>
    obtain ⟨h, -, hstart⟩ := r.run_mallocInit w.heap
    obtain rfl := hvalid.unique (r.valid_start hstart) hperm.symm
    exact ⟨w.heap, rfl, hvalid.heap.linked⟩
  | cons e es ih =>
    have he : e ∈ w.live := hperm.subset List.mem_cons_self
    obtain ⟨h, free', hrun, hvalid'⟩ := hvalid.run_free he (hvalid.length_le.trans_lt hfuel)
    have htail : es.Perm (w.released e h).live :=
      (hperm.trans (List.perm_cons_erase he)).cons_inv
    obtain ⟨h', hrest, hfree⟩ := ih htail free' hvalid'
    refine ⟨h', ?_, hfree⟩
    rw [freeAll, Prog.bind_done hrun]
    exact hrest

theorem freeAll_whole_block : ∃ h, (freeAll 65 [⟨64, 10⟩]).run blockWorld.heap = (.done (), h) ∧
    h.Free [small.whole] :=
  freeAll_whole reachable_blockWorld (.refl _) (by decide)

/-! ### `__malloc_info` -/

theorem run_infoLoop {h : Heap} {es : List Extent} {fuel p size count : Nat}
    (hlinked : Linked h p es 0) (hsize : size + totalSize es < 2 ^ 31)
    (hcount : count + es.length < 2 ^ 31) (hfuel : es.length < fuel) :
    (infoLoop fuel p size count).run h =
      (.done ((size + totalSize es : Nat), (count + es.length : Nat)), h) := by
  induction es generalizing fuel p size count with
  | nil =>
    obtain ⟨fuel, rfl⟩ : ∃ m, fuel = m + 1 := ⟨fuel - 1, by omega⟩
    obtain rfl : p = 0 := hlinked
    rfl
  | cons e es ih =>
    obtain ⟨fuel, rfl⟩ : ∃ m, fuel = m + 1 := ⟨fuel - 1, by omega⟩
    obtain ⟨rfl, hne, he, htail⟩ := hlinked
    have htotal : size + totalSize (e :: es) = size + e.size + totalSize es := by
      simp [totalSize, Nat.add_assoc]
    rw [List.length_cons] at hcount hfuel ⊢
    rw [htotal] at hsize ⊢
    have hnext := @ih fuel (h.chunk e.start).next (size + e.size) (count + 1) htail hsize
      (by omega) (by omega)
    rw [show count + 1 + es.length = count + (es.length + 1) by omega] at hnext
    have hlow : -2 ^ 31 ≤ (count : Int) + 1 := by omega
    have hhigh : (count : Int) + 1 < 2 ^ 31 := by omega
    rw [← hnext, infoLoop, Prog.run_get_bind, if_pos hne, he, ← Int.natCast_add,
      Prog.bind_done (Prog.run_checkInt (by omega) (by omega) _),
      Prog.bind_done (Prog.run_checkInt hlow hhigh _)]
    rfl

/-- `__malloc_info` reports the addresses of the arena that are in no block. -/
theorem mallocInfo_eq {r : Region} {w : World} (hw : Reachable r w) {fuel : Nat}
    (hfuel : r.size < fuel) :
    ∃ free, w.heap.Free free ∧ (mallocInfo fuel).run w.heap =
      (.done ((r.arena.top - r.arena.base - totalSize (w.live.map block) : Nat), free.length),
        w.heap) := by
  obtain ⟨free, hvalid⟩ := hw.valid
  have htotal := hvalid.totalSize_add
  have hlength := hvalid.length_le
  have hsmall := r.arena.small
  have hsize := r.size_lt
  refine ⟨free, hvalid.heap.linked, ?_⟩
  have hrun := @run_infoLoop w.heap free fuel w.heap.firstFree 0 0 hvalid.heap.linked (by omega)
    (by omega) (hlength.trans_lt hfuel)
  rw [Nat.zero_add, Nat.zero_add] at hrun
  rw [mallocInfo, Prog.run_get_bind,
    show r.arena.top - r.arena.base - totalSize (w.live.map block) = totalSize free by omega]
  exact hrun

theorem mallocInfo_eq_block : ∃ free, blockWorld.heap.Free free ∧
    (mallocInfo 65).run blockWorld.heap = (.done ((small.arena.top - small.arena.base -
      totalSize (blockWorld.live.map block) : Nat), free.length), blockWorld.heap) :=
  mallocInfo_eq reachable_blockWorld (by decide)

end Mlonmcu.Gvsoc
