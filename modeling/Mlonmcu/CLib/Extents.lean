import Mathlib.Data.List.Basic
import Mathlib.Data.Set.Card
import Mathlib.Order.CompletePartialOrder
import Mathlib.Order.Interval.Finset.Nat
import Mathlib.Order.Interval.Set.Basic

/-! Lists of extents with a gap between any two of them: the form in which an allocator keeps the
addresses that are free. -/

namespace CLib

/-- The addresses from `start` on, `size` of them. -/
@[ext]
structure Extent where
  start : Nat
  size : Nat
  deriving DecidableEq, Repr

namespace Extent

def stop (e : Extent) : Nat := e.start + e.size

def cells (e : Extent) : Set Nat := Set.Ico e.start e.stop

theorem mem_cells {e : Extent} {a : Nat} : a ∈ e.cells ↔ e.start ≤ a ∧ a < e.stop := Iff.rfl

theorem start_mem {e : Extent} (h : 0 < e.size) : e.start ∈ e.cells :=
  ⟨Nat.le_refl _, Nat.lt_add_of_pos_right h⟩

end Extent

/-- The addresses of some extents. -/
def cover (es : List Extent) : Set Nat := {a | ∃ e ∈ es, a ∈ e.cells}

@[simp] theorem cover_nil : cover [] = ∅ := by simp [cover]

@[simp] theorem cover_cons (e : Extent) (es : List Extent) :
    cover (e :: es) = e.cells ∪ cover es := by
  ext a
  simp [cover]

@[simp] theorem cover_append (xs ys : List Extent) : cover (xs ++ ys) = cover xs ∪ cover ys := by
  induction xs with
  | nil => simp
  | cons x xs ih => rw [List.cons_append, cover_cons, ih, cover_cons, Set.union_assoc]

theorem subset_cover {e : Extent} {es : List Extent} (h : e ∈ es) : e.cells ⊆ cover es :=
  fun _ ha => ⟨e, h, ha⟩

/-- No extent is empty, and each one ends before the next one starts. -/
structure Separated (es : List Extent) : Prop where
  size_pos : ∀ e ∈ es, 0 < e.size
  gaps : es.Pairwise fun e f => e.stop < f.start

/-- The extents lie between two addresses. -/
def Inside (base top : Nat) (es : List Extent) : Prop := ∀ e ∈ es, base ≤ e.start ∧ e.stop ≤ top

/-- The starts and the sizes are multiples of a number. -/
def Aligned (d : Nat) (es : List Extent) : Prop := ∀ e ∈ es, d ∣ e.start ∧ d ∣ e.size

theorem Inside.size_le {base top : Nat} {es : List Extent} (h : Inside base top es) {e : Extent}
    (he : e ∈ es) : e.size ≤ top - base := by
  obtain ⟨hbase, htop⟩ := h e he
  rw [Extent.stop] at htop
  omega

namespace Separated

variable {e : Extent} {es xs ys : List Extent}

theorem nil : Separated [] := ⟨nofun, .nil⟩

theorem cons_iff :
    Separated (e :: es) ↔ 0 < e.size ∧ (∀ f ∈ es, e.stop < f.start) ∧ Separated es := by
  constructor
  · rintro ⟨hsize, hgaps⟩
    obtain ⟨hhead, htail⟩ := List.pairwise_cons.mp hgaps
    exact ⟨hsize e List.mem_cons_self, hhead,
      ⟨fun f hf => hsize f (List.mem_cons_of_mem _ hf), htail⟩⟩
  · rintro ⟨hsize, hhead, htail⟩
    exact ⟨List.forall_mem_cons.mpr ⟨hsize, htail.size_pos⟩,
      List.pairwise_cons.mpr ⟨hhead, htail.gaps⟩⟩

theorem append_iff : Separated (xs ++ ys) ↔
    Separated xs ∧ Separated ys ∧ ∀ x ∈ xs, ∀ y ∈ ys, x.stop < y.start := by
  constructor
  · rintro ⟨hsize, hgaps⟩
    obtain ⟨hxs, hys, hcross⟩ := List.pairwise_append.mp hgaps
    exact ⟨⟨fun x hx => hsize x (List.mem_append_left _ hx), hxs⟩,
      ⟨fun y hy => hsize y (List.mem_append_right _ hy), hys⟩, hcross⟩
  · rintro ⟨hxs, hys, hcross⟩
    refine ⟨fun e he => ?_, List.pairwise_append.mpr ⟨hxs.gaps, hys.gaps, hcross⟩⟩
    exact (List.mem_append.mp he).elim (hxs.size_pos e) (hys.size_pos e)

theorem stop_lt (h : Separated (xs ++ e :: ys)) {x : Extent} (hx : x ∈ xs) :
    x.stop < e.start := (append_iff.mp h).2.2 x hx e List.mem_cons_self

theorem lt_next (h : Separated (xs ++ e :: ys)) {y : Extent} (hy : y ∈ ys) :
    e.stop < y.start := (cons_iff.mp (append_iff.mp h).2.1).2.1 y hy

/-- The least address of the extents. -/
theorem start_le (h : Separated (e :: es)) {a : Nat} (ha : a ∈ cover (e :: es)) : e.start ≤ a := by
  obtain ⟨f, hf, hfa, -⟩ := ha
  rcases List.mem_cons.mp hf with rfl | hf
  · exact hfa
  · have hgap := (cons_iff.mp h).2.1 f hf
    rw [Extent.stop] at hgap
    omega

/-- The end of an extent is in none of them. -/
theorem stop_notMem (h : Separated es) (he : e ∈ es) : e.stop ∉ cover es := by
  rintro ⟨f, hf, hle, hlt⟩
  obtain ⟨xs, ys, rfl⟩ := List.append_of_mem he
  obtain ⟨-, hys, hcross⟩ := append_iff.mp h
  rcases List.mem_append.mp hf with hx | hy
  · have hgap := hcross f hx e List.mem_cons_self
    rw [Extent.stop] at hlt
    omega
  · rcases List.mem_cons.mp hy with rfl | hy
    · exact absurd hlt (Nat.lt_irrefl _)
    · have hgap := (cons_iff.mp hys).2.1 f hy
      omega

theorem disjoint_tail (h : Separated (e :: es)) : Disjoint e.cells (cover es) := by
  rw [Set.disjoint_left]
  rintro a ⟨-, hlt⟩ ⟨f, hf, hle, -⟩
  have hgap := (cons_iff.mp h).2.1 f hf
  omega

/-- An extent that meets none of the others lies in a gap between them. -/
theorem exists_gap (h : Separated es) (he : 0 < e.size) (hapart : Disjoint e.cells (cover es)) :
    ∃ xs ys, es = xs ++ ys ∧ (∀ x ∈ xs, x.stop ≤ e.start) ∧ ∀ y ∈ ys, e.stop ≤ y.start := by
  induction es with
  | nil => exact ⟨[], [], rfl, nofun, nofun⟩
  | cons f fs ih =>
    obtain ⟨hf, hgaps, hfs⟩ := cons_iff.mp h
    rw [cover_cons, Set.disjoint_union_right] at hapart
    rcases Nat.lt_or_ge e.start f.stop with hlt | hge
    · have hle : e.stop ≤ f.start := by
        by_contra hlt'
        have hmem : max e.start f.start ∈ e.cells ∩ f.cells := by
          simp only [Set.mem_inter_iff, Extent.mem_cells, Extent.stop] at hlt hlt' ⊢
          omega
        exact Set.disjoint_iff.mp hapart.1 hmem
      refine ⟨[], f :: fs, rfl, nofun, List.forall_mem_cons.mpr ⟨hle, fun y hy => ?_⟩⟩
      have hgap := hgaps y hy
      rw [Extent.stop] at hgap
      omega
    · obtain ⟨xs, ys, rfl, hxs, hys⟩ := ih hfs hapart.2
      exact ⟨f :: xs, ys, rfl, List.forall_mem_cons.mpr ⟨hge, hxs⟩, hys⟩

/-- Addresses in a row lie in one extent. -/
theorem exists_extent (h : Separated es) {a n : Nat} (hn : 0 < n)
    (hrow : Set.Ico a (a + n) ⊆ cover es) : ∃ e ∈ es, e.start ≤ a ∧ a + n ≤ e.stop := by
  obtain ⟨e, he, hle, hlt⟩ := hrow ⟨Nat.le_refl a, by omega⟩
  refine ⟨e, he, hle, ?_⟩
  by_contra hstop
  exact h.stop_notMem he (hrow ⟨Nat.le_of_lt hlt, by omega⟩)

private theorem head_le {f : Extent} {fs : List Extent} (he : Separated (e :: es))
    (hf : Separated (f :: fs)) (hcover : cover (e :: es) = cover (f :: fs)) :
    e.start ≤ f.start ∧ e.stop ≤ f.stop := by
  have hstart : e.start ≤ f.start := by
    refine he.start_le ?_
    rw [hcover]
    exact subset_cover List.mem_cons_self (Extent.start_mem (hf.size_pos f List.mem_cons_self))
  refine ⟨hstart, Nat.le_of_not_lt fun hlt => hf.stop_notMem List.mem_cons_self ?_⟩
  rw [← hcover]
  exact subset_cover List.mem_cons_self ⟨hstart.trans (Nat.le_add_right _ _), hlt⟩

/-- Addresses have only one list of separated extents. -/
theorem eq_of_cover {fs : List Extent} (he : Separated es) (hf : Separated fs)
    (hcover : cover es = cover fs) : es = fs := by
  have hempty {g : Extent} {gs : List Extent} (hg : Separated (g :: gs)) : cover (g :: gs) ≠ ∅ :=
    Set.Nonempty.ne_empty ⟨g.start, subset_cover List.mem_cons_self
      (Extent.start_mem (hg.size_pos g List.mem_cons_self))⟩
  induction es generalizing fs with
  | nil =>
    cases fs with
    | nil => rfl
    | cons f fs => exact absurd (hcover.symm.trans cover_nil) (hempty hf)
  | cons e es ih =>
    cases fs with
    | nil => exact absurd (hcover.trans cover_nil) (hempty he)
    | cons f fs =>
      obtain ⟨hstart, hstop⟩ := head_le he hf hcover
      obtain ⟨hstart', hstop'⟩ := head_le hf he hcover.symm
      obtain rfl : e = f := by
        simp only [Extent.stop] at hstop hstop'
        ext <;> omega
      rw [ih (cons_iff.mp he).2.2 (cons_iff.mp hf).2.2]
      have hsplit (gs : List Extent) (hg : Separated (e :: gs)) :
          cover gs = cover (e :: gs) \ e.cells := by
        rw [cover_cons, Set.union_sdiff_left, hg.disjoint_tail.sdiff_eq_right]
      rw [hsplit es he, hsplit fs hf, hcover]

end Separated

/-! ### Giving back and taking -/

/-- An extent in front of others, in one piece with the next one when they touch. -/
def Extent.join (e : Extent) : List Extent → List Extent
  | [] => [e]
  | f :: fs => if e.stop = f.start then ⟨e.start, e.size + f.size⟩ :: fs else e :: f :: fs

/-- An extent without its last `n` addresses, when something is left of it. -/
def Extent.rest (e : Extent) (n : Nat) : List Extent :=
  if e.size = n then [] else [⟨e.start, e.size - n⟩]

variable {e : Extent} {es xs ys : List Extent} {n : Nat}

theorem le_of_mem_join (h : ∀ f ∈ es, e.stop ≤ f.start) {g : Extent} (hg : g ∈ e.join es) :
    e.start ≤ g.start := by
  cases es with
  | nil =>
    rw [List.mem_singleton.mp hg]
  | cons f fs =>
    have hle (g : Extent) (hg : g ∈ f :: fs) : e.start ≤ g.start :=
      (Nat.le_add_right _ _).trans (h g hg)
    rw [Extent.join] at hg
    split at hg
    all_goals rcases List.mem_cons.mp hg with rfl | hg
    · exact Nat.le_refl _
    · exact hle g (List.mem_cons_of_mem f hg)
    · exact Nat.le_refl _
    · exact hle g hg

theorem Inside.join {base top : Nat} (he : base ≤ e.start ∧ e.stop ≤ top)
    (h : Inside base top es) : Inside base top (e.join es) := by
  cases es with
  | nil => exact fun g hg => List.mem_singleton.mp hg ▸ he
  | cons f fs =>
    rw [Extent.join]
    split
    case isTrue htouch =>
      intro g hg
      rcases List.mem_cons.mp hg with rfl | hg
      · have hf := (h f List.mem_cons_self).2
        simp only [Extent.stop] at hf htouch ⊢
        omega
      · exact h g (List.mem_cons_of_mem f hg)
    case isFalse => exact List.forall_mem_cons.mpr ⟨he, h⟩

theorem Aligned.join {d : Nat} (he : d ∣ e.start ∧ d ∣ e.size) (h : Aligned d es) :
    Aligned d (e.join es) := by
  cases es with
  | nil => exact fun g hg => List.mem_singleton.mp hg ▸ he
  | cons f fs =>
    rw [Extent.join]
    split
    · exact List.forall_mem_cons.mpr ⟨⟨he.1, Nat.dvd_add he.2 (h f List.mem_cons_self).2⟩,
        fun g hg => h g (List.mem_cons_of_mem f hg)⟩
    · exact List.forall_mem_cons.mpr ⟨he, h⟩

theorem Separated.join (h : Separated es) (hsize : 0 < e.size)
    (hle : ∀ f ∈ es, e.stop ≤ f.start) : Separated (e.join es) := by
  cases es with
  | nil => exact cons_iff.mpr ⟨hsize, nofun, .nil⟩
  | cons f fs =>
    obtain ⟨-, hgaps, hfs⟩ := cons_iff.mp h
    rw [Extent.join]
    split
    case isTrue htouch =>
      refine cons_iff.mpr ⟨Nat.add_pos_left hsize _, fun g hg => ?_, hfs⟩
      have hgap := hgaps g hg
      simp only [Extent.stop] at hgap htouch ⊢
      omega
    case isFalse hapart =>
      refine cons_iff.mpr ⟨hsize, fun g hg => ?_, h⟩
      have hlt : e.stop < f.start :=
        Nat.lt_of_le_of_ne (hle f List.mem_cons_self) hapart
      rcases List.mem_cons.mp hg with rfl | hg
      · exact hlt
      · exact (hlt.trans_le (Nat.le_add_right _ _)).trans (hgaps g hg)

theorem cover_join (e : Extent) (es : List Extent) : cover (e.join es) = e.cells ∪ cover es := by
  cases es with
  | nil => simp [Extent.join]
  | cons f fs =>
    rw [Extent.join]
    split
    case isTrue htouch =>
      rw [cover_cons, cover_cons, ← Set.union_assoc]
      congr 1
      ext a
      simp only [Set.mem_union, Extent.mem_cells, Extent.stop] at htouch ⊢
      omega
    case isFalse => rw [cover_cons]

/-- Separated extents with another one in a gap between them. -/
theorem Separated.join_prev (h : Separated (xs ++ e :: ys)) {f : Extent} (hsize : 0 < f.size)
    (hprev : e.stop ≤ f.start) (hnext : ∀ y ∈ ys, f.stop ≤ y.start) :
    Separated (xs ++ e.join (f.join ys)) := by
  obtain ⟨hxs, hys, hcross⟩ := append_iff.mp h
  obtain ⟨he, -, hys⟩ := cons_iff.mp hys
  have hle (g : Extent) (hg : g ∈ f.join ys) : e.stop ≤ g.start :=
    hprev.trans (le_of_mem_join hnext hg)
  refine append_iff.mpr ⟨hxs, (hys.join hsize hnext).join he hle, fun x hx g hg => ?_⟩
  exact (hcross x hx e List.mem_cons_self).trans_le (le_of_mem_join hle hg)

/-- Extents after one between `xs` and `ys` has been given back. -/
def giveBack (xs : List Extent) (e : Extent) (ys : List Extent) : List Extent :=
  match xs.getLast? with
  | none => e.join ys
  | some prev => xs.dropLast ++ prev.join (e.join ys)

@[simp] theorem giveBack_nil : giveBack [] e ys = e.join ys := rfl

@[simp] theorem giveBack_append_singleton {prev : Extent} :
    giveBack (xs ++ [prev]) e ys = xs ++ prev.join (e.join ys) := by
  simp [giveBack]

theorem Separated.giveBack (h : Separated (xs ++ ys)) (hsize : 0 < e.size)
    (hxs : ∀ x ∈ xs, x.stop ≤ e.start) (hys : ∀ y ∈ ys, e.stop ≤ y.start) :
    Separated (giveBack xs e ys) := by
  rcases List.eq_nil_or_concat' xs with rfl | ⟨init, prev, rfl⟩
  · exact h.join hsize hys
  · rw [giveBack_append_singleton]
    rw [List.append_assoc] at h
    exact h.join_prev hsize (hxs prev (by simp)) hys

theorem cover_giveBack (xs : List Extent) (e : Extent) (ys : List Extent) :
    cover (giveBack xs e ys) = cover (xs ++ ys) ∪ e.cells := by
  rcases List.eq_nil_or_concat' xs with rfl | ⟨init, prev, rfl⟩
  · rw [giveBack_nil, cover_join, List.nil_append, Set.union_comm]
  · rw [giveBack_append_singleton, cover_append, cover_join, cover_join]
    simp only [cover_append, cover_cons, cover_nil, Set.union_empty]
    ext a
    simp only [Set.mem_union]
    tauto

theorem Inside.giveBack {base top : Nat} (he : base ≤ e.start ∧ e.stop ≤ top)
    (h : Inside base top (xs ++ ys)) : Inside base top (giveBack xs e ys) := by
  rcases List.eq_nil_or_concat' xs with rfl | ⟨init, prev, rfl⟩
  · exact Inside.join he h
  · rw [giveBack_append_singleton]
    have hrest : Inside base top (prev.join (e.join ys)) :=
      Inside.join (h prev (by simp)) (Inside.join he fun y hy => h y (by simp [hy]))
    intro f hf
    rcases List.mem_append.mp hf with hf | hf
    · exact h f (by simp [hf])
    · exact hrest f hf

theorem Aligned.giveBack {d : Nat} (he : d ∣ e.start ∧ d ∣ e.size) (h : Aligned d (xs ++ ys)) :
    Aligned d (giveBack xs e ys) := by
  rcases List.eq_nil_or_concat' xs with rfl | ⟨init, prev, rfl⟩
  · exact Aligned.join he h
  · rw [giveBack_append_singleton]
    have hrest : Aligned d (prev.join (e.join ys)) :=
      Aligned.join (h prev (by simp)) (Aligned.join he fun y hy => h y (by simp [hy]))
    intro f hf
    rcases List.mem_append.mp hf with hf | hf
    · exact h f (by simp [hf])
    · exact hrest f hf

theorem Separated.take (h : Separated (xs ++ e :: ys)) (hn : n ≤ e.size) :
    Separated (xs ++ e.rest n ++ ys) := by
  obtain ⟨hxs, hys, hcross⟩ := append_iff.mp h
  obtain ⟨-, hgaps, hys⟩ := cons_iff.mp hys
  rw [List.append_assoc, Extent.rest]
  split
  case isTrue =>
    exact append_iff.mpr ⟨hxs, hys, fun x hx y hy => hcross x hx y (List.mem_cons_of_mem e hy)⟩
  case isFalse hne =>
    refine append_iff.mpr ⟨hxs, cons_iff.mpr ⟨?_, fun y hy => ?_, hys⟩, fun x hx y hy => ?_⟩
    · exact Nat.sub_pos_of_lt (Nat.lt_of_le_of_ne hn (Ne.symm hne))
    · exact (Nat.add_le_add_left (Nat.sub_le _ _) _).trans_lt (hgaps y hy)
    · rcases List.mem_cons.mp hy with rfl | hy
      · exact hcross x hx e List.mem_cons_self
      · exact hcross x hx y (List.mem_cons_of_mem e hy)

theorem Inside.take {base top : Nat} (h : Inside base top (xs ++ e :: ys)) :
    Inside base top (xs ++ e.rest n ++ ys) := by
  intro f hf
  simp only [List.mem_append, Extent.rest] at hf
  obtain ⟨hbase, htop⟩ := h e (by simp)
  rcases hf with (hf | hf) | hf
  · exact h f (by simp [hf])
  · split at hf
    · cases hf
    · rw [List.mem_singleton.mp hf]
      simp only [Extent.stop] at htop ⊢
      omega
  · exact h f (by simp [hf])

theorem Aligned.take {d : Nat} (hn : d ∣ n) (h : Aligned d (xs ++ e :: ys)) :
    Aligned d (xs ++ e.rest n ++ ys) := by
  intro f hf
  simp only [List.mem_append, Extent.rest] at hf
  obtain ⟨hstart, hsize⟩ := h e (by simp)
  rcases hf with (hf | hf) | hf
  · exact h f (by simp [hf])
  · split at hf
    · cases hf
    · rw [List.mem_singleton.mp hf]
      exact ⟨hstart, Nat.dvd_sub hsize hn⟩
  · exact h f (by simp [hf])

theorem cover_rest (hn : n ≤ e.size) :
    cover (e.rest n) = e.cells \ Set.Ico (e.stop - n) e.stop := by
  ext a
  rw [Extent.rest]
  split
  case isTrue heq =>
    simp only [cover_nil, Set.mem_empty_iff_false, Set.mem_sdiff, Extent.mem_cells, Set.mem_Ico,
      Extent.stop, false_iff]
    omega
  case isFalse =>
    simp only [cover_cons, cover_nil, Set.union_empty, Set.mem_sdiff, Extent.mem_cells,
      Set.mem_Ico, Extent.stop]
    omega

theorem Separated.cover_take (h : Separated (xs ++ e :: ys)) (hn : n ≤ e.size) :
    cover (xs ++ e.rest n ++ ys) = cover (xs ++ e :: ys) \ Set.Ico (e.stop - n) e.stop := by
  have hsub : Set.Ico (e.stop - n) e.stop ⊆ e.cells := fun a ha =>
    ⟨Nat.le_trans (by rw [Extent.stop]; omega) ha.1, ha.2⟩
  obtain ⟨-, hys, hcross⟩ := append_iff.mp h
  have hxs : Disjoint (cover xs) e.cells := by
    rw [Set.disjoint_left]
    rintro a ⟨x, hx, -, hlt⟩ ⟨hle, -⟩
    have hgap := hcross x hx e List.mem_cons_self
    omega
  rw [cover_append, cover_append, cover_rest hn, cover_append, cover_cons, Set.union_sdiff_distrib,
    Set.union_sdiff_distrib, (hxs.mono_right hsub).sdiff_eq_left,
    (hys.disjoint_tail.symm.mono_right hsub).sdiff_eq_left, Set.union_assoc]

/-! ### Sizes -/

/-- The number of the addresses of extents. -/
def totalSize (es : List Extent) : Nat := (es.map Extent.size).sum

theorem ncard_Ico (a b : Nat) : (Set.Ico a b).ncard = b - a := by
  rw [← Finset.coe_Ico, Set.ncard_coe_finset, Nat.card_Ico]

theorem length_le_totalSize (h : ∀ e ∈ es, 0 < e.size) : es.length ≤ totalSize es := by
  induction es with
  | nil => exact Nat.le_refl 0
  | cons e es ih =>
    have he := h e List.mem_cons_self
    have hes := ih fun f hf => h f (List.mem_cons_of_mem e hf)
    simp only [totalSize, List.length_cons, List.map_cons, List.sum_cons] at hes ⊢
    omega

theorem finite_cover (es : List Extent) : (cover es).Finite := by
  induction es with
  | nil => simp
  | cons e es ih =>
    rw [cover_cons]
    exact (Set.finite_Ico _ _).union ih

theorem ncard_cover (h : es.Pairwise fun e f => Disjoint e.cells f.cells) :
    (cover es).ncard = totalSize es := by
  induction es with
  | nil => simp [totalSize]
  | cons e es ih =>
    obtain ⟨hhead, htail⟩ := List.pairwise_cons.mp h
    have hdisj : Disjoint e.cells (cover es) := by
      rw [Set.disjoint_left]
      rintro a ha ⟨f, hf, haf⟩
      exact Set.disjoint_left.mp (hhead f hf) ha haf
    rw [cover_cons, Set.ncard_union_eq hdisj (Set.finite_Ico _ _) (finite_cover es), ih htail,
      Extent.cells, ncard_Ico, Extent.stop, Nat.add_sub_cancel_left, totalSize, totalSize,
      List.map_cons, List.sum_cons]

theorem Separated.ncard_cover (h : Separated es) : (cover es).ncard = totalSize es := by
  refine CLib.ncard_cover (h.gaps.imp fun hgap => ?_)
  rw [Set.disjoint_left]
  exact fun a ha ha' => absurd (ha.2.trans (hgap.trans_le ha'.1)) (Nat.lt_irrefl _)

end CLib
