import Mathlib.Data.Nat.Bitwise
import Mlonmcu.Gvsoc.Blocks

/-! `__malloc_align`, which gives back what it does not need of a larger block. -/

namespace Mlonmcu.Gvsoc

open CLib

theorem and_mask {x k : Nat} (hx : x < 2 ^ 32) (hk : k ≤ 32) :
    x &&& (2 ^ 32 - 2 ^ k) = x / 2 ^ k * 2 ^ k := by
  have hmask : 2 ^ 32 - 2 ^ k = (2 ^ (32 - k) - 1) * 2 ^ k := by
    rw [Nat.sub_mul, ← Nat.pow_add, Nat.sub_add_cancel hk, Nat.one_mul]
  refine Nat.eq_of_testBit_eq fun i => ?_
  rw [hmask, Nat.testBit_and, Nat.testBit_mul_two_pow, Nat.testBit_mul_two_pow,
    Nat.testBit_two_pow_sub_one, Nat.testBit_div_two_pow]
  by_cases hi : k ≤ i
  · rw [Nat.sub_add_cancel hi]
    by_cases hhigh : i < 32
    · simp [hi, show i - k < 32 - k by omega]
    · simp [Nat.testBit_lt_two_pow (hx.trans_le (Nat.pow_le_pow_right (by decide)
        (Nat.le_of_not_lt hhigh)))]
  · simp [hi]

/-- The pointer rounded up. -/
theorem alignPointer_eq {r k : Nat} (hk : k < 32) (hr : r + 2 ^ k ≤ 2 ^ 32) :
    alignPointer r (2 ^ k : Nat) = (r + (2 ^ k - 1)) / 2 ^ k * 2 ^ k := by
  have hpos := Nat.two_pow_pos k
  have hlt : 2 ^ k < 2 ^ 32 := Nat.pow_lt_pow_right (by decide) hk
  have hsum : toUint32 ((r : Int) + (2 ^ k : Nat) - 1) = r + (2 ^ k - 1) := by
    rw [toUint32]
    omega
  have hneg : toUint32 (-(2 ^ k : Nat)) = 2 ^ 32 - 2 ^ k := by
    rw [toUint32]
    omega
  rw [alignPointer, hsum, hneg]
  exact and_mask (by omega) (Nat.le_of_lt hk)

theorem roundUp_of_dvd {n : Nat} (h : minChunkSize ∣ n) : roundUp n = n := by
  obtain ⟨m, rfl⟩ := h
  rw [roundUp, minChunkSize]
  omega

variable {arena : Arena} {h h' : Heap} {free : List Extent} {fuel n p k : Nat}

/-- What is left when the ends of a block have been given back. -/
theorem sdiff_union_blockCells {s : Set Nat} {r a b : Nat} (hle : a + n ≤ b)
    (hsub : blockCells r b ⊆ s) :
    s \ blockCells r b ∪ blockCells r a ∪ blockCells (r + a + n) (b - a - n) =
      s \ blockCells (r + a) n := by
  ext x
  have hx : r ≤ x ∧ x < r + b → x ∈ s := fun hx => hsub hx
  simp only [blockCells, Set.mem_union, Set.mem_sdiff, Set.mem_Ico]
  by_cases hmem : x ∈ s
  · simp only [hmem, true_and]
    omega
  · simp only [hmem, false_and, false_or, iff_false]
    intro hx'
    exact hmem (hx ⟨by omega, by omega⟩)

theorem blockCells_subset {r a b : Nat} (hab : a ≤ b) : blockCells r a ⊆ blockCells r b :=
  Set.Ico_subset_Ico_right (Nat.add_le_add_left hab r)

theorem Heap.Valid.le_top (hvalid : h.Valid arena free) {r b : Nat} (hb : 0 < b)
    (hsub : blockCells r b ⊆ cover free) : arena.base ≤ r ∧ r + b ≤ arena.top := by
  obtain ⟨e, he, hstart, hstop⟩ := hvalid.exists_extent hb hsub
  obtain ⟨hbase, htop⟩ := hvalid.inside e he
  exact ⟨hbase.trans hstart, hstop.trans htop⟩

/-- The end of a block is given back. -/
theorem giveBack_spec {a b : Nat} (hvalid : h.Valid arena free) (hab : a < b)
    (hp : minChunkSize ∣ p) (ha : minChunkSize ∣ a) (hb : minChunkSize ∣ b)
    (hbase : arena.base ≤ p) (htop : p + b ≤ arena.top) (hsmall : b + minChunkSize < 2 ^ 31)
    (hapart : Disjoint (blockCells p b) (cover free)) (hfuel : arena.top - arena.base < fuel)
    {size : Int} (hsize : size = (b - a : Nat)) :
    ∃ h' free', (mallocFree fuel (p + a) size).run h = (.done (), h') ∧ h'.Valid arena free' ∧
      cover free' = cover free ∪ blockCells (p + a) (b - a) ∧
      ∀ x ∉ cover free ∪ blockCells (p + a) (b - a), h'.memory x = h.memory x := by
  subst hsize
  have hround : roundUp (b - a) = b - a := roundUp_of_dvd (Nat.dvd_sub hb ha)
  have hsub : blockCells (p + a) (b - a) ⊆ blockCells p b := by
    rw [blockCells, show p + a + (b - a) = p + b by omega]
    exact Set.Ico_subset_Ico_left (Nat.le_add_right p a)
  have hspec := @mallocFree_spec arena h free fuel (b - a) (p + a) hvalid (Nat.sub_pos_of_lt hab)
    (by omega) (Nat.dvd_add hp ha) (by omega) (by rw [hround]; omega)
    (by rw [hround]; exact hapart.mono_left hsub) (hvalid.length_le.trans_lt hfuel)
  rwa [hround] at hspec

/-- How far the next multiple is. -/
theorem alignPointer_add {r : Nat} (hk : 4 ≤ k) (hk' : k < 32) (hr : minChunkSize ∣ r)
    (hlt : r + 2 ^ k ≤ 2 ^ 32) (hraw : (r + minChunkSize) % 2 ^ k ≠ 0) :
    ∃ d, alignPointer r (2 ^ k : Nat) = r + d ∧ 2 ^ k ∣ r + d ∧ minChunkSize ∣ d ∧ d < 2 ^ k ∧
      (d = 0 ∨ 2 * minChunkSize ≤ d) := by
  have hpos := Nat.two_pow_pos k
  have hdvd : minChunkSize ∣ 2 ^ k := Nat.pow_dvd_pow 2 (show 3 ≤ k by omega)
  obtain ⟨m, hm⟩ : ∃ m, (r + (2 ^ k - 1)) / 2 ^ k = m := ⟨_, rfl⟩
  have hle : m * 2 ^ k ≤ r + (2 ^ k - 1) := hm ▸ Nat.div_mul_le_self _ _
  have hge : r + (2 ^ k - 1) < m * 2 ^ k + 2 ^ k := hm ▸ Nat.lt_div_mul_add hpos
  have hsum : r + (m * 2 ^ k - r) = m * 2 ^ k := by omega
  have hd : minChunkSize ∣ m * 2 ^ k - r := Nat.dvd_sub (hdvd.mul_left m) hr
  refine ⟨m * 2 ^ k - r, by rw [alignPointer_eq hk' hlt, hm, hsum], ?_, hd, by omega, ?_⟩
  · rw [hsum]
    exact Nat.dvd_mul_left _ _
  · have hne : m * 2 ^ k - r ≠ minChunkSize := by
      intro heq
      rw [← heq, hsum, Nat.mul_mod_left] at hraw
      exact hraw rfl
    rw [minChunkSize] at hd hne ⊢
    omega

/-- `__malloc_align` for an alignment that `__malloc` does not give, when the block of `__malloc`
does not start one chunk before a multiple of it. -/
theorem mallocAlign_spec (hvalid : h.Valid arena free) (hk : 4 ≤ k) (hpos : 0 < n)
    (hn : minChunkSize ∣ n) (hsmall : n + 2 ^ k + 32 < 2 ^ 31)
    (hraw : ∀ r h₁, (malloc fuel (n + 2 ^ k + 24 : Nat)).run h = (.done r, h₁) →
      (r + minChunkSize) % 2 ^ k ≠ 0)
    (hfuel : arena.top - arena.base < fuel) :
    ∃ p h', (mallocAlign fuel n (2 ^ k : Nat)).run h = (.done p, h') ∧
      (p = 0 ∧ h' = h ∨ 2 ^ k ∣ p ∧ Taken arena h h' free p n) := by
  have hk' : k < 32 := by
    by_contra hge
    have hle : 2 ^ 32 ≤ 2 ^ k := Nat.pow_le_pow_right (by decide) (Nat.le_of_not_lt hge)
    omega
  have hle : 2 ^ 4 ≤ 2 ^ k := Nat.pow_le_pow_right (by decide) hk
  have hdvd : minChunkSize ∣ 2 ^ k := Nat.pow_dvd_pow 2 (show 3 ≤ k by omega)
  have hall : minChunkSize ∣ n + 2 ^ k + 24 := Nat.dvd_add (Nat.dvd_add hn hdvd) (by decide)
  have hround := roundUp_of_dvd hall
  obtain ⟨all, hsum⟩ : ∃ all, n + 2 ^ k + 24 = all := ⟨_, rfl⟩
  have hsize : toInt32 (toUint32 ((n : Int) + (2 ^ k : Nat) + sizeofMallocChunk * 2)) = all := by
    rw [toUint32, toInt32, sizeofMallocChunk]
    split <;> omega
  rw [hsum] at hraw hround hall
  rw [mallocAlign, if_neg (by rw [sizeofMallocChunk]; omega),
    Prog.bind_done (Prog.run_checkInt (by omega) (by omega) _)]
  dsimp only
  rw [hsize]
  obtain ⟨r, h₁, hmalloc, hcase⟩ := @malloc_spec arena h free fuel all hvalid
    (by rw [minChunkSize]; omega) (hvalid.length_le.trans_lt hfuel)
  rw [Prog.bind_done hmalloc]
  rcases hcase with ⟨rfl, rfl, -⟩ | ⟨hr, hr8, hsub, ⟨free₁, hvalid₁, hcover₁⟩, hframe₁⟩
  · exact ⟨0, h₁, rfl, .inl ⟨rfl, rfl⟩⟩
  · rw [if_neg hr]
    rw [hround] at hsub hcover₁
    obtain ⟨hbase, htop⟩ := hvalid.le_top (by omega) hsub
    have htop' := arena.top_lt
    obtain ⟨d, hd, hmultiple, hd8, hdlt, hcase⟩ :=
      alignPointer_add hk hk' hr8 (by omega) (hraw r h₁ hmalloc)
    have hheader : toUint32 (((r + d : Nat) : Int) - r) = d := by
      rw [toUint32]
      omega
    have htailp : toUint32 (((r + d : Nat) : Int) + n) = r + d + n := by
      rw [toUint32]
      omega
    have htailn : toInt32 (toUint32 ((all : Int) - d - n)) = (all - d - n : Nat) := by
      rw [toUint32, toInt32]
      split <;> omega
    have hskip : ¬(d ≠ 0 ∧ d < sizeofMallocChunk) := by
      simp only [minChunkSize, sizeofMallocChunk] at hcase ⊢
      omega
    rw [hd, hheader]
    simp only [if_neg hskip, htailp, htailn]
    have hapart : Disjoint (blockCells r all) (cover free₁) := by
      rw [hcover₁]
      exact Set.disjoint_sdiff_right
    -- The addresses of the header are given back first.
    obtain ⟨h₂, free₂, hvalid₂, hcover₂, hframe₂, hrun₂⟩ : ∃ h₂ free₂, h₂.Valid arena free₂ ∧
        cover free₂ = cover free₁ ∪ blockCells r d ∧
        (∀ a ∉ cover free₁ ∪ blockCells r d, h₂.memory a = h₁.memory a) ∧
        ∀ rest : Prog Heap Nat,
          (if d ≠ 0 then mallocFree fuel r (toInt32 d) >>= fun _ => rest else rest).run h₁ =
            rest.run h₂ := by
      rcases hcase with hzero | hcase
      · refine ⟨h₁, free₁, hvalid₁, by simp [hzero, blockCells], fun _ _ => rfl, fun rest => ?_⟩
        rw [if_neg fun hne => hne hzero]
      · rw [minChunkSize] at hcase
        have hsize : toInt32 d = (d - 0 : Nat) := by rw [toInt32, if_pos (by omega), Nat.sub_zero]
        obtain ⟨h₂, free₂, hrun, hspec⟩ := @giveBack_spec arena h₁ free₁ fuel r 0 d hvalid₁
          (by omega) hr8 (Nat.dvd_zero _) hd8 hbase (by omega) (by rw [minChunkSize]; omega)
          (hapart.mono_left (blockCells_subset (by omega))) hfuel _ hsize
        refine ⟨h₂, free₂, hspec.1, hspec.2.1, hspec.2.2, fun rest => ?_⟩
        rw [if_pos (by omega)]
        exact Prog.bind_done hrun
    have hcells : Disjoint (blockCells r d) (blockCells (r + d) (all - d)) := by
      rw [Set.disjoint_left]
      exact fun x hx hx' => absurd (hx.2.trans_le hx'.1) (Nat.lt_irrefl _)
    have hsub₂ : blockCells (r + d) (all - d) ⊆ blockCells r all := by
      rw [blockCells, show r + d + (all - d) = r + all by omega]
      exact Set.Ico_subset_Ico_left (Nat.le_add_right r d)
    obtain ⟨h₃, free₃, hrun₃, hvalid₃, hcover₃, hframe₃⟩ := giveBack_spec (a := n) (b := all - d)
      hvalid₂ (by omega) (Nat.dvd_add hr8 hd8) hn (Nat.dvd_sub hall hd8) (by omega) (by omega)
      (by rw [minChunkSize]; omega)
      (by
        rw [hcover₂, Set.disjoint_union_right]
        exact ⟨hapart.mono_left hsub₂, hcells.symm⟩) hfuel rfl
    rw [hrun₂, Prog.bind_done hrun₃]
    refine ⟨r + d, h₃, rfl, .inr ⟨hmultiple, by omega, Nat.dvd_add hr8 hd8, ?_,
      ⟨free₃, hvalid₃, ?_⟩, fun a ha => ?_⟩⟩
    · exact (blockCells_subset (by omega)).trans (hsub₂.trans hsub)
    · rw [hcover₃, hcover₂, hcover₁]
      exact sdiff_union_blockCells (by omega) hsub
    · have hout {s : Set Nat} (hs : s ⊆ blockCells r all) : a ∉ s := fun hmem => ha (hsub (hs hmem))
      have ha₁ : a ∉ cover free₁ := fun hmem => ha (by rw [hcover₁] at hmem; exact hmem.1)
      have ha₂ : a ∉ cover free₁ ∪ blockCells r d :=
        fun hmem => hmem.elim ha₁ (hout (blockCells_subset (by omega)))
      rw [hframe₃ a fun hmem => hmem.elim (hcover₂ ▸ ha₂) (hout fun x hx => ?_), hframe₂ a ha₂,
        hframe₁ a ha]
      exact ⟨by have := hx.1; omega, by have := hx.2; omega⟩

/-- The calls of `__malloc_align` that keep the blocks apart.  Below the size of `malloc_chunk_t`
these are calls of `__malloc`.  For a larger alignment, what is given back has to start and end at
multiples of `MIN_CHUNK_SIZE`, and the block of `__malloc` may not start that many bytes before a
multiple of the alignment: the result is then the multiple after that one, but `headersize` is not
that of the result. -/
inductive KeepsApart (h : Heap) (n : Nat) : Int → Prop
  | small {align : Int} : align < sizeofMallocChunk → n + minChunkSize < 2 ^ 31 →
      KeepsApart h n align
  | power {k : Nat} : 4 ≤ k → minChunkSize ∣ n → n + 2 ^ k + 32 < 2 ^ 31 →
      (∀ fuel r h', (malloc fuel (n + 2 ^ k + 24 : Nat)).run h = (.done r, h') →
        (r + minChunkSize) % 2 ^ k ≠ 0) → KeepsApart h n (2 ^ k : Nat)

theorem KeepsApart.size_lt {align : Int} (hkeeps : KeepsApart h n align) :
    n + minChunkSize < 2 ^ 31 := by
  cases hkeeps with
  | small _ hn => exact hn
  | @power k _ _ hn _ =>
    have hpos := Nat.two_pow_pos k
    rw [minChunkSize]
    omega

/-- Such a call returns `NULL` or a block. -/
theorem KeepsApart.spec {align : Int} (hkeeps : KeepsApart h n align) (hvalid : h.Valid arena free)
    (hpos : 0 < n) (hfuel : arena.top - arena.base < fuel) :
    ∃ p h', (mallocAlign fuel n align).run h = (.done p, h') ∧
      (p = 0 ∧ h' = h ∨ Taken arena h h' free p (roundUp n)) := by
  cases hkeeps with
  | small hsmall hn =>
    obtain ⟨p, h', hrun, hcase⟩ := malloc_spec hvalid hn (hvalid.length_le.trans_lt hfuel)
    refine ⟨p, h', ?_, hcase.imp_left fun hnull => ⟨hnull.1, hnull.2.1⟩⟩
    rwa [mallocAlign, if_pos hsmall]
  | power hk hn hsmall hraw =>
    rw [roundUp_of_dvd hn]
    obtain ⟨p, h', hrun, hcase⟩ := mallocAlign_spec hvalid hk hpos hn hsmall (hraw fuel) hfuel
    exact ⟨p, h', hrun, hcase.imp_right And.right⟩

/-- A call that `KeepsApart` leaves out: the block of `__malloc` goes from 88 to 152, and what is
given back of it from 136 to 168. -/
example :
    let h : Heap := (Heap.setSize 16 136 ⟨fun _ => 0, 16⟩).setNext 16 0
    let result := (mallocAlign 4 24 16).run h
    result.1 = .done 112 ∧ result.2.chunk 136 = ⟨32, 0⟩ := by decide

theorem extends_mallocAlign (fuel more : Nat) (size align : Int) :
    Prog.Extends (mallocAlign fuel size align) (mallocAlign (fuel + more) size align) := by
  rw [mallocAlign, mallocAlign]
  split
  · exact extends_malloc fuel more size
  · refine Prog.Extends.bind _ fun sum => ?_
    refine (Prog.Extends.bind_left (extends_malloc fuel more _) _).trans ?_
    refine Prog.Extends.bind _ fun r => ?_
    split
    · exact Prog.Extends.refl _
    · dsimp only
      by_cases hheader : toUint32 (alignPointer r align - r) ≠ 0
      · rw [if_pos hheader, if_pos hheader]
        refine (Prog.Extends.bind_left (extends_mallocFree fuel more _ _) _).trans ?_
        exact Prog.Extends.bind _ fun _ =>
          Prog.Extends.bind_left (extends_mallocFree fuel more _ _) _
      · rw [if_neg hheader, if_neg hheader]
        exact Prog.Extends.bind_left (extends_mallocFree fuel more _ _) _

end Mlonmcu.Gvsoc
