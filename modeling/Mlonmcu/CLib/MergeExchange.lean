import Mathlib.Algebra.Group.End
import Mathlib.Algebra.Ring.Nat
import Mathlib.Data.Nat.Bitwise
import Mathlib.Logic.Equiv.Basic
import Mathlib.Order.MinMax

/-! Sorting by exchanges of pairs at places that do not depend on the values: Batcher's merge
exchange, for any number of places and any order on keys. -/

namespace CLib

section Loops

variable {σ ι ρ : Type}

/-- The values of `r` in `for (r = q; r > p; r >>= 1)`. -/
def halvings (p q : Nat) : List Nat :=
  if p < q then q :: halvings p (q / 2) else []
termination_by q
decreasing_by omega

theorem halvings_of_lt {p q : Nat} (h : p < q) : halvings p q = q :: halvings p (q / 2) := by
  rw [halvings, if_pos h]

theorem halvings_of_le {p q : Nat} (h : q ≤ p) : halvings p q = [] := by
  rw [halvings, if_neg (Nat.not_lt.mpr h)]

theorem le_of_mem_halvings {p q r : Nat} (h : r ∈ halvings p q) : p < r ∧ r ≤ q := by
  induction q using Nat.strong_induction_on with
  | _ q ih =>
    rcases Nat.lt_or_ge p q with hlt | hle
    · rw [halvings_of_lt hlt] at h
      rcases List.mem_cons.mp h with rfl | h
      · exact ⟨hlt, Nat.le_refl r⟩
      · obtain ⟨hpr, hrq⟩ := ih (q / 2) (by omega) h
        exact ⟨hpr, by omega⟩
    · rw [halvings_of_le hle] at h
      cases h

theorem halvings_sorted (p q : Nat) : (halvings p q).Pairwise (· > ·) := by
  induction q using Nat.strong_induction_on with
  | _ q ih =>
    rcases Nat.lt_or_ge p q with hlt | hle
    · rw [halvings_of_lt hlt]
      refine List.pairwise_cons.mpr ⟨fun r hr => ?_, ih (q / 2) (by omega)⟩
      have hle := (le_of_mem_halvings hr).2
      omega
    · rw [halvings_of_le hle]
      exact .nil

/-- The halvings of a power of two are powers of two. -/
theorem exists_two_pow {p q k r : Nat} (hq : q = 2 ^ k) (h : r ∈ halvings p q) :
    ∃ m, m ≤ k ∧ r = 2 ^ m := by
  induction k generalizing q with
  | zero =>
    obtain ⟨hpr, hrq⟩ := le_of_mem_halvings h
    exact ⟨0, Nat.le_refl 0, by omega⟩
  | succ k ih =>
    have hhalf : q / 2 = 2 ^ k := by rw [hq, Nat.pow_succ, Nat.mul_div_cancel _ (by decide)]
    rcases Nat.lt_or_ge p q with hlt | hle
    · rw [halvings_of_lt hlt] at h
      rcases List.mem_cons.mp h with rfl | h
      · exact ⟨k + 1, Nat.le_refl _, hq⟩
      · obtain ⟨m, hm, hr⟩ := ih hhalf h
        exact ⟨m, by omega, hr⟩
    · rw [halvings_of_le hle] at h
      cases h

/-- A loop whose body leaves the state as it is. -/
theorem foldl_of_fixed {f : σ → ι → σ} (is : List ι) (h : ∀ i ∈ is, ∀ s, f s i = s) (s : σ) :
    is.foldl f s = s := by
  induction is with
  | nil => rfl
  | cons i is ih =>
    rw [List.foldl_cons, h i List.mem_cons_self]
    exact ih fun j hj => h j (List.mem_cons_of_mem i hj)

/-- A step that commutes with every step of a loop commutes with the loop. -/
theorem foldl_comm {f : σ → ι → σ} {g : σ → σ} (is : List ι)
    (h : ∀ i ∈ is, ∀ s, f (g s) i = g (f s i)) (s : σ) : is.foldl f (g s) = g (is.foldl f s) := by
  induction is generalizing s with
  | nil => rfl
  | cons i is ih =>
    rw [List.foldl_cons, List.foldl_cons, h i List.mem_cons_self]
    exact ih (fun j hj => h j (List.mem_cons_of_mem i hj)) _

/-- Two loops over the same list are one loop when the steps that change their order commute. -/
theorem foldl_fuse {f g : σ → ρ → σ} {rs : List ρ} {Q : ρ → ρ → Prop} (hrs : rs.Pairwise Q)
    (h : ∀ r q, Q r q → ∀ s, f (g s q) r = g (f s r) q) (s : σ) :
    rs.foldl f (rs.foldl g s) = rs.foldl (fun s r => f (g s r) r) s := by
  induction rs generalizing s with
  | nil => rfl
  | cons r rs ih =>
    obtain ⟨hr, hrs⟩ := List.pairwise_cons.mp hrs
    simp only [List.foldl_cons]
    rw [← ih hrs, ← foldl_comm rs fun q hq s => (h r q (hr q hq) s).symm]

/-- Two nested loops can be interchanged when the steps that change their order commute. -/
theorem foldl_interchange {f : ι → ρ → σ → σ} {is : List ι} {rs : List ρ} {R : ι → ι → Prop}
    {Q : ρ → ρ → Prop} (his : is.Pairwise R) (hrs : rs.Pairwise Q)
    (h : ∀ i j r q, R i j → Q r q → ∀ s, f j r (f i q s) = f i q (f j r s)) (s : σ) :
    is.foldl (fun s i => rs.foldl (fun s r => f i r s) s) s =
      rs.foldl (fun s r => is.foldl (fun s i => f i r s) s) s := by
  induction is generalizing s with
  | nil => exact (foldl_of_fixed rs (fun _ _ _ => rfl) s).symm
  | cons i is ih =>
    obtain ⟨hi, his⟩ := List.pairwise_cons.mp his
    rw [List.foldl_cons, ih his, foldl_fuse hrs fun r q hrq s => ?_]
    · rfl
    · exact foldl_comm is (fun j hj s => h i j r q (hi j hj) hrq s) s

end Loops

/-! ### Rearrangements -/

section Exchange

variable {α κ : Type} {n i j k : Nat} {x y z : Nat → α}

/-- The places below `n` hold the same values in another order, and no other place has changed. -/
def Rearranged (n : Nat) (x y : Nat → α) : Prop :=
  ∃ σ : Equiv.Perm Nat, y = x ∘ σ ∧ ∀ k, n ≤ k → σ k = k

theorem Rearranged.refl (n : Nat) (x : Nat → α) : Rearranged n x x := ⟨1, rfl, fun _ _ => rfl⟩

theorem Rearranged.trans (hxy : Rearranged n x y) (hyz : Rearranged n y z) :
    Rearranged n x z := by
  obtain ⟨σ, rfl, hσ⟩ := hxy
  obtain ⟨τ, rfl, hτ⟩ := hyz
  exact ⟨σ * τ, rfl, fun k hk => (congrArg σ (hτ k hk)).trans (hσ k hk)⟩

/-- A permutation that moves nothing from `n` on keeps the places below `n`. -/
theorem perm_lt {σ : Equiv.Perm Nat} (hσ : ∀ k, n ≤ k → σ k = k) (hk : k < n) : σ k < n := by
  by_contra hle
  have heq : σ k = k := σ.injective (hσ _ (Nat.le_of_not_lt hle))
  omega

theorem Rearranged.forall {P : α → Prop} (hxy : Rearranged n x y) (hx : ∀ k < n, P (x k)) :
    ∀ k < n, P (y k) := by
  obtain ⟨σ, rfl, hσ⟩ := hxy
  exact fun k hk => hx _ (perm_lt hσ hk)

variable [LinearOrder κ] (key : α → κ)

/-- The values of two places in the order of their keys. -/
def exchange (i j : Nat) (x : Nat → α) : Nat → α :=
  if key (x j) < key (x i) then x ∘ Equiv.swap i j else x

variable {key}

theorem exchange_of_ne (hi : k ≠ i) (hj : k ≠ j) : exchange key i j x k = x k := by
  rw [exchange]
  split
  · rw [Function.comp_apply, Equiv.swap_apply_of_ne_of_ne hi hj]
  · rfl

variable (key) in
theorem key_exchange_left (i j : Nat) (x : Nat → α) :
    key (exchange key i j x i) = min (key (x i)) (key (x j)) := by
  rw [exchange]
  split
  · case isTrue h => rw [Function.comp_apply, Equiv.swap_apply_left, min_eq_right (le_of_lt h)]
  · case isFalse h => rw [min_eq_left (le_of_not_gt h)]

variable (key) in
theorem key_exchange_right (i j : Nat) (x : Nat → α) :
    key (exchange key i j x j) = max (key (x i)) (key (x j)) := by
  rw [exchange]
  split
  · case isTrue h => rw [Function.comp_apply, Equiv.swap_apply_right, max_eq_left (le_of_lt h)]
  · case isFalse h => rw [max_eq_right (le_of_not_gt h)]

theorem rearranged_exchange (hi : i < n) (hj : j < n) (x : Nat → α) :
    Rearranged n x (exchange key i j x) := by
  rw [exchange]
  split
  · exact ⟨Equiv.swap i j, rfl, fun k hk => Equiv.swap_apply_of_ne_of_ne (by omega) (by omega)⟩
  · exact Rearranged.refl n x

variable (key) in
/-- Exchanges of pairs without a common place. -/
theorem key_exchanges {ι : Type} {is : List ι} {f g : ι → Nat} (his : is.Nodup)
    (hf : f.Injective) (hg : g.Injective) (hfg : ∀ i ∈ is, ∀ j ∈ is, f i ≠ g j) (x : Nat → α) :
    let y := is.foldl (fun x i => exchange key (f i) (g i) x) x
    (∀ i ∈ is, key (y (f i)) = min (key (x (f i))) (key (x (g i))) ∧
      key (y (g i)) = max (key (x (f i))) (key (x (g i)))) ∧
    ∀ k, (∀ i ∈ is, k ≠ f i ∧ k ≠ g i) → y k = x k := by
  induction is generalizing x with
  | nil => exact ⟨by simp, fun _ _ => rfl⟩
  | cons i is ih =>
    obtain ⟨hi, his⟩ := List.nodup_cons.mp his
    obtain ⟨hfgi, hfgs⟩ := List.forall_mem_cons.mp hfg
    obtain ⟨hmem, hout⟩ := ih his (fun j hj m hm => hfgs j hj m (List.mem_cons_of_mem i hm))
      (exchange key (f i) (g i) x)
    have hne {j : ι} (hj : j ∈ is) : j ≠ i := fun h => hi (h ▸ hj)
    have hleft {j : ι} (hj : j ∈ is) : f i ≠ g j := hfgi j (List.mem_cons_of_mem i hj)
    have hright {j : ι} (hj : j ∈ is) : f j ≠ g i := hfgs j hj i List.mem_cons_self
    rw [List.foldl_cons]
    refine ⟨fun j hj => ?_, fun k hk => ?_⟩
    · rcases List.mem_cons.mp hj with rfl | hj
      · rw [hout (f j) fun m hm => ⟨hf.ne (hne hm).symm, hleft hm⟩,
          hout (g j) fun m hm => ⟨(hright hm).symm, hg.ne (hne hm).symm⟩, key_exchange_left key,
          key_exchange_right key]
        exact ⟨rfl, rfl⟩
      · have hfj : exchange key (f i) (g i) x (f j) = x (f j) :=
          exchange_of_ne (hf.ne (hne hj)) (hright hj)
        have hgj : exchange key (f i) (g i) x (g j) = x (g j) :=
          exchange_of_ne (hleft hj).symm (hg.ne (hne hj))
        rw [← hfj, ← hgj]
        exact hmem j hj
    · obtain ⟨hfi, hgi⟩ := hk i List.mem_cons_self
      rw [hout k fun j hj => hk j (List.mem_cons_of_mem i hj), exchange_of_ne hfi hgi]

end Exchange

/-! ### Merging -/

section Merge

variable {α κ : Type} [LinearOrder κ]

section Network

variable {σ : Type} (e : Nat → Nat → σ → σ)

/-- The exchanges of the places at the distance `r - p`, the first of which have the bit `p`. -/
def substage (n p r : Nat) (s : σ) : σ :=
  (List.range (n - r)).foldl (fun s i => if i &&& p = 0 then e (i + p) (i + r) s else s) s

/-- The exchanges of the places at the distance `p`, the first of which do not have the bit `p`. -/
def firstExchanges (n p : Nat) (s : σ) : σ :=
  (List.range (n - p)).foldl (fun s i => if i &&& p = 0 then e i (i + p) s else s) s

/-- From sorted classes of the places modulo `2 * p`, the sorted classes modulo `p`. -/
def stage (n top p : Nat) (s : σ) : σ :=
  (halvings p top).foldl (fun s r => substage e n p r s) (firstExchanges e n p s)

/-- Batcher's merge exchange, for a way `e` to exchange two places. -/
def mergeExchange (n top : Nat) (s : σ) : σ :=
  (halvings 0 top).foldl (fun s p => stage e n top p s) s

variable {e} {n : Nat}

/-- Every relation between states that the exchanges keep is kept by the merge exchange. -/
theorem mergeExchange_rel {τ : Type} {R : σ → τ → Prop} {d : Nat → Nat → τ → τ}
    (h : ∀ i j s t, i < j → j < n → R s t → R (e i j s) (d i j t)) (top : Nat) {s : σ} {t : τ}
    (hst : R s t) : R (mergeExchange e n top s) (mergeExchange d n top t) := by
  have hloop {ι : Type} {f : σ → ι → σ} {g : τ → ι → τ} (is : List ι)
      (hfg : ∀ i ∈ is, ∀ s t, R s t → R (f s i) (g t i)) {s : σ} {t : τ} (hst : R s t) :
      R (is.foldl f s) (is.foldl g t) := by
    induction is generalizing s t with
    | nil => exact hst
    | cons i is ih =>
      exact ih (fun j hj => hfg j (List.mem_cons_of_mem i hj)) (hfg i List.mem_cons_self s t hst)
  have hskip {i j k p : Nat} (hjk : j < k) (hk : k < n) {s : σ} {t : τ} (hst : R s t) :
      R (if i &&& p = 0 then e j k s else s) (if i &&& p = 0 then d j k t else t) := by
    split
    · exact h j k s t hjk hk hst
    · exact hst
  refine hloop _ (fun p hp s t hst => ?_) hst
  have hpos := (le_of_mem_halvings hp).1
  refine hloop (halvings p top)
    (fun r hr s t hst => hloop (List.range (n - r)) (fun i hi s t hst => ?_) hst)
    (hloop (List.range (n - p)) (fun i hi s t hst => ?_) hst)
  · rw [List.mem_range] at hi
    have hlt := (le_of_mem_halvings hr).1
    exact hskip (by omega) (by omega) hst
  · rw [List.mem_range] at hi
    exact hskip (by omega) (by omega) hst

end Network

/-- What the exchanges at the distance `q - p` leave: the places with and without the bit `p` are
sorted in each class, and interleaved up to `q`. -/
structure Merging (n p q : Nat) (z : Nat → κ) : Prop where
  stride : ∀ i, i + 2 * p < n → z i ≤ z (i + 2 * p)
  even_le : ∀ i, i &&& p = 0 → i + p < n → z i ≤ z (i + p)
  odd_le : ∀ i, i &&& p = 0 → i + q < n → z (i + p) ≤ z (i + q)

section Bits

variable {m i r : Nat}

theorem and_two_pow_eq_zero : i &&& 2 ^ m = 0 ↔ i / 2 ^ m % 2 = 0 := by
  rw [Nat.and_two_pow, Nat.testBit_eq_decide_div_mod_eq]
  have hpos := Nat.two_pow_pos m
  rcases Nat.mod_two_eq_zero_or_one (i / 2 ^ m) with h | h
  · simp [h]
  · simp [h]

theorem add_and_two_pow (hr : 2 * 2 ^ m ∣ r) : (i + r) &&& 2 ^ m = 0 ↔ i &&& 2 ^ m = 0 := by
  obtain ⟨c, rfl⟩ := hr
  rw [and_two_pow_eq_zero, and_two_pow_eq_zero, show i + 2 * 2 ^ m * c = i + 2 ^ m * (2 * c) by
    rw [Nat.mul_comm 2, Nat.mul_assoc], Nat.add_mul_div_left _ _ (Nat.two_pow_pos m)]
  omega

theorem add_self_and_two_pow : (i + 2 ^ m) &&& 2 ^ m = 0 ↔ i &&& 2 ^ m ≠ 0 := by
  rw [ne_eq, and_two_pow_eq_zero, and_two_pow_eq_zero, Nat.add_div_right _ (Nat.two_pow_pos m)]
  omega

/-- A place with the bit is one after a place without it. -/
theorem exists_even (h : i &&& 2 ^ m ≠ 0) : ∃ j, j &&& 2 ^ m = 0 ∧ i = j + 2 ^ m := by
  have hle : 2 ^ m ≤ i := by
    by_contra hlt
    rw [ne_eq, and_two_pow_eq_zero, Nat.div_eq_of_lt (Nat.lt_of_not_le hlt)] at h
    exact h rfl
  refine ⟨i - 2 ^ m, ?_, (Nat.sub_add_cancel hle).symm⟩
  by_contra hodd
  rw [← ne_eq, ← add_self_and_two_pow, Nat.sub_add_cancel hle] at hodd
  exact h hodd

end Bits

variable {n m q r : Nat} {key : α → κ} {x y : Nat → α}

/-- The loops of a stage, with the places that they skip left out. -/
theorem foldl_even (p : Nat) (f : Nat → Nat) (g : Nat → Nat) (is : List Nat) :
    is.foldl (fun x i => if i &&& p = 0 then exchange key (f i) (g i) x else x) x =
      (is.filter (· &&& p = 0)).foldl (fun x i => exchange key (f i) (g i) x) x := by
  rw [List.foldl_filter]
  simp only [decide_eq_true_eq]

/-- The keys after exchanges at the distance `r - p`. -/
structure Exchanged (n p r : Nat) (z y : Nat → κ) : Prop where
  first : ∀ i, i &&& p = 0 → i + r < n → y (i + p) = min (z (i + p)) (z (i + r))
  second : ∀ i, i &&& p = 0 → i + r < n → y (i + r) = max (z (i + p)) (z (i + r))
  high : ∀ i, i &&& p = 0 → n ≤ i + r → y (i + p) = z (i + p)
  low : ∀ i, i &&& p = 0 → i < r → y i = z i

variable (key) in
theorem exchanged_substage (hr : 2 * 2 ^ m ∣ r) (x : Nat → α) :
    Exchanged n (2 ^ m) r (key ∘ x) (key ∘ substage (exchange key) n (2 ^ m) r x) := by
  have hmem (i : Nat) : i ∈ (List.range (n - r)).filter (· &&& 2 ^ m = 0) ↔
      i &&& 2 ^ m = 0 ∧ i + r < n := by
    simp only [List.mem_filter, List.mem_range, decide_eq_true_eq]
    omega
  have hodd {i j : Nat} (hi : i &&& 2 ^ m = 0) (hj : j &&& 2 ^ m = 0) : i + 2 ^ m ≠ j := by
    rintro rfl
    exact add_self_and_two_pow.mp hj hi
  obtain ⟨hpair, hout⟩ := key_exchanges key (List.nodup_range.filter _)
    (add_left_injective (2 ^ m)) (add_left_injective r)
    (fun i hi j hj => hodd ((hmem i).mp hi).1 ((add_and_two_pow hr).mpr ((hmem j).mp hj).1)) x
  rw [substage, foldl_even]
  refine ⟨fun i hi hlt => (hpair i ((hmem i).mpr ⟨hi, hlt⟩)).1,
    fun i hi hlt => (hpair i ((hmem i).mpr ⟨hi, hlt⟩)).2,
    fun i hi hge => congrArg key (hout _ fun j hj => ?_),
    fun i hi hlt => congrArg key (hout _ fun j hj => ?_)⟩
  · obtain ⟨hj, hlt⟩ := (hmem j).mp hj
    exact ⟨by omega, hodd hi ((add_and_two_pow hr).mpr hj)⟩
  · exact ⟨(hodd ((hmem j).mp hj).1 hi).symm, by omega⟩

variable (key) in
theorem key_firstExchanges (x : Nat → α) :
    (∀ i, i &&& 2 ^ m = 0 → i + 2 ^ m < n →
      key (firstExchanges (exchange key) n (2 ^ m) x i) = min (key (x i)) (key (x (i + 2 ^ m))) ∧
      key (firstExchanges (exchange key) n (2 ^ m) x (i + 2 ^ m)) =
        max (key (x i)) (key (x (i + 2 ^ m)))) ∧
    ∀ k, (∀ i, i &&& 2 ^ m = 0 → i + 2 ^ m < n → k ≠ i ∧ k ≠ i + 2 ^ m) →
      firstExchanges (exchange key) n (2 ^ m) x k = x k := by
  have hmem (i : Nat) : i ∈ (List.range (n - 2 ^ m)).filter (· &&& 2 ^ m = 0) ↔
      i &&& 2 ^ m = 0 ∧ i + 2 ^ m < n := by
    simp only [List.mem_filter, List.mem_range, decide_eq_true_eq]
    omega
  have hapart : ∀ i ∈ (List.range (n - 2 ^ m)).filter (· &&& 2 ^ m = 0),
      ∀ j ∈ (List.range (n - 2 ^ m)).filter (· &&& 2 ^ m = 0), i ≠ j + 2 ^ m := by
    rintro i hi j hj rfl
    exact add_self_and_two_pow.mp ((hmem _).mp hi).1 ((hmem j).mp hj).1
  obtain ⟨hpair, hout⟩ := key_exchanges key (List.nodup_range.filter _)
    Function.injective_id (add_left_injective (2 ^ m)) hapart x
  rw [firstExchanges, foldl_even]
  exact ⟨fun i hi hlt => hpair i ((hmem i).mpr ⟨hi, hlt⟩),
    fun k hk => hout k fun i hi => hk i ((hmem i).mp hi).1 ((hmem i).mp hi).2⟩

/-- A place without the bit is below `r`, or it has taken part as the second of a pair. -/
theorem even_cases (hr : 2 * 2 ^ m ∣ r) {i : Nat} (hi : i &&& 2 ^ m = 0) :
    i < r ∨ ∃ j, j &&& 2 ^ m = 0 ∧ i = j + r := by
  rcases Nat.lt_or_ge i r with hlt | hge
  · exact Or.inl hlt
  · obtain ⟨j, rfl⟩ := Nat.exists_eq_add_of_le' hge
    exact Or.inr ⟨j, (add_and_two_pow hr).mp hi, rfl⟩

theorem Merging.le_add {p i : Nat} {z : Nat → κ} (h : Merging n p q z) (hr : 2 * p ∣ r)
    (hlt : i + r < n) : z i ≤ z (i + r) := by
  obtain ⟨c, rfl⟩ := hr
  induction c with
  | zero => exact le_refl _
  | succ c ih =>
    rw [Nat.mul_succ, ← Nat.add_assoc] at hlt ⊢
    exact (ih (by omega)).trans (h.stride _ hlt)

section

variable {z y : Nat → κ} {i : Nat}

theorem Exchanged.fall (h : Exchanged n (2 ^ m) r z y) (hi : i &&& 2 ^ m = 0) :
    y (i + 2 ^ m) ≤ z (i + 2 ^ m) := by
  rcases Nat.lt_or_ge (i + r) n with hlt | hge
  · exact (h.first i hi hlt).trans_le (min_le_left _ _)
  · exact (h.high i hi hge).le

theorem Exchanged.rise (h : Exchanged n (2 ^ m) r z y) (hr : 2 * 2 ^ m ∣ r)
    (hi : i &&& 2 ^ m = 0) (hlt : i < n) : z i ≤ y i := by
  rcases even_cases hr hi with hir | ⟨j, hj, rfl⟩
  · exact (h.low i hi hir).ge
  · exact (le_max_right _ _).trans_eq (h.second j hj hlt).symm

theorem Exchanged.stride (h : Exchanged n (2 ^ m) r z y) (hz : Merging n (2 ^ m) q z)
    (hr : 2 * 2 ^ m ∣ r) (hle : 2 * 2 ^ m ≤ r) (hlt : i + 2 * 2 ^ m < n) :
    y i ≤ y (i + 2 * 2 ^ m) := by
  have hstep {j : Nat} (hj : j &&& 2 ^ m = 0) : (j + 2 * 2 ^ m) &&& 2 ^ m = 0 :=
    (add_and_two_pow (Nat.dvd_refl _)).mpr hj
  rcases em (i &&& 2 ^ m = 0) with hi | hi
  · rcases even_cases hr hi with hir | ⟨j, hj, rfl⟩
    · rw [h.low i hi hir]
      exact (hz.stride i hlt).trans (h.rise hr (hstep hi) hlt)
    · have hodd := hz.stride (j + 2 ^ m) (by omega)
      have heven := hz.stride (j + r) hlt
      rw [Nat.add_right_comm] at hodd heven hlt ⊢
      rw [h.second j hj (by omega), h.second _ (hstep hj) hlt]
      exact max_le_max hodd heven
  · obtain ⟨j, hj, rfl⟩ := exists_even hi
    have hodd := hz.stride (j + 2 ^ m) hlt
    rw [Nat.add_right_comm] at hodd hlt ⊢
    rcases Nat.lt_or_ge (j + 2 * 2 ^ m + r) n with hin | hge
    · have heven := hz.stride (j + r) (by omega)
      rw [Nat.add_right_comm j r] at heven
      rw [h.first j hj (by omega), h.first _ (hstep hj) hin]
      exact min_le_min hodd heven
    · rw [h.high _ (hstep hj) hge]
      exact (h.fall hj).trans hodd

theorem Exchanged.even_le (h : Exchanged n (2 ^ m) r z y) (hz : Merging n (2 ^ m) (2 * r) z)
    (hr : 2 * 2 ^ m ∣ r) (hpos : 0 < r) (hi : i &&& 2 ^ m = 0) (hlt : i + 2 ^ m < n) :
    y i ≤ y (i + 2 ^ m) := by
  have hle : 2 * 2 ^ m ≤ r := Nat.le_of_dvd hpos hr
  have hup : y i ≤ z (i + 2 ^ m) := by
    rcases even_cases hr hi with hir | ⟨j, hj, rfl⟩
    · exact (h.low i hi hir).trans_le (hz.even_le i hi hlt)
    · have hodd := hz.le_add (i := j + 2 ^ m) hr (by omega)
      rw [Nat.add_right_comm] at hodd
      rw [h.second j hj (by omega)]
      exact max_le hodd (hz.even_le _ hi hlt)
  rcases Nat.lt_or_ge (i + r) n with hin | hge
  · rw [h.first i hi hin]
    refine le_min hup ?_
    rcases even_cases hr hi with hir | ⟨j, hj, rfl⟩
    · exact (h.low i hi hir).trans_le (hz.le_add hr hin)
    · have hodd := hz.odd_le j hj (by omega)
      rw [Nat.two_mul, ← Nat.add_assoc] at hodd
      rw [h.second j hj (by omega)]
      exact max_le hodd (hz.le_add hr hin)
  · rw [h.high i hi hge]
    exact hup

end

/-- The exchanges at the distance `r - p` halve the number of places up to which the classes are
interleaved. -/
theorem Merging.substage (h : Merging n (2 ^ m) (2 * r) (key ∘ x)) (hr : 2 * 2 ^ m ∣ r)
    (hpos : 0 < r) : Merging n (2 ^ m) r (key ∘ CLib.substage (exchange key) n (2 ^ m) r x) := by
  have hex := exchanged_substage (n := n) key hr x
  have hle : 2 * 2 ^ m ≤ r := Nat.le_of_dvd hpos hr
  refine ⟨fun i => hex.stride h hr hle, fun i => hex.even_le h hr hpos, fun i hi hlt => ?_⟩
  rw [hex.first i hi hlt, hex.second i hi hlt]
  exact (min_le_left _ _).trans (le_max_left _ _)

/-- Sorted classes modulo `2 * p` before the first exchanges. -/
theorem Merging.first (h : ∀ i, i + 2 * 2 ^ m < n → key (x i) ≤ key (x (i + 2 * 2 ^ m)))
    (hq : n ≤ q) : Merging n (2 ^ m) q (key ∘ firstExchanges (exchange key) n (2 ^ m) x) := by
  obtain ⟨hpair, hout⟩ := key_firstExchanges (n := n) (m := m) key x
  have hstep {i : Nat} : (i + 2 * 2 ^ m) &&& 2 ^ m = 0 ↔ i &&& 2 ^ m = 0 :=
    add_and_two_pow (Nat.dvd_refl _)
  have hpow := Nat.two_pow_pos m
  refine ⟨fun i hlt => ?_, fun i hi hlt => ?_, fun i hi hlt => by omega⟩
  · rw [Function.comp_apply, Function.comp_apply]
    rcases em (i &&& 2 ^ m = 0) with hi | hi
    · have heven := h i hlt
      rw [(hpair i hi (by omega)).1]
      rcases Nat.lt_or_ge (i + 2 * 2 ^ m + 2 ^ m) n with hin | hge
      · have hodd := h (i + 2 ^ m) (by omega)
        rw [Nat.add_right_comm] at hodd
        rw [(hpair _ (hstep.mpr hi) hin).1]
        exact min_le_min heven hodd
      · rw [hout (i + 2 * 2 ^ m) fun j hj hjn => ⟨by omega, fun heq => ?_⟩]
        · exact (min_le_left _ _).trans heven
        · exact add_self_and_two_pow.mp (heq ▸ hstep.mpr hi) hj
    · obtain ⟨j, hj, rfl⟩ := exists_even hi
      have hodd := h (j + 2 ^ m) hlt
      have heven := h j (by omega)
      rw [Nat.add_right_comm] at hodd hlt ⊢
      rw [(hpair j hj (by omega)).2, (hpair _ (hstep.mpr hj) hlt).2]
      exact max_le_max heven hodd
  · rw [Function.comp_apply, Function.comp_apply, (hpair i hi hlt).1, (hpair i hi hlt).2]
    exact min_le_max

/-- Classes that are interleaved up to the next place are one sorted class. -/
theorem Merging.sorted {z : Nat → κ} (h : Merging n (2 ^ m) (2 * 2 ^ m) z) {i : Nat}
    (hlt : i + 2 ^ m < n) : z i ≤ z (i + 2 ^ m) := by
  rcases em (i &&& 2 ^ m = 0) with hi | hi
  · exact h.even_le i hi hlt
  · obtain ⟨j, hj, rfl⟩ := exists_even hi
    have hodd := h.odd_le j hj (by omega)
    rwa [Nat.two_mul, ← Nat.add_assoc] at hodd

theorem Merging.substages {k : Nat} (h : Merging n (2 ^ m) (2 * 2 ^ (m + k)) (key ∘ x)) :
    Merging n (2 ^ m) (2 * 2 ^ m) (key ∘
      (halvings (2 ^ m) (2 ^ (m + k))).foldl
        (fun x r => CLib.substage (exchange key) n (2 ^ m) r x) x) := by
  induction k generalizing x with
  | zero =>
    rw [Nat.add_zero, halvings_of_le (Nat.le_refl _)]
    exact h
  | succ k ih =>
    have hpow := Nat.two_pow_pos m
    have hsucc : 2 ^ (m + (k + 1)) = 2 * 2 ^ (m + k) := by
      rw [← Nat.add_assoc, Nat.pow_succ, Nat.mul_comm]
    have hle : 2 ^ m ≤ 2 ^ (m + k) := Nat.pow_le_pow_right (by decide) (Nat.le_add_right m k)
    rw [hsucc, halvings_of_lt (by omega), List.foldl_cons, Nat.mul_div_cancel_left _ (by decide)]
    refine ih ((hsucc ▸ h).substage ?_ (by omega))
    exact Nat.mul_dvd_mul_left 2 (Nat.pow_dvd_pow 2 (Nat.le_add_right m k))

theorem stage_sorted {k : Nat} (hn : n ≤ 2 * 2 ^ (m + k))
    (h : ∀ i, i + 2 * 2 ^ m < n → key (x i) ≤ key (x (i + 2 * 2 ^ m))) {i : Nat}
    (hlt : i + 2 ^ m < n) : key (stage (exchange key) n (2 ^ (m + k)) (2 ^ m) x i) ≤
      key (stage (exchange key) n (2 ^ (m + k)) (2 ^ m) x (i + 2 ^ m)) :=
  (Merging.first h hn).substages.sorted hlt

theorem stages_sorted {k : Nat} (hmk : m ≤ k) (hn : n ≤ 2 * 2 ^ k)
    (h : ∀ i, i + 2 * 2 ^ m < n → key (x i) ≤ key (x (i + 2 * 2 ^ m))) {i : Nat}
    (hlt : i + 1 < n) :
    key ((halvings 0 (2 ^ m)).foldl (fun x p => stage (exchange key) n (2 ^ k) p x) x i) ≤
      key ((halvings 0 (2 ^ m)).foldl (fun x p => stage (exchange key) n (2 ^ k) p x) x
        (i + 1)) := by
  induction m generalizing x with
  | zero =>
    obtain ⟨l, rfl⟩ := Nat.exists_eq_add_of_le hmk
    rw [halvings_of_lt (by decide), List.foldl_cons, halvings_of_le (by decide), List.foldl_nil]
    exact stage_sorted hn h hlt
  | succ m ih =>
    have hsucc : 2 ^ (m + 1) = 2 * 2 ^ m := by rw [Nat.pow_succ, Nat.mul_comm]
    rw [halvings_of_lt (Nat.two_pow_pos _), List.foldl_cons,
      show 2 ^ (m + 1) / 2 = 2 ^ m by omega]
    obtain ⟨l, rfl⟩ := Nat.exists_eq_add_of_le hmk
    refine ih (by omega) fun i hi => ?_
    rw [← hsucc] at hi ⊢
    exact stage_sorted hn h hi

/-- The merge exchange sorts. -/
theorem mergeExchange_sorted {k : Nat} (hn : n ≤ 2 * 2 ^ k) (x : Nat → α) {i j : Nat}
    (hij : i ≤ j) (hj : j < n) :
    key (mergeExchange (exchange key) n (2 ^ k) x i) ≤
      key (mergeExchange (exchange key) n (2 ^ k) x j) := by
  induction j, hij using Nat.le_induction with
  | base => exact le_refl _
  | succ j hij ih =>
    exact (ih (by omega)).trans (stages_sorted (Nat.le_refl k) hn (fun i hi => by omega) hj)

theorem rearranged_mergeExchange (n top : Nat) (x : Nat → α) :
    Rearranged n x (mergeExchange (exchange key) n top x) :=
  (mergeExchange_rel (R := fun y z => y = z ∧ Rearranged n x y)
    (fun _ _ y _ hij hj h => ⟨congrArg _ h.1,
      h.2.trans (rearranged_exchange (hij.trans hj) hj y)⟩) top ⟨rfl, .refl n x⟩).2

end Merge

end CLib
