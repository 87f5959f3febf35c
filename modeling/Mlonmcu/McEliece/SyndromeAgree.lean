import Mlonmcu.McEliece.SyndromeRvv

/-! On which harts `syndrome_rvv` agrees with `syndrome`. -/

namespace Mlonmcu.McEliece

open CLib

variable {h : Hart Site} {pk e : Memory}

theorem vlmaxM1_eq (h : Hart Site) : ∃ n, h.vlen = 2 ^ (n + 5) ∧ h.vlmaxM1 = 2 ^ (n + 2) := by
  obtain ⟨n, hn⟩ := h.vlen_eq
  refine ⟨n, hn, ?_⟩
  rw [Hart.vlmaxM1, hn, show n + 5 = n + 2 + 3 by omega, Nat.pow_add _ _ 3]
  omega

theorem eight_mul_vlmaxM1 (h : Hart Site) : 8 * h.vlmaxM1 = h.vlen := by
  obtain ⟨n, hvlen, hmax⟩ := vlmaxM1_eq h
  rw [hmax, hvlen, show n + 5 = 3 + (n + 2) by omega, Nat.pow_add _ 3]

theorem vlmaxM1_pos (h : Hart Site) : 0 < h.vlmaxM1 := by
  obtain ⟨n, -, hn⟩ := vlmaxM1_eq h
  rw [hn]
  exact Nat.two_pow_pos _

/-! ### The copy of the error vector -/

theorem run_vse8 {vl offset : Nat} (hvl : vl ≤ h.vlmaxM8) (v : Vec) (c : Cells) :
    (vse8 h offset v vl).run c = (.done (), {
      mem := fun q => if offset ≤ q ∧ q < offset + vl then v (q - offset) else c.mem q
      stored := c.stored ++ List.range' offset vl }) := by
  rw [vse8, h.vsetvl_le _ _ hvl]
  rfl

theorem run_copyLoop {fuel remaining : Nat} (hfuel : remaining < fuel) (offset : Nat) (c : Cells) :
    (copyLoop h e fuel offset remaining).run c = (.done (), {
      mem := fun q => if offset ≤ q ∧ q < offset + remaining then e q else c.mem q
      stored := c.stored ++ List.range' offset remaining }) := by
  induction fuel generalizing remaining offset c with
  | zero => omega
  | succ fuel ih =>
    rw [copyLoop]
    by_cases hpos : remaining > 0
    · have hmax : 0 < h.vlmaxM8 := by
        obtain ⟨n, hn⟩ := h.vlen_eq
        rw [Hart.vlmaxM8, hn]
        exact Nat.two_pow_pos _
      obtain ⟨hvl, hle, hvlmax⟩ := Hart.vsetvl_bounds h hmax hpos
      rw [if_pos hpos]
      dsimp only
      rw [Prog.bind_done (run_vse8 hvlmax _ c), ih (by omega)]
      refine Prod.ext rfl (Cells.ext (funext fun q => ?_) ?_)
      · dsimp only
        by_cases hnew : offset ≤ q ∧ q < offset + h.vsetvl h.vlmaxM8 remaining
        · have hlane := @Hart.lanes_of_lt Site h _ _ (q - offset) hvlmax (by omega)
            (.errorVector8 offset) (e.drop offset)
          rw [if_neg (by omega), if_pos hnew, if_pos (by omega), Hart.vle8, hlane, Memory.drop,
            Nat.add_sub_cancel' hnew.1]
        · rw [if_neg hnew]
          congr 1
          exact propext ⟨by omega, by omega⟩
      · dsimp only
        rw [List.append_assoc, List.range'_append_1, Nat.add_sub_cancel' hle]
    · obtain rfl : remaining = 0 := by omega
      rw [if_neg hpos, Prog.run_pure]
      refine Prod.ext rfl (Cells.ext (funext fun q => ?_) ?_)
      · exact (if_neg (by omega)).symm
      · exact (List.append_nil _).symm

/-- The syndrome with the first bytes of the error vector. -/
def copied (s e : Memory) : Cells where
  mem := fun q => if q < syndBytes then e q else s q
  stored := List.range' 0 syndBytes

theorem run_copy {fuel : Nat} (hfuel : syndBytes < fuel) (s : Memory) :
    (copyLoop h e fuel 0 syndBytes).run ⟨s, []⟩ = (.done (), copied s e) := by
  rw [run_copyLoop hfuel]
  simp [copied]

/-! ### The rows of a round -/

/-- An element of the accumulator has the parity of the products of its row so far. -/
theorem accumulate_lane {ptr vlRow k : Nat} (hmax : vlRow ≤ h.vlmaxM1) (hk : k < vlRow) (n : Nat) :
    parity 8 (accumulate h pk e ptr vlRow n k).toNat =
      xorSum (fun j => parity 8 (pk (ptr + k * pkRowBytes + j) &&& e (syndBytes + j)).toNat) n := by
  induction n with
  | zero =>
    rw [accumulate, Hart.vmvVX, Hart.lanes_of_lt (Nat.le_refl _) (by omega)]
    rfl
  | succ n ih =>
    have hpk : pk.drop (ptr + n) (k * pkRowBytes) = pk (ptr + k * pkRowBytes + n) :=
      congrArg pk (by omega)
    rw [accumulate]
    dsimp only [Hart.vmvVX, Hart.vlse8, Hart.vandVV, Hart.vxorVV]
    rw [Hart.lanes_of_lt hmax hk, Hart.lanes_of_lt hmax hk, Hart.lanes_of_lt hmax hk,
      Hart.lanes_of_lt hmax hk, UInt8.toNat_xor, parity_xor, ih, hpk, UInt8.and_comm, xorSum]

theorem cpop_and_one (x : UInt8) :
    (⟨x.toBitVec.cpop⟩ : UInt8) &&& 1 = (parity 8 x.toNat).toUInt8 := by
  have hall : ∀ n : Fin 256, (⟨(UInt8.ofFin n).toBitVec.cpop⟩ : UInt8) &&& 1 =
      (parity 8 (UInt8.ofFin n).toNat).toUInt8 := by
    decide +kernel
  exact hall x.toFin

theorem parities_lane {row vlRow k : Nat} (hmax : vlRow ≤ h.vlmaxM1) (hk : k < vlRow) :
    parities h pk e (row * pkRowBytes) vlRow k = (rowParity pk e (row + k)).toUInt8 := by
  have hptr : row * pkRowBytes + k * pkRowBytes = pkRowBytes * (row + k) := by
    rw [← Nat.add_mul, Nat.mul_comm]
  rw [parities]
  dsimp only [Hart.vandVX, Hart.vcpopV]
  rw [Hart.lanes_of_lt hmax hk, Hart.lanes_of_lt hmax hk, cpop_and_one, accumulate_lane hmax hk,
    hptr]
  rfl

/-! ### The bytes of a round -/

/-- Eight bits in a byte. -/
def pack (f : Nat → Bool) : Nat → UInt8
  | 0 => 0
  | k + 1 => pack f k ^^^ (f k).toUInt8 <<< UInt8.ofNat k

theorem syndromeByte_eq (q k : Nat) :
    syndromeByte pk e q k = e q ^^^ pack (fun k => rowParity pk e (8 * q + k)) k := by
  induction k with
  | zero => exact (UInt8.xor_zero).symm
  | succ k ih => rw [syndromeByte, ih, pack, UInt8.xor_assoc]

/-- The reduction of eight shifted bits packs them. -/
theorem reduced_eq (h8 : 8 ≤ h.vlmaxM1) (ptr i : Nat) {acc : Vec} {f : Nat → Bool}
    (hacc : ∀ k < 8, acc k = (f k).toUInt8) :
    let redRes := h.vsllVV (.shifted ptr i) acc (shiftVector h) 8
    Hart.vmvXS (h.vredorVS (.reduced ptr i) redRes redRes 8) = pack f 8 := by
  intro redRes
  have hlane (k : Nat) (hk : k < 8) : redRes k = (f k).toUInt8 <<< UInt8.ofNat k := by
    have hshift : shiftVector h k = UInt8.ofNat k := by
      rw [shiftVector, Hart.vle8, Hart.lanes_of_lt h8 hk]
      have hall : ∀ k : Fin 8, bitShifts k = UInt8.ofNat k := by decide
      exact hall ⟨k, hk⟩
    rw [← hshift, ← hacc k hk]
    exact Hart.lanes_of_lt h8 hk _ _
  have hvl : h.vsetvl h.vlmaxM1 8 = 8 := h.vsetvl_le _ _ h8
  have hfold : Hart.vmvXS (h.vredorVS (.reduced ptr i) redRes redRes 8) =
      [0, 1, 2, 3, 4, 5, 6, 7].foldl (fun x i => x ||| redRes i) (redRes 0) := by
    rw [Hart.vmvXS, Hart.vredorVS, hvl]
    exact if_pos ⟨rfl, by decide⟩
  have hbits : ∀ a b c d e f g x : Bool,
      let bit (b : Bool) (k : Nat) := b.toUInt8 <<< UInt8.ofNat k
      bit a 0 ||| bit a 0 ||| bit b 1 ||| bit c 2 ||| bit d 3 ||| bit e 4 ||| bit f 5 |||
          bit g 6 ||| bit x 7 =
        0 ^^^ bit a 0 ^^^ bit b 1 ^^^ bit c 2 ^^^ bit d 3 ^^^ bit e 4 ^^^ bit f 5 ^^^ bit g 6 ^^^
          bit x 7 := by
    decide
  rw [hfold]
  simp only [List.foldl_cons, List.foldl_nil, pack]
  rw [hlane 0 (by decide), hlane 1 (by decide), hlane 2 (by decide), hlane 3 (by decide),
    hlane 4 (by decide), hlane 5 (by decide), hlane 6 (by decide), hlane 7 (by decide)]
  exact hbits _ _ _ _ _ _ _ _

/-- The bytes that a loop adds to the syndrome: one for each eight elements, when a register has
room for eight. -/
def Adds (h : Hart Site) (vlRow n : Nat) (acc : Vec) (index : Nat) (c t : Cells) : Prop :=
  8 ≤ h.vlmaxM1 → vlRow ≤ h.vlmaxM1 → 8 * n ≤ vlRow → ∀ f : Nat → Bool,
    (∀ k < 8 * n, acc k = (f k).toUInt8) →
      ∀ q, t.mem q = if index ≤ q ∧ q < index + n then
        c.mem q ^^^ pack (fun k => f (8 * (q - index) + k)) 8 else c.mem q

theorem run_writeLoop (ptr vlRow n : Nat) (acc : Vec) (i index : Nat) (c : Cells) : ∃ t,
    (writeLoop h ptr vlRow n acc i index).run c = (.done (index + n), t) ∧
      t.stored = c.stored ++ List.range' index n ∧ Adds h vlRow n acc index c t := by
  induction n generalizing acc i index c with
  | zero =>
    refine ⟨c, rfl, (List.append_nil _).symm, fun _ _ _ _ _ q => (if_neg (by omega)).symm⟩
  | succ n ih =>
    let redRes := h.vsllVV (.shifted ptr i) acc (shiftVector h) 8
    let syndRes := Hart.vmvXS (h.vredorVS (.reduced ptr i) redRes redRes 8)
    obtain ⟨t, hrun, hstored, hadds⟩ := ih (h.vslidedownVX (.slid ptr i) acc 8 vlRow) (i + 8)
      (index + 1) {
        mem := Function.update c.mem index (c.mem index ^^^ syndRes)
        stored := c.stored ++ [index] }
    refine ⟨t, ?_, ?_, ?_⟩
    · rw [show index + (n + 1) = index + 1 + n by omega, ← hrun]
      rfl
    · rw [hstored, List.range'_succ, List.append_assoc]
      rfl
    · intro h8 hmax hlen f hacc q
      have hslid (k : Nat) (hk : k < 8 * n) :
          h.vslidedownVX (.slid ptr i) acc 8 vlRow k = (f (k + 8)).toUInt8 := by
        rw [Hart.vslidedownVX, Hart.lanes_of_lt hmax (by omega), if_pos (by omega),
          hacc _ (by omega)]
      have hsyndRes : syndRes = pack f 8 := reduced_eq h8 ptr i fun k hk => hacc k (by omega)
      rw [hadds h8 hmax (by omega) (fun k => f (k + 8)) hslid q]
      dsimp only
      by_cases hq : q = index
      · subst hq
        rw [if_neg (by omega), if_pos (by omega), Function.update_self, hsyndRes]
        simp
      · rw [Function.update_of_ne hq]
        by_cases hlater : index + 1 ≤ q ∧ q < index + 1 + n
        · have hrows : (fun k => f (8 * (q - (index + 1)) + k + 8)) =
              fun k => f (8 * (q - index) + k) := by
            funext k
            exact congrArg f (by omega)
          rw [if_pos hlater, if_pos (by omega), hrows]
        · rw [if_neg hlater, if_neg (by omega)]

/-! ### The rounds -/

/-- The bytes that a round writes. -/
def rowGroups (h : Hart Site) (remainingRows : Nat) : Nat := (rowLength h remainingRows + 7) / 8

theorem run_rowLoop_succ {remaining : Nat} (hpos : 0 < remaining) (fuel ptr index : Nat)
    (c : Cells) : ∃ t, (rowLoop h pk e (fuel + 1) remaining ptr index).run c =
      (rowLoop h pk e fuel (remaining - rowLength h remaining)
        (ptr + rowLength h remaining * pkRowBytes) (index + rowGroups h remaining)).run t ∧
      t.stored = c.stored ++ List.range' index (rowGroups h remaining) ∧
      Adds h (rowLength h remaining) (rowGroups h remaining)
        (parities h pk e ptr (rowLength h remaining)) index c t := by
  obtain ⟨t, hrun, hstored, hadds⟩ := run_writeLoop ptr (rowLength h remaining)
    (rowGroups h remaining) (parities h pk e ptr (rowLength h remaining)) 0 index c
  refine ⟨t, ?_, hstored, hadds⟩
  rw [rowLoop, if_pos hpos]
  exact Prog.bind_done hrun

/-- A register holds at least eight elements, and when it holds 512, the first round takes a
multiple of eight rows. -/
def Suitable (h : Hart Site) : Prop :=
  h.vlen ≠ 32 ∧ (h.vlen = 4096 → h.vsetvl h.vlmaxM1 pkNrows % 8 < 4)

theorem Suitable.vlmaxM1 (hsuitable : Suitable h) : h.vlmaxM1 % 8 = 0 := by
  obtain ⟨n, hvlen, hmax⟩ := vlmaxM1_eq h
  cases n with
  | zero => exact absurd hvlen hsuitable.1
  | succ n =>
    rw [hmax, show n + 1 + 2 = n + 3 by omega, Nat.pow_add 2 n]
    omega

/-- The numbers of rows that can be left: the rounds take multiples of eight rows. -/
structure Whole (h : Hart Site) (remaining : Nat) : Prop where
  eights : remaining % 8 = 0
  cases : remaining ≤ h.vlmaxM1 ∨ remaining % h.vlmaxM1 = 0 ∨
    remaining = pkNrows ∧ h.vlmaxM1 = 512

theorem whole_pkNrows (hsuitable : Suitable h) : Whole h pkNrows where
  eights := by decide
  cases := by
    obtain ⟨n, hvlen, hmax⟩ := vlmaxM1_eq h
    rw [hmax]
    rcases Nat.lt_or_ge n 8 with hsmall | hlarge
    · have hn : n ≠ 0 := fun hzero => hsuitable.1 (by rw [hvlen, hzero]; decide)
      have hall : ∀ n < 8, n ≠ 0 →
          pkNrows % 2 ^ (n + 2) = 0 ∨ pkNrows = pkNrows ∧ 2 ^ (n + 2) = 512 := by
        decide
      exact .inr (hall n hsmall hn)
    · have hpow : 2 ^ 10 ≤ 2 ^ (n + 2) := Nat.pow_le_pow_right (by decide) (by omega)
      rw [show pkNrows = 768 from rfl]
      exact .inl (by omega)

theorem Whole.rowLength (hsuitable : Suitable h) {remaining : Nat} (hwhole : Whole h remaining)
    (hpos : 0 < remaining) :
    let vlRow := McEliece.rowLength h remaining
    0 < vlRow ∧ vlRow ≤ remaining ∧ vlRow ≤ h.vlmaxM1 ∧ vlRow % 8 = 0 ∧
      Whole h (remaining - vlRow) := by
  have hmax := hsuitable.vlmaxM1
  have heights := hwhole.eights
  have hpos' := vlmaxM1_pos h
  intro vlRow
  by_cases hle : remaining ≤ h.vlmaxM1
  · have hvl : vlRow = remaining := by
      simp only [vlRow, McEliece.rowLength, h.vsetvl_le _ _ hle]
      omega
    rw [hvl]
    exact ⟨hpos, Nat.le_refl _, hle, heights, by omega, .inl (by omega)⟩
  rcases hwhole.cases.resolve_left hle with hmultiple | ⟨hrows, h512⟩
  · obtain ⟨q, hq⟩ := Nat.dvd_of_mod_eq_zero hmultiple
    have h2 : 2 * h.vlmaxM1 ≤ remaining := by
      have htwo : 2 ≤ q := by
        by_contra hlt
        have hone := Nat.mul_le_mul_left h.vlmaxM1 (show q ≤ 1 by omega)
        omega
      rw [hq, Nat.mul_comm]
      exact Nat.mul_le_mul_left _ htwo
    have hvl : vlRow = h.vlmaxM1 := by
      simp only [vlRow, McEliece.rowLength, h.vsetvl_ge _ _ h2]
      omega
    rw [hvl]
    have hrest := Nat.mod_eq_sub_mod (show remaining ≥ h.vlmaxM1 by omega)
    exact ⟨hpos', by omega, Nat.le_refl _, hmax, by omega, .inr (.inl (hrest ▸ hmultiple))⟩
  · have hvlen : h.vlen = 4096 := by
      rw [← eight_mul_vlmaxM1, h512]
    have hodd := hsuitable.2 hvlen
    have hbounds := h.vsetvl_lt h.vlmaxM1 pkNrows (by rw [h512]; decide) (by rw [h512]; decide)
    rw [show pkNrows = 768 from rfl] at hodd hbounds hrows
    have hvl : vlRow = h.vsetvl h.vlmaxM1 768 / 4 * 4 := by
      rw [← hrows]
      rfl
    refine ⟨by omega, by omega, by omega, by omega, by omega, .inl (by omega)⟩

/-- On a suitable hart the rounds add the rows that are left to the syndrome. -/
theorem run_rowLoop (hsuitable : Suitable h) {fuel remaining index : Nat}
    (hwhole : Whole h remaining) (hfuel : remaining < fuel) (c : Cells) : ∃ t,
      (rowLoop h pk e fuel remaining (8 * index * pkRowBytes) index).run c = (.done (), t) ∧
        t.stored = c.stored ++ List.range' index (remaining / 8) ∧
        ∀ q, t.mem q = if index ≤ q ∧ q < index + remaining / 8 then
          c.mem q ^^^ pack (fun k => rowParity pk e (8 * q + k)) 8 else c.mem q := by
  induction fuel generalizing remaining index c with
  | zero => omega
  | succ fuel ih =>
    have heights := hwhole.eights
    rcases Nat.eq_zero_or_pos remaining with rfl | hpos
    · exact ⟨c, rfl, (List.append_nil _).symm, fun q => (if_neg (by omega)).symm⟩
    obtain ⟨hvl, hle, hmax, hvl8, hrest⟩ := hwhole.rowLength hsuitable hpos
    obtain ⟨t, hrun, hstored, hadds⟩ := @run_rowLoop_succ h pk e remaining hpos fuel
      (8 * index * pkRowBytes) index c
    have hgroups : rowGroups h remaining = rowLength h remaining / 8 := by
      unfold rowGroups
      omega
    have hmem := hadds (by have := hsuitable.vlmaxM1; omega) hmax (by omega)
      (fun k => rowParity pk e (8 * index + k)) fun k hk => parities_lane hmax (by omega)
    have hptr : 8 * index * pkRowBytes + rowLength h remaining * pkRowBytes =
        8 * (index + rowGroups h remaining) * pkRowBytes := by
      rw [← Nat.add_mul]
      congr 1
      omega
    rw [hptr] at hrun
    obtain ⟨t', hrun', hstored', hmem'⟩ := @ih _ (index + rowGroups h remaining) hrest (by omega) t
    refine ⟨t', hrun.trans hrun', ?_, fun q => ?_⟩
    · rw [hstored', hstored, List.append_assoc, List.range'_append_1]
      congr 2
      omega
    · rw [hmem', hmem]
      by_cases hnew : index ≤ q ∧ q < index + rowGroups h remaining
      · have hrows : (fun k => rowParity pk e (8 * index + (8 * (q - index) + k))) =
            fun k => rowParity pk e (8 * q + k) := by
          funext k
          exact congrArg (rowParity pk e) (by omega)
        rw [if_neg (by omega), if_pos hnew, if_pos (by omega), hrows]
      · rw [if_neg hnew]
        congr 1
        exact propext ⟨by omega, by omega⟩

theorem agrees (hsuitable : Suitable h) (s : Memory) : Agrees h s pk e := by
  intro fuel hfuel
  have hcopy := @run_copy h e fuel (Nat.lt_trans (by decide) hfuel) s
  obtain ⟨t, hrun, hstored, hmem⟩ := @run_rowLoop h pk e hsuitable fuel pkNrows 0
    (whole_pkNrows hsuitable) hfuel (copied s e)
  rw [show pkNrows / 8 = syndBytes by decide] at hstored hmem
  refine ⟨t, (Prog.bind_done hcopy).trans (by simpa using hrun), fun q hq => ?_, fun q => ?_⟩
  · simpa [hstored, copied, List.mem_range'_1] using hq
  · have hcopied : (copied s e).mem q = if q < syndBytes then e q else s q := rfl
    rw [hmem, hcopied]
    by_cases hq : q < syndBytes
    · rw [if_pos ⟨Nat.zero_le q, by omega⟩, if_pos hq, if_pos hq, syndrome_eq s pk e hq,
        syndromeByte_eq]
    · rw [if_neg (by omega), if_neg hq, if_neg hq]

/-! ### Unsuitable harts -/

/-- With four elements in a register each round writes a byte for four rows. -/
theorem run_rowLoop_four (h4 : h.vlmaxM1 = 4) {fuel rounds : Nat} (hfuel : rounds < fuel)
    (ptr index : Nat) (c : Cells) : ∃ t,
      (rowLoop h pk e fuel (4 * rounds) ptr index).run c = (.done (), t) ∧
        t.stored = c.stored ++ List.range' index rounds := by
  induction fuel generalizing rounds ptr index c with
  | zero => omega
  | succ fuel ih =>
    cases rounds with
    | zero => exact ⟨c, rfl, (List.append_nil _).symm⟩
    | succ rounds =>
      obtain ⟨t, hrun, hstored, -⟩ := @run_rowLoop_succ h pk e (4 * (rounds + 1)) (by omega) fuel
        ptr index c
      have hvl : rowLength h (4 * (rounds + 1)) = 4 := by
        unfold rowLength
        rcases Nat.eq_zero_or_pos rounds with rfl | hpos
        · rw [h4, h.vsetvl_le 4 _ (by omega)]
        · rw [h4, h.vsetvl_ge 4 _ (by omega)]
      have hgroups : rowGroups h (4 * (rounds + 1)) = 1 := by
        rw [rowGroups, hvl]
      rw [hvl, hgroups, show 4 * (rounds + 1) - 4 = 4 * rounds by omega] at hrun
      rw [hgroups] at hstored
      obtain ⟨t', hrun', hstored'⟩ := @ih rounds (by omega) (ptr + 4 * pkRowBytes) (index + 1) t
      refine ⟨t', hrun.trans hrun', ?_⟩
      rw [hstored', hstored, List.append_assoc, List.range'_append_1, Nat.add_comm 1]

theorem not_agrees_of_stored {s : Memory} (hrows : ∀ c : Cells, ∃ t,
    (rowLoop h pk e (pkNrows + 1) pkNrows 0 0).run c = (.done (), t) ∧ syndBytes ∈ t.stored) :
    ¬ Agrees h s pk e := by
  intro hagrees
  obtain ⟨t, hrun, hstored, -⟩ := hagrees (pkNrows + 1) (Nat.lt_succ_self _)
  have hcopy := @run_copy h e (pkNrows + 1) (by decide) s
  obtain ⟨t', hrun', hmem⟩ := hrows (copied s e)
  have hsame := hrun.symm.trans ((Prog.bind_done hcopy).trans hrun')
  rw [Prod.mk.injEq] at hsame
  rw [← hsame.2] at hmem
  exact absurd (hstored _ hmem) (Nat.lt_irrefl _)

theorem not_agrees_four (h4 : h.vlmaxM1 = 4) (s pk e : Memory) : ¬ Agrees h s pk e := by
  apply not_agrees_of_stored
  intro c
  obtain ⟨t, hrun, hstored⟩ := @run_rowLoop_four h pk e h4 (pkNrows + 1) 192 (by decide) 0 0 c
  refine ⟨t, hrun, ?_⟩
  rw [hstored, List.mem_append, List.mem_range'_1]
  exact .inr (by decide)

/-- A first round that does not take a multiple of eight rows leaves four rows of a byte for the
second and last round, so that the rounds write a byte too many. -/
theorem not_agrees_split (h512 : h.vlmaxM1 = 512) (hodd : 4 ≤ h.vsetvl h.vlmaxM1 pkNrows % 8)
    (s pk e : Memory) : ¬ Agrees h s pk e := by
  have hbounds := h.vsetvl_lt h.vlmaxM1 pkNrows (by rw [h512]; decide) (by rw [h512]; decide)
  have hfirst : rowLength h 768 = h.vsetvl h.vlmaxM1 pkNrows / 4 * 4 := rfl
  rw [show (pkNrows + 1) / 2 = 384 by decide] at hbounds
  obtain ⟨rest, hrest⟩ : ∃ rest, 768 - rowLength h 768 = rest := ⟨_, rfl⟩
  have hsecond : rowLength h rest = rest := by
    rw [rowLength, h.vsetvl_le _ _ (by omega)]
    omega
  have hgroups : rowGroups h 768 + rowGroups h rest = 97 := by
    unfold rowGroups
    omega
  apply not_agrees_of_stored
  intro c
  obtain ⟨t, hrun, hstored, -⟩ := @run_rowLoop_succ h pk e 768 (by decide) 768 0 0 c
  rw [hrest] at hrun
  obtain ⟨t', hrun', hstored', -⟩ := @run_rowLoop_succ h pk e rest (by omega) 767
    (0 + rowLength h 768 * pkRowBytes) (0 + rowGroups h 768) t
  rw [hsecond, Nat.sub_self] at hrun'
  refine ⟨t', (hrun.trans hrun').trans rfl, ?_⟩
  rw [hstored', hstored, List.append_assoc, List.range'_append_1, hgroups, List.mem_append,
    List.mem_range'_1]
  exact .inr (by decide)

/-- `syndrome_rvv` agrees with `syndrome` exactly on suitable harts. -/
theorem agrees_iff (h : Hart Site) (s pk e : Memory) : Agrees h s pk e ↔ Suitable h := by
  constructor
  · intro hagrees
    refine ⟨fun hvlen => ?_, fun hvlen => ?_⟩
    · exact not_agrees_four (by rw [Hart.vlmaxM1, hvlen]) s pk e hagrees
    · by_contra hodd
      exact not_agrees_split (by rw [Hart.vlmaxM1, hvlen]) (Nat.not_lt.mp hodd) s pk e hagrees
  · exact fun hsuitable => agrees hsuitable s

/-- A hart with the smallest registers. -/
def smallHart : Hart Site where
  vlen := 32
  vsetvl vlmax avl := min vlmax avl
  tail _ _ := 0
  vlen_eq := ⟨0, rfl⟩
  vsetvl_le vlmax avl hle := Nat.min_eq_right hle
  vsetvl_lt vlmax avl hlt hsmall := by omega
  vsetvl_ge vlmax avl hge := by omega

theorem not_agrees_smallHart : ¬ Agrees smallHart (fun _ => 0) (fun _ => 0) fun _ => 0 :=
  not_agrees_four rfl _ _ _

end Mlonmcu.McEliece
