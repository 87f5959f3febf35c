import Mlonmcu.CLib.Blocks
import Mlonmcu.CLib.Loops
import Mlonmcu.CLib.Xorshift
import Mlonmcu.McEliece.Cells

/-! The pseudorandom generator of `randombytes.c`, which `encrypt.c` repeats. -/

namespace Mlonmcu.McEliece

open CLib

/-- `rng_state`, and the memory that a buffer points to. -/
structure Random where
  rngState : UInt64
  cells : Cells

def xorshift64star : Prog Random UInt64 := do
  let s ← Prog.get
  let x := s.rngState
  let x := x ^^^ x >>> 12
  let x := x ^^^ x <<< 25
  let x := x ^^^ x >>> 27
  Prog.modify fun s => { s with rngState := x }
  pure (x * 2685821657736338717)

/-- The loop over `j`, which stores a word at `buf[i]`.  As `i` is a multiple of 8, `i + j` does not
wrap. -/
def storeWord (buf n i : Nat) (rnd : UInt64) (j : Nat) : Prog Random Unit :=
  if j < 8 ∧ i + j < n then do
    Prog.modify fun s => { s with
      cells := s.cells.put (buf + (i + j)) (rnd >>> UInt64.ofNat (8 * j) &&& 0xFF).toUInt8 }
    storeWord buf n i rnd (j + 1)
  else pure ()
  termination_by 8 - j

def fillByte (buf n i : Nat) : Prog Random Unit :=
  if i &&& 7 = 0 then do
    let rnd ← xorshift64star
    storeWord buf n i rnd 0
  else pure ()

def randombytes (buf n : Nat) : Prog Random Unit := forEach (fillByte buf n) (List.range n)

/-! ### The generator -/

/-- The update of the state. -/
def nextState (x : UInt64) : UInt64 :=
  let x := x ^^^ x >>> 12
  let x := x ^^^ x <<< 25
  x ^^^ x >>> 27

/-- The output in a state that has been updated. -/
def output (x : UInt64) : UInt64 := x * 2685821657736338717

theorem run_xorshift64star (s : Random) : xorshift64star.run s =
    (.done (output (nextState s.rngState)), { s with rngState := nextState s.rngState }) := rfl

theorem nextState_bijective : Function.Bijective nextState := by
  refine Finite.injective_iff_bijective.mp ?_
  have hfirst := xor_shiftRight_injective (k := 12) (by decide)
  have hsecond := xor_shiftLeft_injective (k := 25) (by decide)
  have hthird := xor_shiftRight_injective (k := 27) (by decide)
  exact (hthird.comp hsecond).comp hfirst

theorem nextState_ne_zero {x : UInt64} (hx : x ≠ 0) : nextState x ≠ 0 :=
  fun h => hx (nextState_bijective.injective h)

theorem iterate_nextState_ne_zero {x : UInt64} (hx : x ≠ 0) (k : Nat) : nextState^[k] x ≠ 0 := by
  induction k with
  | zero => exact hx
  | succ k ih =>
    rw [Function.iterate_succ_apply']
    exact nextState_ne_zero ih

/-- The default seed. -/
example (k : Nat) : nextState^[k] 88172645463325252 ≠ 0 := iterate_nextState_ne_zero (by decide) k

/-! ### The bytes -/

/-- The little-endian encoding of a word. -/
def littleEndian (x : UInt64) : Bytes :=
  (List.range 8).map fun j => UInt8.ofNat (x.toNat / 256 ^ j)

/-- The first `n` bytes of the little-endian encodings of the outputs that follow a state. -/
def outputBytes (x : UInt64) (n : Nat) : Bytes :=
  ((List.range ((n + 7) / 8)).flatMap fun k =>
    littleEndian (output (nextState^[k + 1] x))).take n

@[simp] theorem length_littleEndian (x : UInt64) : (littleEndian x).length = 8 := by
  simp [littleEndian]

theorem littleEndian_getElem (x : UInt64) {j : Nat} (h : j < (littleEndian x).length) :
    (littleEndian x)[j] = (x >>> UInt64.ofNat (8 * j) &&& 0xFF).toUInt8 := by
  rw [length_littleEndian] at h
  apply UInt8.toNat_inj.mp
  have hshift : (UInt64.ofNat (8 * j)).toNat % 64 = 8 * j := by
    rw [UInt64.toNat_ofNat']
    omega
  have hmask : (x.toNat >>> (8 * j)) &&& 255 = (x.toNat >>> (8 * j)) % 2 ^ 8 :=
    Nat.and_two_pow_sub_one_eq_mod _ 8
  simp only [littleEndian, List.getElem_map, List.getElem_range, UInt8.toNat_ofNat',
    UInt64.toNat_toUInt8, UInt64.toNat_and, UInt64.toNat_shiftRight, hshift, UInt64.reduceToNat]
  rw [hmask, Nat.mod_mod, Nat.shiftRight_eq_div_pow, Nat.pow_mul]

@[simp] theorem length_outputBytes (x : UInt64) (n : Nat) : (outputBytes x n).length = n := by
  rw [outputBytes, List.length_take, List.length_flatMap]
  simp
  omega

/-- The first word, and what follows it. -/
theorem outputBytes_of_pos (x : UInt64) {n : Nat} (hn : 0 < n) :
    outputBytes x n =
      (littleEndian (output (nextState x))).take n ++ outputBytes (nextState x) (n - 8) := by
  obtain ⟨k, hk⟩ : ∃ k, (n + 7) / 8 = k + 1 := ⟨(n + 7) / 8 - 1, by omega⟩
  have hrest : (n - 8 + 7) / 8 = k := by omega
  rw [outputBytes, outputBytes, hk, hrest, List.range_succ_eq_map, List.flatMap_cons,
    List.flatMap_map, List.take_append, length_littleEndian]
  rfl

theorem outputBytes_add (x : UInt64) (q r : Nat) :
    outputBytes x (8 * q + r) = outputBytes x (8 * q) ++ outputBytes (nextState^[q] x) r := by
  induction q generalizing x with
  | zero => simp [outputBytes]
  | succ q ih =>
    have hword (m : Nat) (hm : 8 ≤ m) : (littleEndian (output (nextState x))).take m =
        littleEndian (output (nextState x)) :=
      List.take_of_length_le (by rw [length_littleEndian]; exact hm)
    rw [outputBytes_of_pos x (by omega), outputBytes_of_pos x (n := 8 * (q + 1)) (by omega),
      hword _ (by omega), hword _ (by omega), show 8 * (q + 1) + r - 8 = 8 * q + r by omega,
      show 8 * (q + 1) - 8 = 8 * q by omega, ih, List.append_assoc]
    rfl

/-! ### The loops -/

theorem run_storeWord (buf n i : Nat) (rnd : UInt64) (j : Nat) (s : Random) :
    (storeWord buf n i rnd j).run s = (.done (), { s with
      cells := s.cells.write (buf + (i + j)) (((littleEndian rnd).take (n - i)).drop j) }) := by
  induction j using storeWord.induct n i generalizing s with
  | case1 j hj ih =>
    have hlength : j < ((littleEndian rnd).take (n - i)).length := by
      rw [List.length_take, length_littleEndian]
      omega
    rw [storeWord, if_pos hj, Prog.run_modify_bind, ih, List.drop_eq_getElem_cons hlength,
      List.getElem_take, littleEndian_getElem]
    rfl
  | case2 j hj =>
    have hnil : ((littleEndian rnd).take (n - i)).drop j = [] := by
      rw [List.drop_eq_nil_iff, List.length_take, length_littleEndian]
      omega
    rw [storeWord, if_neg hj, hnil]
    rfl

theorem and_seven (i : Nat) : i &&& 7 = i % 8 := Nat.and_two_pow_sub_one_eq_mod i 3

theorem fillByte_skip (buf n i : Nat) (h : i % 8 ≠ 0) : fillByte buf n i = pure () := by
  rw [fillByte, and_seven, if_neg h]

theorem run_fillByte (buf n i : Nat) (h : i % 8 = 0) (s : Random) :
    (fillByte buf n i).run s = (.done (), {
      rngState := nextState s.rngState
      cells := s.cells.write (buf + i)
        ((littleEndian (output (nextState s.rngState))).take (n - i)) }) := by
  rw [fillByte, and_seven, if_pos h, Prog.bind_done (run_xorshift64star s), run_storeWord]
  rfl

/-- The indices of a word, and the indices after them. -/
theorem range'_word (i n : Nat) (h : i < n) : List.range' i (n - i) =
    i :: (List.range' (i + 1) (min 7 (n - i - 1)) ++ List.range' (i + 8) (n - (i + 8))) := by
  obtain ⟨m, hm⟩ : ∃ m, n - i = m + 1 := ⟨n - i - 1, by omega⟩
  rw [hm, List.range'_succ, Nat.add_sub_cancel, show n - (i + 8) = m - 7 by omega]
  rcases Nat.le_total m 7 with hle | hge
  · rw [Nat.min_eq_right hle, Nat.sub_eq_zero_of_le hle, List.range'_zero, List.append_nil]
  · rw [Nat.min_eq_left hge, show i + 8 = i + 1 + 7 by omega, List.range'_append_1,
      Nat.add_sub_of_le hge]

/-- The loop from an index on at which it generates a word. -/
theorem run_fill (buf n i : Nat) (h : i % 8 = 0) (s : Random) :
    (forEach (fillByte buf n) (List.range' i (n - i))).run s = (.done (), {
      rngState := nextState^[(n - i + 7) / 8] s.rngState
      cells := s.cells.write (buf + i) (outputBytes s.rngState (n - i)) }) := by
  obtain ⟨m, hm⟩ : ∃ m, n - i = m := ⟨_, rfl⟩
  induction m using Nat.strongRecOn generalizing i s with
  | ind m ih =>
    rcases Nat.eq_zero_or_pos m with rfl | hpos
    · rw [hm]
      rfl
    · have hskip : ∀ j ∈ List.range' (i + 1) (min 7 (n - i - 1)), fillByte buf n j = pure () := by
        intro j hj
        rw [List.mem_range'_1] at hj
        exact fillByte_skip buf n j (by omega)
      have hrest := ih (n - (i + 8)) (by omega) (i + 8) (by omega)
      have hupdates : (n - i + 7) / 8 = (n - (i + 8) + 7) / 8 + 1 := by omega
      rw [range'_word i n (by omega), forEach, Prog.bind_done (run_fillByte buf n i h s),
        run_forEach_append (run_forEach_skip hskip _), hrest _ rfl, hupdates,
        outputBytes_of_pos _ (show 0 < n - i by omega), Nat.sub_sub, Cells.write_append,
        List.length_take, length_littleEndian, Function.iterate_succ_apply]
      -- A word that is cut off is the last one.
      rcases Nat.le_total (i + 8) n with hle | hge
      · rw [Nat.min_eq_right (by omega), Nat.add_assoc]
      · rw [Nat.sub_eq_zero_of_le hge]
        rfl

theorem run_randombytes (buf n : Nat) (s : Random) :
    (randombytes buf n).run s = (.done (), {
      rngState := nextState^[(n + 7) / 8] s.rngState
      cells := s.cells.write buf (outputBytes s.rngState n) }) := by
  rw [randombytes, List.range_eq_range']
  exact run_fill buf n 0 rfl s

/-- The generator does not degenerate, and `randombytes` stores the bytes of its outputs. -/
theorem randombytes_stream :
    (Function.Bijective nextState ∧ ∀ x ≠ 0, nextState x ≠ 0 ∧ ∀ k, nextState^[k] x ≠ 0) ∧
    (∀ s, xorshift64star.run s =
      (.done (output (nextState s.rngState)), { s with rngState := nextState s.rngState })) ∧
    (∀ buf n s, ∃ cells, (randombytes buf n).run s =
        (.done (), { rngState := nextState^[(n + 7) / 8] s.rngState, cells := cells }) ∧
      cells.stored = s.cells.stored ++ List.range' buf n ∧
      (∀ i < n, (outputBytes s.rngState n)[i]? = some (cells.mem (buf + i))) ∧
      ∀ a, a < buf ∨ buf + n ≤ a → cells.mem a = s.cells.mem a) ∧
    ∀ buf q r s,
      (randombytes buf (8 * q) >>= fun _ => randombytes (buf + 8 * q) r).run s =
        (randombytes buf (8 * q + r)).run s := by
  refine ⟨⟨nextState_bijective, fun x hx => ⟨nextState_ne_zero hx, iterate_nextState_ne_zero hx⟩⟩,
    run_xorshift64star, fun buf n s => ⟨_, run_randombytes buf n s, ?_, ?_, ?_⟩,
    fun buf q r s => ?_⟩
  · rw [Cells.write_stored, length_outputBytes]
  · intro i hi
    have hlength : i < (outputBytes s.rngState n).length := by
      rw [length_outputBytes]
      exact hi
    rw [Cells.write_mem, if_pos (by omega), Nat.add_sub_cancel_left,
      List.getElem?_eq_getElem hlength]
    rfl
  · rintro a (hlt | hle)
    · rw [Cells.write_mem, if_neg (by omega)]
    · rw [Cells.write_mem, if_pos (by omega), List.getElem?_eq_none]
      · rfl
      · rw [length_outputBytes]
        omega
  · have hupdates : (8 * q + r + 7) / 8 = (r + 7) / 8 + q := by omega
    rw [Prog.bind_done (run_randombytes buf (8 * q) s), run_randombytes, run_randombytes,
      outputBytes_add, Cells.write_append, hupdates, Function.iterate_add_apply,
      length_outputBytes, show (8 * q + 7) / 8 = q by omega]

end Mlonmcu.McEliece
