import Mlonmcu.CLib.Lines
import Mlonmcu.Mlifio.Config

/-! `mlifio_from_stdin`.  The call of `fflush` on the input has no counterpart. -/

namespace Mlonmcu.Mlifio

open CLib

def bufferSize : Nat := 2048

/-- What the function reads and changes: the configuration, the memory at `data`, and the input. -/
structure Reading where
  config : MlifDataConfig
  data : Memory
  stdin : Bytes

def dataIndex (col : UInt64) (cnt ptr : Nat) : Nat :=
  (UInt64.ofNat cnt * col + UInt64.ofNat ptr).toNat

/-- The loop over the tokens of a line, with the counter `ptr`. -/
def tokenLoop (col : UInt64) (cnt : Nat) : Nat → List Bytes → Prog Reading Unit
  | _, [] => pure ()
  | ptr, token :: tokens => do
    Prog.modify fun s => { s with
      data := Function.update s.data (dataIndex col cnt ptr) (charOfInt (atoi token)) }
    let ptr ← Prog.increment ptr
    tokenLoop col cnt ptr tokens

/-- The loop over the lines, for at most `fuel` calls of `fgets`, with the counter `cnt`. -/
def lineLoop (col : UInt64) : Nat → Nat → Prog Reading Nat
  | 0, _ => Prog.timeout
  | fuel + 1, cnt => do
    let s ← Prog.get
    match fgets bufferSize s.stdin with
    | none => pure cnt
    | some (buffer, stdin) => do
      Prog.modify fun s => { s with stdin }
      if cString buffer = ascii "\n" then pure cnt
      else do
        tokenLoop col cnt 0 (strtok 44 (cString buffer))
        let cnt ← Prog.increment cnt
        lineLoop col fuel cnt

/-- `mlifio_from_stdin`, with at most `fuel` calls of `fgets`. -/
def mlifioFromStdin (fuel : Nat) (iomode : MlifStdioMode) : Prog Reading MlifIoStatus := do
  let s ← Prog.get
  let col := s.config.col
  match iomode with
  | .plain => do
    let cnt ← lineLoop col fuel 0
    Prog.modify fun s => { s with
      config := { s.config with nsample := UInt64.ofNat (if cnt > 0 then cnt else 1) } }
    pure .success
  | .bin =>
    let got := s.stdin.take col.toNat
    if got.length ≤ bufferSize then do
      Prog.modify fun s => { s with data := s.data.store got, stdin := s.stdin.drop got.length }
      pure .success
    else Prog.fault .outOfBounds
  | .other => pure .error

/-! ### The lines and the cells -/

/-- The lines that the loop takes from the input before it ends. -/
def lines (input : Bytes) : List Bytes :=
  match _h : fgets bufferSize input with
  | none => []
  | some (buffer, rest) =>
    if cString buffer = ascii "\n" then [] else cString buffer :: lines rest
termination_by input.length
decreasing_by exact fgets_length (by decide) _h

/-- The numbers of a line, as they are stored. -/
def lineValues (line : Bytes) : List UInt8 :=
  (strtok 44 line).map fun token => charOfInt (atoi token)

/-- The memory after the numbers of a line have been stored from the counter `ptr` on. -/
def storeRow (col : UInt64) (cnt : Nat) : Nat → List UInt8 → Memory → Memory
  | _, [], m => m
  | ptr, v :: row, m => storeRow col cnt (ptr + 1) row (Function.update m (dataIndex col cnt ptr) v)

/-- The memory after rows have been stored from the counter `cnt` on. -/
def storeRows (col : UInt64) : Nat → List (List UInt8) → Memory → Memory
  | _, [], m => m
  | cnt, row :: rows, m => storeRows col (cnt + 1) rows (storeRow col cnt 0 row m)

theorem lines_nil {input : Bytes} (h : fgets bufferSize input = none) : lines input = [] := by
  rw [lines]
  split
  · rfl
  · next heq => rw [h] at heq; simp at heq

theorem lines_break {input buffer rest : Bytes} (h : fgets bufferSize input = some (buffer, rest))
    (hbreak : cString buffer = ascii "\n") : lines input = [] := by
  rw [lines]
  split
  · rfl
  · next heq =>
    rw [h, Option.some.injEq, Prod.mk.injEq] at heq
    rw [← heq.1, if_pos hbreak]

theorem lines_cons {input buffer rest : Bytes} (h : fgets bufferSize input = some (buffer, rest))
    (hline : cString buffer ≠ ascii "\n") : lines input = cString buffer :: lines rest := by
  rw [lines]
  split
  · next heq => rw [h] at heq; simp at heq
  · next heq =>
    rw [h, Option.some.injEq, Prod.mk.injEq] at heq
    rw [← heq.1, ← heq.2, if_neg hline]

theorem length_line_lt {input line : Bytes} (h : line ∈ lines input) :
    line.length < bufferSize := by
  induction input using lines.induct with
  | case1 input hnone => simp [lines_nil hnone] at h
  | case2 input buffer rest hsome hbreak => simp [lines_break hsome hbreak] at h
  | case3 input buffer rest hsome hline ih =>
    rw [lines_cons hsome hline, List.mem_cons] at h
    rcases h with rfl | h
    · exact Nat.lt_of_le_of_lt (length_cString_le _)
        (Nat.lt_of_le_of_lt (fgets_line_length hsome) (by decide))
    · exact ih h

theorem length_lineValues_le (line : Bytes) : (lineValues line).length ≤ line.length := by
  rw [lineValues, List.length_map]
  exact length_strtok 44 line

/-! ### Runs -/

theorem run_tokenLoop (col : UInt64) (cnt : Nat) {ptr : Nat} {tokens : List Bytes}
    (h : ptr + tokens.length ≤ Prog.intMax) (s : Reading) :
    (tokenLoop col cnt ptr tokens).run s = (.done (), { s with
      data := storeRow col cnt ptr (tokens.map fun token => charOfInt (atoi token)) s.data }) := by
  induction tokens generalizing ptr s with
  | nil => rfl
  | cons token tokens ih =>
    rw [List.length_cons] at h
    simp only [tokenLoop, Prog.run_modify_bind]
    rw [Prog.bind_done (Prog.run_increment (by omega) _), ih (by omega)]
    rfl

section

variable {col : UInt64} {s : Reading}

theorem lineLoop_nil (h : fgets bufferSize s.stdin = none) (fuel cnt : Nat) :
    (lineLoop col (fuel + 1) cnt).run s = (.done cnt, s) := by
  simp [lineLoop, h]

theorem lineLoop_break {buffer rest : Bytes} (h : fgets bufferSize s.stdin = some (buffer, rest))
    (hbreak : cString buffer = ascii "\n") (fuel cnt : Nat) :
    (lineLoop col (fuel + 1) cnt).run s = (.done cnt, { s with stdin := rest }) := by
  simp [lineLoop, h, hbreak]

theorem lineLoop_line {buffer rest : Bytes} (h : fgets bufferSize s.stdin = some (buffer, rest))
    (hline : cString buffer ≠ ascii "\n") (fuel cnt : Nat) :
    (lineLoop col (fuel + 1) cnt).run s =
      (Prog.increment cnt >>= fun cnt => lineLoop col fuel cnt).run { s with
        stdin := rest
        data := storeRow col cnt 0 (lineValues (cString buffer)) s.data } := by
  have hlen : 0 + (strtok 44 (cString buffer)).length ≤ Prog.intMax := by
    have h1 := length_strtok 44 (cString buffer)
    have h2 := length_cString_le buffer
    have h3 := fgets_line_length h
    simp only [bufferSize, Prog.intMax] at h3 ⊢
    omega
  simp only [lineLoop, Prog.run_get_bind, h, Prog.run_modify_bind, if_neg hline]
  rw [Prog.bind_done (run_tokenLoop col cnt hlen _)]
  rfl

/-- With enough fuel the loop stores all lines that it can count. -/
theorem run_lineLoop {fuel cnt : Nat} (hfuel : s.stdin.length < fuel)
    (hcnt : cnt + (lines s.stdin).length ≤ Prog.intMax) : ∃ s',
      (lineLoop col fuel cnt).run s = (.done (cnt + (lines s.stdin).length), s') ∧
      s'.config = s.config ∧
      s'.data = storeRows col cnt ((lines s.stdin).map lineValues) s.data := by
  induction fuel generalizing cnt s with
  | zero => omega
  | succ fuel ih =>
    cases h : fgets bufferSize s.stdin with
    | none =>
      rw [lines_nil h]
      exact ⟨s, lineLoop_nil h fuel cnt, rfl, rfl⟩
    | some got =>
      obtain ⟨buffer, rest⟩ := got
      by_cases hbreak : cString buffer = ascii "\n"
      · rw [lines_break h hbreak]
        exact ⟨_, lineLoop_break h hbreak fuel cnt, rfl, rfl⟩
      · have hlt := fgets_length (by decide) h
        rw [lines_cons h hbreak, List.length_cons] at hcnt ⊢
        rw [lineLoop_line h hbreak, Prog.bind_done (Prog.run_increment (by omega) _)]
        obtain ⟨s', hrun, hconfig, hdata⟩ := @ih { s with
          stdin := rest
          data := storeRow col cnt 0 (lineValues (cString buffer)) s.data } (cnt + 1)
          (by simp only; omega) (by simp only; omega)
        refine ⟨s', ?_, hconfig, hdata⟩
        rw [hrun]
        simp only [Nat.add_assoc, Nat.add_comm 1]

theorem of_lineLoop {fuel cnt n : Nat} {s' : Reading} (hcnt : cnt ≤ Prog.intMax)
    (hrun : (lineLoop col fuel cnt).run s = (.done n, s')) :
    n = cnt + (lines s.stdin).length ∧ n ≤ Prog.intMax ∧
      s'.data = storeRows col cnt ((lines s.stdin).map lineValues) s.data := by
  induction fuel generalizing cnt s with
  | zero => simp [lineLoop] at hrun
  | succ fuel ih =>
    cases h : fgets bufferSize s.stdin with
    | none =>
      rw [lineLoop_nil h] at hrun
      obtain ⟨rfl, rfl⟩ : cnt = n ∧ s = s' := by simpa using hrun
      rw [lines_nil h]
      exact ⟨rfl, hcnt, rfl⟩
    | some got =>
      obtain ⟨buffer, rest⟩ := got
      by_cases hbreak : cString buffer = ascii "\n"
      · rw [lineLoop_break h hbreak] at hrun
        obtain ⟨rfl, rfl⟩ : cnt = n ∧ _ = s' := by simpa using hrun
        rw [lines_break h hbreak]
        exact ⟨rfl, hcnt, rfl⟩
      · rw [lineLoop_line h hbreak] at hrun
        by_cases hlt : cnt < Prog.intMax
        · rw [Prog.bind_done (Prog.run_increment hlt _)] at hrun
          obtain ⟨hn, hle, hdata⟩ := ih hlt hrun
          rw [lines_cons h hbreak, List.length_cons]
          exact ⟨by simp only at hn; omega, hle, hdata⟩
        · rw [Prog.bind_fault (Prog.run_increment_overflow (Nat.not_lt.mp hlt) _)] at hrun
          simp at hrun

theorem toNat_nsample {cnt : Nat} (h : cnt ≤ Prog.intMax) :
    (UInt64.ofNat (if cnt > 0 then cnt else 1)).toNat = max 1 cnt := by
  rw [UInt64.toNat_ofNat', Prog.intMax] at *
  split <;> omega

theorem run_plain (h : (lines s.stdin).length ≤ Prog.intMax) : ∃ fuel s',
    (mlifioFromStdin fuel .plain).run s = (.done .success, s') ∧
      s'.config.nsample.toNat = max 1 (lines s.stdin).length ∧
      s'.data = storeRows s.config.col 0 ((lines s.stdin).map lineValues) s.data := by
  obtain ⟨s', hrun, -, hdata⟩ := @run_lineLoop s.config.col s (s.stdin.length + 1) 0
    (Nat.lt_succ_self _) (by simpa using h)
  let cnt := (lines s.stdin).length
  refine ⟨s.stdin.length + 1, { s' with
    config := { s'.config with nsample := UInt64.ofNat (if cnt > 0 then cnt else 1) } },
    ?_, toNat_nsample h, hdata⟩
  rw [Nat.zero_add] at hrun
  simp only [mlifioFromStdin, Prog.run_get_bind]
  rw [Prog.bind_done hrun]
  rfl

theorem of_plain {fuel : Nat} {status : MlifIoStatus} {s' : Reading}
    (hrun : (mlifioFromStdin fuel .plain).run s = (.done status, s')) :
    (lines s.stdin).length ≤ Prog.intMax ∧
      s'.config.nsample.toNat = max 1 (lines s.stdin).length ∧
      s'.data = storeRows s.config.col 0 ((lines s.stdin).map lineValues) s.data := by
  simp only [mlifioFromStdin, Prog.run_get_bind] at hrun
  obtain ⟨cnt, t, hloop, hrest⟩ := Prog.bind_eq_done hrun
  obtain ⟨hcnt, hle, hdata⟩ := of_lineLoop (by decide) hloop
  obtain ⟨-, rfl⟩ : _ ∧ _ = s' := by simpa using hrest
  rw [Nat.zero_add] at hcnt
  subst hcnt
  exact ⟨hle, toNat_nsample hle, hdata⟩

end

end Mlonmcu.Mlifio
