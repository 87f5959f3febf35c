import Mlonmcu.RvvBench.Print

/-! Whether the print layer of `rvv_bench_utils.h` writes the texts that it is given. -/

namespace Mlonmcu.RvvBench

open CLib

/-! ### One flush -/

/-- The text is in front of `printIt`, with the rest of a longer one behind it. -/
structure Holds (p : Printer) (pending : Bytes) (longest : Nat) : Prop where
  printIt : p.printIt = pending.length
  fits : pending.length ≤ printSize
  front : p.buffer.load pending.length = pending
  stale : ∀ i, pending.length ≤ i → i < longest → p.buffer i ≠ 0 ∧ p.buffer i ≠ 37
  blank : ∀ i, pending.length ≤ i → longest ≤ i → p.buffer i = 0

/-- What a flush writes. -/
def written (p : Printer) : Option Bytes :=
  if 0 ∈ p.buffer.load printSize then expand (cString (p.buffer.load printSize)) else none

theorem run_printFlush (p : Printer) : printFlush.run p = match written p with
    | some text => (.done (), { p with out := p.out ++ text, printIt := 0 })
    | none => (.fault .outOfBounds, p) := by
  rw [printFlush, Prog.run_get_bind, mlonmcuPrintf, written]
  split
  · cases expand (cString (p.buffer.load printSize)) with
    | none => rfl
    | some text => rfl
  · rfl

theorem run_append {p : Printer} {bytes : Bytes} (h : p.printIt + bytes.length ≤ printSize) :
    (append bytes).run p = (.done (), p.extend bytes) := by
  rw [append, Prog.run_get_bind, if_pos h]
  rfl

theorem run_append_fault {p : Printer} {bytes : Bytes}
    (h : ¬ p.printIt + bytes.length ≤ printSize) :
    (append bytes).run p = (.fault .outOfBounds, p) := by
  rw [append, Prog.run_get_bind, if_neg h]
  rfl

theorem extend_drop (p : Printer) (bytes : Bytes) :
    (p.extend bytes).buffer.drop p.printIt = (p.buffer.drop p.printIt).store bytes := by
  funext i
  simp [Printer.extend, Memory.drop, Memory.store]

theorem load_extend (p : Printer) (h : p.printIt = 0) (bytes : Bytes) :
    (p.extend bytes).buffer.load bytes.length = bytes := by
  have hdrop := extend_drop p bytes
  rw [h, Memory.drop_zero, Memory.drop_zero] at hdrop
  rw [hdrop, Memory.load_store]

namespace Holds

variable {p : Printer} {pending : Bytes} {longest : Nat}

/-- The bytes that a flush reads. -/
theorem load_eq (h : Holds p pending longest) : p.buffer.load printSize =
    pending ++ (p.buffer.drop pending.length).load (printSize - pending.length) := by
  have hsplit : printSize = pending.length + (printSize - pending.length) :=
    (Nat.add_sub_of_le h.fits).symm
  conv_lhs => rw [hsplit, Memory.load_add, h.front]

theorem rest_ne_percent (h : Holds p pending longest) :
    37 ∉ (p.buffer.drop pending.length).load (printSize - pending.length) := by
  intro hmem
  obtain ⟨i, -, hi⟩ := List.mem_map.mp hmem
  rcases Nat.lt_or_ge (pending.length + i) longest with hlt | hge
  · exact (h.stale _ (Nat.le_add_right _ _) hlt).2 hi
  · rw [Memory.drop, h.blank _ (Nat.le_add_right _ _) hge] at hi
    exact absurd hi (by decide)

/-- A plain text that is as long as the longest one is written as it is. -/
theorem written_of_plain (h : Holds p pending longest) (hplain : Plain pending)
    (hle : longest ≤ pending.length) : written p = some pending := by
  obtain ⟨n, hn⟩ : ∃ n, printSize - pending.length = n + 1 :=
    ⟨printSize - pending.length - 1, by have := hplain.fits; omega⟩
  have hzero : p.buffer.drop pending.length 0 = 0 := h.blank _ (Nat.le_refl _) hle
  have hload : p.buffer.load printSize =
      pending ++ 0 :: (p.buffer.drop pending.length |>.drop 1).load n := by
    rw [h.load_eq, hn, Nat.add_comm n, Memory.load_add]
    simp [Memory.load, hzero]
  have hstring : cString (p.buffer.load printSize) = pending := by
    rw [hload, cString_append, if_neg hplain.nul]
    simp [cString]
  rw [written, if_pos (by rw [hload]; simp), hstring, expand_eq_self hplain.percent]

/-- Leftovers hold no percent sign that could make up for one of the text. -/
theorem plain_of_written (h : Holds p pending longest) (hwritten : written p = some pending) :
    Plain pending ∧ longest ≤ pending.length := by
  rw [written] at hwritten
  split at hwritten
  case isFalse => cases hwritten
  case isTrue hmem =>
    rw [h.load_eq] at hwritten hmem
    obtain ⟨hcount, hlength⟩ := count_expand hwritten
    have hnul : 0 ∉ pending := by
      intro hnul
      have hlt := length_cString_lt hnul
      rw [cString_append, if_pos hnul] at hlength
      omega
    rw [cString_append, if_neg hnul] at hwritten hcount
    have hrest : 37 ∉ cString ((p.buffer.drop pending.length).load (printSize - pending.length)) :=
      fun hmem => h.rest_ne_percent ((List.takeWhile_sublist _).subset hmem)
    rw [List.count_append, List.count_eq_zero_of_not_mem hrest] at hcount
    have hpercent : 37 ∉ pending := List.count_eq_zero.mp (by omega)
    rw [expand_eq_self (by simp [hpercent, hrest]), Option.some_inj, List.append_right_eq_self]
      at hwritten
    -- The first byte of the rest ends the string.
    have hfits : pending.length < printSize := by
      by_contra hfull
      rw [Nat.sub_eq_zero_of_le (Nat.le_of_not_lt hfull)] at hmem
      simp [Memory.load, hnul] at hmem
    have hzero : p.buffer pending.length = 0 := by
      obtain ⟨n, hn⟩ : ∃ n, printSize - pending.length = 1 + n :=
        ⟨printSize - pending.length - 1, by omega⟩
      rw [hn, Memory.load_add] at hwritten
      by_contra hne
      simp [Memory.load, Memory.drop, cString, hne] at hwritten
    refine ⟨⟨hfits, hnul, hpercent⟩, Nat.le_of_not_lt fun hlt => ?_⟩
    exact (h.stale _ (Nat.le_refl _) hlt).1 hzero

/-- After a flush that writes a plain text, the text is what a shorter one leaves over. -/
theorem flush (h : Holds p pending longest) (hplain : Plain pending)
    (hle : longest ≤ pending.length) (out : Bytes) :
    Holds { p with out := out, printIt := 0 } [] pending.length := by
  refine ⟨rfl, Nat.zero_le _, rfl, fun i _ hi => ?_, fun i _ hi => h.blank i hi (by omega)⟩
  have hmem : p.buffer i ∈ pending := by
    rw [← h.front]
    exact List.mem_map.mpr ⟨i, List.mem_range.mpr hi, rfl⟩
  exact ⟨fun h0 => hplain.nul (h0 ▸ hmem), fun h37 => hplain.percent (h37 ▸ hmem)⟩

theorem extend (h : Holds p pending longest) {bytes : Bytes}
    (hfits : pending.length + bytes.length ≤ printSize) :
    Holds (p.extend bytes) (pending ++ bytes) longest := by
  have hfront : (p.extend bytes).buffer.load pending.length = pending := by
    conv_rhs => rw [← h.front]
    refine List.map_congr_left fun i hi => if_neg ?_
    rw [h.printIt]
    exact Nat.not_le.mpr (List.mem_range.mp hi)
  have hstored := h.printIt ▸ extend_drop p bytes
  have hrest (i : Nat) (hi : (pending ++ bytes).length ≤ i) :
      (p.extend bytes).buffer i = p.buffer i := by
    rw [List.length_append] at hi
    simp only [Printer.extend, h.printIt]
    rw [if_pos (by omega), List.getElem?_eq_none (by omega)]
    rfl
  have hle : pending.length ≤ (pending ++ bytes).length := by
    rw [List.length_append]
    exact Nat.le_add_right _ _
  constructor
  · rw [List.length_append, ← h.printIt]
    rfl
  · rw [List.length_append]
    exact hfits
  · rw [List.length_append, Memory.load_add, hfront, hstored, Memory.load_store]
  · intro i hi hlt
    rw [hrest i hi]
    exact h.stale i (hle.trans hi) hlt
  · intro i hi hge
    rw [hrest i hi]
    exact h.blank i (hle.trans hi) hge

end Holds

/-! ### Calls -/

theorem uxtoaLoop_eq {σ : Type} {room val : Nat} (it : Bytes)
    (hroom : (decimal val).length ≤ room) :
    (uxtoaLoop room val it : Prog σ Bytes) = pure (decimal val ++ it) := by
  induction room generalizing val it with
  | zero => exact absurd (List.length_eq_zero_iff.mp (Nat.le_zero.mp hroom)) (decimal_ne_nil val)
  | succ room ih =>
    have hrec := decimal_rec val
    rw [uxtoaLoop, Nat.add_comm (val % 10)]
    split
    case isTrue hdiv =>
      rw [if_neg (by omega)] at hrec
      rw [hrec, List.length_append, List.length_singleton] at hroom
      rw [ih _ (by omega), hrec, List.append_assoc]
      rfl
    case isFalse hdiv =>
      rw [if_pos (by omega)] at hrec
      rw [hrec]
      rfl

section

variable {xlen : Xlen} {p q : Printer} {pending : Bytes} {longest : Nat}

theorem length_digits (val : Ux xlen) : (decimal val.toNat).length ≤ xlen.uxtoaMax := by
  have hlt := val.isLt
  cases xlen with
  | rv32 => exact decimal_length_le (by decide) (Nat.lt_trans hlt (by decide))
  | rv64 => exact decimal_length_le (by decide) (Nat.lt_trans hlt (by decide))

theorem uxtoa_eq {σ : Type} (val : Ux xlen) :
    (uxtoa xlen val : Prog σ Bytes) = pure (decimal val.toNat) := by
  rw [uxtoa, uxtoaLoop_eq _ (length_digits val), List.append_nil]

/-- A flush of nothing or of a text that may be flushed. -/
def Flushable (longest : Nat) (text? : Option Bytes) : Prop :=
  ∀ text ∈ text?, Plain text ∧ longest ≤ text.length

/-- The longest text after a flush. -/
def longer (longest : Nat) (text? : Option Bytes) : Nat := text?.elim longest List.length

theorem run_printFlush_of_flushable (h : Holds p pending longest)
    (hflush : Flushable longest (some pending)) :
    printFlush.run p = (.done (), { p with out := p.out ++ pending, printIt := 0 }) ∧
      Holds { p with out := p.out ++ pending, printIt := 0 } [] pending.length := by
  obtain ⟨hplain, hle⟩ := hflush pending rfl
  rw [run_printFlush, h.written_of_plain hplain hle]
  exact ⟨rfl, h.flush hplain hle _⟩

theorem flushable_of_run_printFlush (h : Holds p pending longest)
    (hrun : printFlush.run p = (.done (), q)) : ∃ text,
      q = { p with out := p.out ++ text, printIt := 0 } ∧
        (text = pending → Flushable longest (some pending)) := by
  rw [run_printFlush] at hrun
  cases hwritten : written p with
  | none =>
    rw [hwritten] at hrun
    cases hrun
  | some text =>
    rw [hwritten] at hrun
    cases hrun
    refine ⟨text, rfl, ?_⟩
    rintro rfl _ ⟨⟩
    exact h.plain_of_written hwritten

theorem run_printRaw_of_flushable (h : Holds p pending longest) {s : Bytes}
    (hflush : Flushable longest (some (pending ++ s))) : ∃ q, (printRaw s).run p = (.done (), q) ∧
      q.out = p.out ++ (pending ++ s) ∧ Holds q [] (pending ++ s).length := by
  have hfits : pending.length + s.length ≤ printSize := by
    rw [← List.length_append]
    exact Nat.le_of_lt (hflush _ rfl).1.fits
  obtain ⟨hrun, hholds⟩ := run_printFlush_of_flushable (h.extend hfits) hflush
  exact ⟨_, (Prog.bind_done (run_append (h.printIt ▸ hfits))).trans hrun, rfl, hholds⟩

theorem flushable_of_run_printRaw (h : Holds p pending longest) {s : Bytes}
    (hrun : (printRaw s).run p = (.done (), q))
    (hout : q.out ++ q.buffer.load q.printIt = p.out ++ (pending ++ s)) :
    Flushable longest (some (pending ++ s)) := by
  rcases Nat.lt_or_ge printSize (pending.length + s.length) with hfull | hfits
  · rw [printRaw, Prog.bind_fault (run_append_fault (by rw [h.printIt]; omega))] at hrun
    cases hrun
  · rw [printRaw, Prog.bind_done (run_append (h.printIt ▸ hfits))] at hrun
    obtain ⟨text, rfl, hflush⟩ := flushable_of_run_printFlush (h.extend hfits) hrun
    have htext : p.out ++ text = p.out ++ (pending ++ s) := by
      rw [← hout]
      exact (List.append_nil _).symm
    exact hflush (List.append_cancel_left htext)

/-- A call other than `print_u` prints its text as `print_raw` does. -/
theorem run_eq_printRaw (h : Holds p pending longest) (call : Call xlen)
    (hu : ∀ val, call ≠ .u val) : call.run.run p = (printRaw call.text).run p ∧
      call.flushed pending = (some (pending ++ call.text), []) := by
  cases call with
  | u val => exact absurd rfl (hu val)
  | raw text => exact ⟨rfl, rfl⟩
  | s text => exact ⟨rfl, rfl⟩
  | c text => exact ⟨rfl, rfl⟩
  | flush =>
    have hnil : p.extend [] = p := by
      ext i
      · simp [Printer.extend]
      · rfl
      · rfl
    refine ⟨?_, rfl⟩
    rw [Call.text, printRaw, Prog.bind_done (run_append (h.printIt ▸ h.fits)), hnil]
    rfl

theorem run_printU (val : Ux xlen) (p : Printer) : (printU xlen val).run p =
    if printSize - p.printIt < xlen.uxtoaMax then
      (printFlush >>= fun _ => append (decimal val.toNat)).run p
    else (append (decimal val.toNat)).run p := by
  rw [printU, Prog.run_get_bind, uxtoa_eq]
  have happend (digits : Bytes) : ((pure digits : Prog Printer Bytes) >>= append) = append digits :=
    rfl
  by_cases hfull : printSize - p.printIt < xlen.uxtoaMax
  · rw [if_pos hfull, if_pos hfull, happend]
  · rw [if_neg hfull, if_neg hfull, Prog.run_pure_bind, happend]

/-- A call that flushes only a text that may be flushed emits its text. -/
theorem run_call_of_flushable (h : Holds p pending longest) (call : Call xlen)
    (hflush : Flushable longest (call.flushed pending).1) : ∃ q, call.run.run p = (.done (), q) ∧
      q.out ++ (call.flushed pending).2 = p.out ++ pending ++ call.text ∧
      Holds q (call.flushed pending).2 (longer longest (call.flushed pending).1) := by
  by_cases hu : ∃ val, call = .u val
  · obtain ⟨val, rfl⟩ := hu
    have hdigits := length_digits val
    have hsmall : xlen.uxtoaMax ≤ printSize := by cases xlen <;> decide
    by_cases hfull : printSize - pending.length < xlen.uxtoaMax
    · have hflushed : (Call.u val).flushed pending = (some pending, decimal val.toNat) :=
        if_pos hfull
      rw [hflushed] at hflush ⊢
      obtain ⟨hrun, hholds⟩ := run_printFlush_of_flushable h hflush
      have hfits : ([] : Bytes).length + (decimal val.toNat).length ≤ printSize := by
        rw [List.length_nil]
        omega
      rw [Call.run, run_printU, h.printIt, if_pos hfull]
      exact ⟨_, (Prog.bind_done hrun).trans (run_append (hholds.printIt ▸ hfits)), rfl,
        hholds.extend hfits⟩
    · have hflushed : (Call.u val).flushed pending = (none, pending ++ decimal val.toNat) :=
        if_neg hfull
      have hfits : pending.length + (decimal val.toNat).length ≤ printSize := by
        have := h.fits
        omega
      rw [hflushed, Call.run, run_printU, h.printIt, if_neg hfull]
      exact ⟨_, run_append (h.printIt ▸ hfits), (List.append_assoc ..).symm, h.extend hfits⟩
  · obtain ⟨hrun, hflushed⟩ := run_eq_printRaw h call fun val hval => hu ⟨val, hval⟩
    rw [hflushed] at hflush ⊢
    obtain ⟨q, hraw, hout, hholds⟩ := run_printRaw_of_flushable h hflush
    exact ⟨q, hrun.trans hraw, by rw [hout, List.append_nil, List.append_assoc], hholds⟩

/-- A call that emits its text flushes only a text that may be flushed. -/
theorem flushable_of_run_call (h : Holds p pending longest) (call : Call xlen)
    (hrun : call.run.run p = (.done (), q))
    (hout : q.out ++ q.buffer.load q.printIt = p.out ++ pending ++ call.text) :
    Flushable longest (call.flushed pending).1 := by
  by_cases hu : ∃ val, call = .u val
  · obtain ⟨val, rfl⟩ := hu
    by_cases hfull : printSize - pending.length < xlen.uxtoaMax
    · have hflushed : (Call.u val).flushed pending = (some pending, decimal val.toNat) :=
        if_pos hfull
      rw [Call.run, run_printU, h.printIt, if_pos hfull] at hrun
      obtain ⟨_, r, hfirst, hrest⟩ := Prog.bind_eq_done hrun
      obtain ⟨text, rfl, hflush⟩ := flushable_of_run_printFlush h hfirst
      have hsmall : xlen.uxtoaMax ≤ printSize := by cases xlen <;> decide
      have hfits : 0 + (decimal val.toNat).length ≤ printSize := by
        have := length_digits val
        omega
      rw [run_append hfits] at hrest
      cases hrest
      have hload := load_extend { p with out := p.out ++ text, printIt := 0 } rfl
        (decimal val.toNat)
      have hlength (r : Printer) : (r.extend (decimal val.toNat)).printIt =
          r.printIt + (decimal val.toNat).length := rfl
      rw [hlength, Nat.zero_add, hload] at hout
      rw [hflushed]
      exact hflush (List.append_cancel_left (List.append_cancel_right hout))
    · have hflushed : (Call.u val).flushed pending = (none, pending ++ decimal val.toNat) :=
        if_neg hfull
      rw [hflushed]
      rintro text ⟨⟩
  · obtain ⟨hraw, hflushed⟩ := run_eq_printRaw h call fun val hval => hu ⟨val, hval⟩
    rw [hflushed]
    rw [List.append_assoc] at hout
    exact flushable_of_run_printRaw h (hraw.symm.trans hrun) hout

/-! ### Runs -/

/-- Texts that may be flushed one after the other. -/
def Sound (longest : Nat) (texts : List Bytes) : Prop :=
  (∀ text ∈ texts, Plain text) ∧ (longest :: texts.map List.length).IsChain (· ≤ ·)

theorem sound_append_iff (text? : Option Bytes) (texts : List Bytes) :
    Sound longest (text?.toList ++ texts) ↔
      Flushable longest text? ∧ Sound (longer longest text?) texts := by
  cases text? with
  | none => simp [Flushable, longer]
  | some text =>
    simp only [Sound, Flushable, longer, Option.toList_some, List.singleton_append,
      List.forall_mem_cons, List.map_cons, List.isChain_cons_cons, Option.mem_some_iff,
      forall_eq', Option.elim_some]
    exact ⟨fun ⟨⟨hplain, hall⟩, hle, hchain⟩ => ⟨⟨hplain, hle⟩, hall, hchain⟩,
      fun ⟨⟨hplain, hle⟩, hall, hchain⟩ => ⟨⟨hplain, hall⟩, hle, hchain⟩⟩

theorem Holds.emitted_nil (h : Holds p pending longest) :
    Emitted p (p.out ++ pending) ([] : List (Call xlen)) := by
  refine ⟨p, rfl, h.printIt ▸ h.fits, ?_⟩
  rw [h.printIt, h.front]
  exact (List.append_nil _).symm

theorem emitted_cons {call : Call xlen} {calls : List (Call xlen)} {printed : Bytes}
    (hrun : call.run.run p = (.done (), q)) :
    Emitted p printed (call :: calls) ↔ Emitted q (printed ++ call.text) calls := by
  rw [Emitted, forEach, Prog.bind_done hrun, Emitted, List.flatMap_cons, List.append_assoc]

/-- From a state on, the pieces are emitted exactly when each text that is flushed may be. -/
theorem emitted_iff (h : Holds p pending longest) (calls : List (Call xlen)) :
    (∀ done, done <+: calls → Emitted p (p.out ++ pending) done) ↔
      Sound longest (flushes pending calls) := by
  induction calls generalizing p pending longest with
  | nil =>
    have hsound : Sound longest [] := ⟨by simp, List.isChain_singleton _⟩
    refine ⟨fun _ => hsound, fun _ done hdone => ?_⟩
    rw [List.prefix_nil.mp hdone]
    exact h.emitted_nil
  | cons call calls ih =>
    rw [flushes, sound_append_iff]
    constructor
    · intro hall
      obtain ⟨q, hloop, -, hout⟩ := hall [call] (by simp)
      obtain ⟨_, q', hcall, hnil⟩ := Prog.bind_eq_done hloop
      obtain ⟨-, rfl⟩ := Prod.mk.inj hnil
      rw [List.flatMap_singleton] at hout
      have hflush := flushable_of_run_call h call hcall hout
      obtain ⟨r, hrun, hout, hholds⟩ := run_call_of_flushable h call hflush
      refine ⟨hflush, (ih hholds).mp fun rest hrest => ?_⟩
      rw [hout, ← emitted_cons hrun]
      exact hall _ (List.prefix_cons_inj call |>.mpr hrest)
    · rintro ⟨hflush, hsound⟩ done hdone
      obtain ⟨q, hrun, hout, hholds⟩ := run_call_of_flushable h call hflush
      rcases List.prefix_cons_iff.mp hdone with rfl | ⟨rest, rfl, hrest⟩
      · exact h.emitted_nil
      · rw [emitted_cons hrun, ← hout]
        exact (ih hholds).mpr hsound rest hrest

theorem holds_start : Holds .start [] 0 :=
  ⟨rfl, Nat.zero_le _, rfl, fun i _ hi => absurd hi (Nat.not_lt_zero i), fun _ _ _ => rfl⟩

/-- The print layer emits the pieces exactly when the texts between the flushes are shorter than the
buffer, hold no NUL and no percent sign, and are not shorter than the ones before. -/
theorem emitsPieces_iff (calls : List (Call xlen)) : EmitsPieces calls ↔
    (∀ text ∈ flushes [] calls, Plain text) ∧
      ((flushes [] calls).map List.length).IsChain (· ≤ ·) := by
  have hchain : (0 :: (flushes [] calls).map List.length).IsChain (· ≤ ·) ↔
      ((flushes [] calls).map List.length).IsChain (· ≤ ·) := by
    simp [List.isChain_cons]
  exact (emitted_iff holds_start calls).trans (and_congr_right fun _ => hchain)

/-- The second text is followed by what the first one leaves over. -/
theorem not_emitsPieces_shorter :
    ¬ EmitsPieces ([.raw (ascii "abc"), .raw (ascii "x")] : List (Call .rv64)) := fun h =>
  absurd ((emitted_iff holds_start _).mp h).2 (by decide)

example : ((forEach Call.run ([.raw (ascii "abc"), .raw (ascii "x")] : List (Call .rv64))).run
    .start).2.out = ascii "abcxbc" := by
  decide +kernel

end

end Mlonmcu.RvvBench
