import Mlonmcu.CLib.Words
import Mlonmcu.Generic.Main

/-! What `main` prints about its phases: a counter that wraps gives the time between two readings,
and a phase that does not start shows 0. -/

namespace Mlonmcu.Generic

open CLib

def Action.printed : Action → Option Bytes
  | .printf text => some text
  | _ => none

/-- The functions of a program return. -/
structure Program.Returns {τ : Type} (p : Program τ) : Prop where
  init : ∀ t, ∃ code t', p.init.run t = (.done code, t')
  run : ∀ t, ∃ code t', p.run.run t = (.done code, t')
  check : ∀ t, ∃ code t', p.check.run t = (.done code, t')
  deinit : ∀ t, ∃ code t', p.deinit.run t = (.done code, t')

/-- The values that are printed account for the readings of the counters. -/
structure Accounts (target : Target) (reading : Metric → Nat → Nat) (actions : List Action)
    (value : Metric → Phase → UInt64) : Prop where
  printed : ∃ status : Int32, actions.filterMap Action.printed = [ascii "Program start.\n"] ++
    ([Phase.init, .run, .deinit, .total].flatMap fun phase => target.metrics.map fun metric =>
      benchLine target phase metric (value metric phase)) ++
    [ascii "Program finish.\n", ascii "MLONMCU EXIT: " ++ signedDecimal status ++ ascii "\n"]
  stopped : ∀ phase a, .start phase a ∈ actions → ∃ b, .stop phase b ∈ actions
  executed : ∀ phase a b, .start phase a ∈ actions → .stop phase b ∈ actions →
    ∀ metric, target.has metric → reading metric a ≤ reading metric b ∧
      (value metric phase).toNat = reading metric b - reading metric a
  skipped : ∀ phase, (∀ a, .start phase a ∉ actions) →
    (∃ hook code, code ≠ 0 ∧ .returned hook code ∈ actions) ∧ ∀ metric, value metric phase = 0
  total : ∃ last, .start .total 0 ∈ actions ∧ .stop .total last ∈ actions ∧
    ∀ phase n, .start phase n ∈ actions ∨ .stop phase n ∈ actions → n ≤ last
  sum : ∀ metric, target.has metric →
    (value metric .init).toNat + (value metric .run).toNat + (value metric .deinit).toNat ≤
      (value metric .total).toNat

/-! ### The phases -/

section

variable {τ : Type} {target : Target} {s : System τ}

/-- The phases `laps` have been measured one after the other, in the time of the phase `total`. -/
structure Timed (target : Target) (laps : List Phase) (s : System τ) : Prop where
  readings : s.readings = 2 * laps.length + 1
  total : ∀ metric, target.has metric → s.temp metric .total = target.clock metric 0
  lap : ∀ i phase, laps[i]? = some phase → ∀ metric, target.has metric →
    s.temp metric phase = target.clock metric (2 * i + 2) - target.clock metric (2 * i + 1)
  other : ∀ metric phase, phase ≠ .total → phase ∉ laps → s.temp metric phase = 0
  absent : ∀ metric phase, ¬ target.has metric → s.temp metric phase = 0
  started : ∀ phase n, .start phase n ∈ s.actions ↔
    phase = .total ∧ n = 0 ∨ ∃ i, laps[i]? = some phase ∧ n = 2 * i + 1
  stopped : ∀ phase n, .stop phase n ∈ s.actions ↔ ∃ i, laps[i]? = some phase ∧ n = 2 * i + 2
  printed : s.actions.filterMap Action.printed = [ascii "Program start.\n"]

theorem getElem?_concat_eq_some {α : Type} {l : List α} {a b : α} {i : Nat} :
    (l ++ [a])[i]? = some b ↔ l[i]? = some b ∨ i = l.length ∧ a = b := by
  rcases Nat.lt_trichotomy i l.length with hlt | heq | hgt
  · rw [List.getElem?_append_left hlt]
    simp [Nat.ne_of_lt hlt]
  · subst heq
    simp
  · rw [List.getElem?_append_right (by omega), List.getElem?_eq_none (by simp; omega),
      List.getElem?_eq_none (by omega)]
    simp [Nat.ne_of_gt hgt]

/-- A phase that has not been measured is measured. -/
theorem Timed.next {laps : List Phase} (h : Timed target laps s) {phase : Phase}
    (htotal : phase ≠ .total) (hnew : phase ∉ laps) (hook : Hook) (code : Int32) (program : τ) :
    Timed target (laps ++ [phase]) (s.lap target phase hook code program) where
  readings := by
    rw [System.lap, h.readings, List.length_append]
    rfl
  total metric hhas := by
    rw [lap_temp, if_neg fun hp => htotal hp.2.symm, h.total metric hhas]
  lap i p hi metric hhas := by
    rw [lap_temp]
    rcases getElem?_concat_eq_some.mp hi with hold | ⟨rfl, rfl⟩
    · have hne : p ≠ phase := fun heq => hnew (heq ▸ List.mem_of_getElem? hold)
      rw [if_neg fun hp => hne hp.2, h.lap i p hold metric hhas]
    · rw [if_pos ⟨hhas, rfl⟩, h.readings]
  other metric p hp hmem := by
    rw [List.mem_append, List.mem_singleton, not_or] at hmem
    rw [lap_temp, if_neg fun heq => hmem.2 heq.2, h.other metric p hp hmem.1]
  absent metric p hhas := by
    rw [lap_temp, if_neg fun hp => hhas hp.1, h.absent metric p hhas]
  started p n := by
    simp only [System.lap, List.mem_append, h.started, getElem?_concat_eq_some, h.readings,
      List.mem_cons, Action.start.injEq, reduceCtorEq, List.not_mem_nil, or_false]
    constructor
    · rintro ((htotal | ⟨i, hi, hn⟩) | ⟨rfl, rfl⟩)
      · exact .inl htotal
      · exact .inr ⟨i, .inl hi, hn⟩
      · exact .inr ⟨laps.length, .inr ⟨rfl, rfl⟩, rfl⟩
    · rintro (htotal | ⟨i, hi | ⟨rfl, rfl⟩, hn⟩)
      · exact .inl (.inl htotal)
      · exact .inl (.inr ⟨i, hi, hn⟩)
      · exact .inr ⟨rfl, hn⟩
  stopped p n := by
    simp only [System.lap, List.mem_append, h.stopped, getElem?_concat_eq_some, h.readings,
      List.mem_cons, Action.stop.injEq, reduceCtorEq, List.not_mem_nil, or_false, false_or]
    constructor
    · rintro (⟨i, hi, hn⟩ | ⟨rfl, rfl⟩)
      · exact ⟨i, .inl hi, hn⟩
      · exact ⟨laps.length, .inr ⟨rfl, rfl⟩, rfl⟩
    · rintro ⟨i, hi | ⟨rfl, rfl⟩, hn⟩
      · exact .inl ⟨i, hi, hn⟩
      · exact .inr ⟨rfl, hn⟩
  printed := by
    rw [System.lap, List.filterMap_append, h.printed]
    rfl

/-- A function that is not measured changes no measurement. -/
theorem Timed.called {laps : List Phase} (h : Timed target laps s) (hook : Hook) (code : Int32)
    (program : τ) : Timed target laps { s with
      program := program
      actions := s.actions ++ [.returned hook code] } where
  readings := h.readings
  total := h.total
  lap := h.lap
  other := h.other
  absent := h.absent
  started p n := by
    rw [← h.started p n]
    simp
  stopped p n := by
    rw [← h.stopped p n]
    simp
  printed := by
    rw [List.filterMap_append, h.printed]
    rfl

theorem timed_begun (target : Target) (program : τ) :
    Timed target [] (System.begun target program) where
  readings := rfl
  total metric hhas := if_pos ⟨hhas, rfl⟩
  lap i phase hi := by simp at hi
  other metric phase hp _ := if_neg fun h => hp h.2
  absent metric phase hhas := if_neg fun h => hhas h.1
  started phase n := by simp [System.begun]
  stopped phase n := by simp [System.begun]
  printed := rfl

/-- `main` measures its phases up to the first one that fails, and goes to the label `cleanup`. -/
structure Reaches (target : Target) (laps : List Phase) (code : Int32) (s : System τ) : Prop where
  timed : Timed target laps s
  prefix_laps : laps = [.init] ∨ laps = [.init, .run] ∨ laps = [.init, .run, .deinit]
  failed : laps ≠ [.init, .run, .deinit] → code ≠ 0 ∧ ∃ hook, .returned hook code ∈ s.actions

theorem reaches_mainDeinit {p : Program τ} (hreturns : p.Returns)
    (h : Timed target [.init, .run] s) : ∃ laps code t, Reaches target laps code t ∧
      (mainDeinit target p).run s = (cleanup target code).run t := by
  obtain ⟨code, program, hdeinit⟩ := hreturns.deinit s.program
  exact ⟨[.init, .run, .deinit], code, _,
    ⟨h.next (by decide) (by decide) _ _ _, .inr (.inr rfl), fun hne => absurd rfl hne⟩,
    run_mainDeinit hdeinit⟩

theorem reaches_mainCheck {p : Program τ} (hreturns : p.Returns) (skipCheck : Bool)
    (h : Timed target [.init, .run] s) : ∃ laps code t, Reaches target laps code t ∧
      (mainCheck target skipCheck p 0).run s = (cleanup target code).run t := by
  cases skipCheck with
  | true =>
    rw [run_mainCheck_skip]
    exact reaches_mainDeinit hreturns h
  | false =>
    obtain ⟨code, program, hcheck⟩ := hreturns.check s.program
    have htimed := h.called .check code program
    rw [run_mainCheck hcheck]
    by_cases hcode : code ≠ 0
    · rw [if_pos hcode]
      exact ⟨_, code, _, ⟨htimed, .inr (.inl rfl), fun _ => ⟨hcode, .check, by simp⟩⟩, rfl⟩
    · rw [if_neg hcode]
      exact reaches_mainDeinit hreturns htimed

theorem reaches_mainRun {p : Program τ} (hreturns : p.Returns) (skipCheck : Bool)
    (h : Timed target [.init] s) : ∃ laps code t, Reaches target laps code t ∧
      (mainRun target skipCheck p).run s = (cleanup target code).run t := by
  obtain ⟨code, program, hrun⟩ := hreturns.run s.program
  have htimed : Timed target [.init, .run] (s.lap target .run .run code program) :=
    h.next (by decide) (by decide) .run code program
  rw [run_mainRun hrun]
  by_cases hcode : code ≠ 0
  · rw [if_pos hcode]
    exact ⟨_, code, _, ⟨htimed, .inr (.inl rfl), fun _ => ⟨hcode, .run, by simp [System.lap]⟩⟩, rfl⟩
  · rw [if_neg hcode, not_not.mp hcode]
    rw [not_not.mp hcode] at htimed
    exact reaches_mainCheck hreturns skipCheck htimed

theorem reaches_main {p : Program τ} (hreturns : p.Returns) (skipCheck : Bool) (program : τ) :
    ∃ laps code t, Reaches target laps code t ∧
      (main target skipCheck p).run (.initial program) = (cleanup target code).run t := by
  obtain ⟨code, program', hinit⟩ := hreturns.init program
  have htimed : Timed target [.init]
      ((System.begun target program).lap target .init .init code program') :=
    (timed_begun target program).next (by decide) (by decide) .init code program'
  rw [run_main_init hinit]
  by_cases hcode : code ≠ 0
  · rw [if_pos hcode]
    exact ⟨_, code, _, ⟨htimed, .inl rfl, fun _ => ⟨hcode, .init, by simp [System.lap]⟩⟩, rfl⟩
  · rw [if_neg hcode]
    exact reaches_mainRun hreturns skipCheck htimed

end

/-! ### The values -/

/-- The difference of two readings of a counter that wraps is the time between them. -/
theorem toNat_sub_ofNat {a b : Nat} (hle : a ≤ b) (hlt : b - a < 2 ^ 64) :
    (UInt64.ofNat b - UInt64.ofNat a).toNat = b - a := by
  rw [UInt64.toNat_sub, UInt64.toNat_ofNat', UInt64.toNat_ofNat']
  omega

section

variable {τ : Type} {target : Target} {s : System τ} {reading : Metric → Nat → Nat}

theorem start_mem_shutdown (code : Int32) (phase : Phase) (n : Nat) :
    .start phase n ∉ shutdown target code s := by
  simp [shutdown]

theorem stop_mem_shutdown (code : Int32) (phase : Phase) (n : Nat) :
    .stop phase n ∈ shutdown target code s ↔ phase = .total ∧ n = s.readings := by
  simp [shutdown]

theorem printed_shutdown (code : Int32) : (shutdown target code s).filterMap Action.printed =
    ([Phase.init, .run, .deinit, .total].flatMap fun phase => target.metrics.map fun metric =>
      benchLine target phase metric (s.values target metric phase)) ++
    [ascii "Program finish.\n", ascii "MLONMCU EXIT: " ++ signedDecimal code ++ ascii "\n"] := by
  have hlines : ∀ phase, (target.metrics.map fun metric =>
      Action.printf (benchLine target phase metric (s.values target metric phase))).filterMap
        Action.printed =
          target.metrics.map fun metric =>
            benchLine target phase metric (s.values target metric phase) := by
    intro phase
    rw [List.filterMap_map, ← List.filterMap_eq_map]
    rfl
  simp only [shutdown, List.filterMap_append, List.filterMap_flatMap, hlines]
  rfl

section

variable {laps : List Phase} {code : Int32} (h : Reaches target laps code s)

include h

theorem Reaches.total_notMem : .total ∉ laps := by
  rcases h.prefix_laps with rfl | rfl | rfl <;> decide

theorem Reaches.nodup : laps.Nodup := by
  rcases h.prefix_laps with rfl | rfl | rfl <;> decide

variable (hclock : ∀ metric n, target.clock metric n = UInt64.ofNat (reading metric n))
  (hmono : ∀ metric, Monotone (reading metric))
  (helapsed : ∀ metric, target.has metric → reading metric s.readings - reading metric 0 < 2 ^ 64)

include hclock hmono helapsed

theorem Reaches.total_value {metric : Metric} (hhas : target.has metric) :
    (s.values target metric .total).toNat = reading metric s.readings - reading metric 0 := by
  rw [System.values, if_pos ⟨hhas, rfl⟩, h.timed.total metric hhas, hclock, hclock]
  exact toNat_sub_ofNat (hmono metric (Nat.zero_le _)) (helapsed metric hhas)

theorem Reaches.lap_value {metric : Metric} (hhas : target.has metric) {i : Nat} {phase : Phase}
    (hi : laps[i]? = some phase) : (s.values target metric phase).toNat =
      reading metric (2 * i + 2) - reading metric (2 * i + 1) := by
  have hne : phase ≠ .total := fun heq => h.total_notMem (heq ▸ List.mem_of_getElem? hi)
  have hlt := (List.getElem?_eq_some_iff.mp hi).1
  have hfirst := hmono metric (Nat.zero_le (2 * i + 1))
  have hlast := hmono metric (show 2 * i + 2 ≤ s.readings by rw [h.timed.readings]; omega)
  have hbound := helapsed metric hhas
  rw [System.values, if_neg fun hp => hne hp.2, h.timed.lap i phase hi metric hhas, hclock, hclock]
  exact toNat_sub_ofNat (hmono metric (Nat.le_succ _)) (by omega)

theorem Reaches.executed {metric : Metric} (hhas : target.has metric) {phase : Phase} {a b : Nat}
    (ha : .start phase a ∈ s.actions ++ shutdown target code s)
    (hb : .stop phase b ∈ s.actions ++ shutdown target code s) :
    reading metric a ≤ reading metric b ∧
      (s.values target metric phase).toNat = reading metric b - reading metric a := by
  rw [List.mem_append, h.timed.started] at ha
  rw [List.mem_append, h.timed.stopped, stop_mem_shutdown] at hb
  rcases ha.resolve_right (start_mem_shutdown code phase a) with ⟨rfl, rfl⟩ | ⟨i, hi, rfl⟩
  · obtain ⟨-, rfl⟩ := hb.resolve_left fun hlap => by
      obtain ⟨i, hi, -⟩ := hlap
      exact h.total_notMem (List.mem_of_getElem? hi)
    exact ⟨hmono metric (Nat.zero_le _), h.total_value hclock hmono helapsed hhas⟩
  · have hmem := List.mem_of_getElem? hi
    obtain ⟨j, hj, rfl⟩ := hb.resolve_right fun htotal => h.total_notMem (htotal.1 ▸ hmem)
    have hlt := (List.getElem?_eq_some_iff.mp hi).1
    obtain rfl : i = j := (List.getElem?_inj hlt h.nodup).mp (hi.trans hj.symm)
    exact ⟨hmono metric (Nat.le_succ _), h.lap_value hclock hmono helapsed hhas hi⟩

omit hclock hmono helapsed in
theorem Reaches.value_of_notMem {phase : Phase} (hne : phase ≠ .total) (hnot : phase ∉ laps)
    (metric : Metric) : s.values target metric phase = 0 := by
  rw [System.values, if_neg fun hp => hne hp.2, h.timed.other metric phase hne hnot]

theorem Reaches.sum_le {metric : Metric} (hhas : target.has metric) :
    (s.values target metric .init).toNat + (s.values target metric .run).toNat +
      (s.values target metric .deinit).toNat ≤ (s.values target metric .total).toNat := by
  have hinit : laps[0]? = some .init → (s.values target metric .init).toNat =
      reading metric 2 - reading metric 1 := h.lap_value hclock hmono helapsed hhas
  have hrun : laps[1]? = some .run → (s.values target metric .run).toNat =
      reading metric 4 - reading metric 3 := h.lap_value hclock hmono helapsed hhas
  have hdeinit : laps[2]? = some .deinit → (s.values target metric .deinit).toNat =
      reading metric 6 - reading metric 5 := h.lap_value hclock hmono helapsed hhas
  have hnone : ∀ {phase : Phase}, phase ≠ .total → phase ∉ laps →
      (s.values target metric phase).toNat = 0 := by
    intro phase hne hnot
    rw [h.value_of_notMem hne hnot]
    rfl
  have hstep : ∀ a b, a ≤ b → reading metric a ≤ reading metric b := fun a b hle => hmono metric hle
  have h01 := hstep 0 1 (by decide)
  have h12 := hstep 1 2 (by decide)
  have h23 := hstep 2 3 (by decide)
  have h34 := hstep 3 4 (by decide)
  have h45 := hstep 4 5 (by decide)
  have h56 := hstep 5 6 (by decide)
  have h67 := hstep 6 7 (by decide)
  have htotal := h.total_value hclock hmono helapsed hhas
  rcases h.prefix_laps with rfl | rfl | rfl
  · have hreadings : s.readings = 3 := h.timed.readings
    rw [hinit rfl, hnone (by decide) (by decide), hnone (by decide) (by decide), htotal, hreadings]
    omega
  · have hreadings : s.readings = 5 := h.timed.readings
    rw [hinit rfl, hrun rfl, hnone (by decide) (by decide), htotal, hreadings]
    omega
  · have hreadings : s.readings = 7 := h.timed.readings
    rw [hinit rfl, hrun rfl, hdeinit rfl, htotal, hreadings]
    omega

theorem Reaches.accounts :
    Accounts target reading (s.actions ++ shutdown target code s) (s.values target) where
  printed := ⟨code, by rw [List.filterMap_append, h.timed.printed, printed_shutdown]; simp⟩
  stopped phase a ha := by
    rw [List.mem_append, h.timed.started] at ha
    rcases ha.resolve_right (start_mem_shutdown code phase a) with ⟨rfl, rfl⟩ | ⟨i, hi, rfl⟩
    · exact ⟨s.readings, List.mem_append_right _ ((stop_mem_shutdown ..).mpr ⟨rfl, rfl⟩)⟩
    · exact ⟨2 * i + 2, List.mem_append_left _ ((h.timed.stopped ..).mpr ⟨i, hi, rfl⟩)⟩
  executed phase a b ha hb metric hhas := h.executed hclock hmono helapsed hhas ha hb
  skipped phase hskip := by
    have hstart : ∀ a, .start phase a ∉ s.actions := fun a ha =>
      hskip a (List.mem_append_left _ ha)
    have hne : phase ≠ .total := fun heq => hstart 0 ((h.timed.started ..).mpr (.inl ⟨heq, rfl⟩))
    have hnot : phase ∉ laps := by
      intro hmem
      obtain ⟨i, hi⟩ := List.getElem?_of_mem hmem
      exact hstart (2 * i + 1) ((h.timed.started ..).mpr (.inr ⟨i, hi, rfl⟩))
    have hshort : laps ≠ [.init, .run, .deinit] := by
      rintro rfl
      cases phase <;> simp at hne hnot
    obtain ⟨hcode, hook, hreturned⟩ := h.failed hshort
    exact ⟨⟨hook, code, hcode, List.mem_append_left _ hreturned⟩, h.value_of_notMem hne hnot⟩
  total := by
    refine ⟨s.readings, List.mem_append_left _ ((h.timed.started ..).mpr (.inl ⟨rfl, rfl⟩)),
      List.mem_append_right _ ((stop_mem_shutdown ..).mpr ⟨rfl, rfl⟩), fun phase n hn => ?_⟩
    rw [List.mem_append, List.mem_append, h.timed.started, h.timed.stopped, stop_mem_shutdown] at hn
    have hreadings := h.timed.readings
    rcases hn with ((⟨-, rfl⟩ | ⟨i, hi, rfl⟩) | hn) | ⟨i, hi, rfl⟩ | ⟨-, rfl⟩
    · exact Nat.zero_le _
    · have := (List.getElem?_eq_some_iff.mp hi).1
      omega
    · exact absurd hn (start_mem_shutdown code phase n)
    · have := (List.getElem?_eq_some_iff.mp hi).1
      omega
    · exact Nat.le_refl _
  sum metric hhas := h.sum_le hclock hmono helapsed hhas

end

/-- The values that `main` prints account for the readings. -/
theorem main_accounts {p : Program τ} (hreturns : p.Returns) (skipCheck : Bool)
    (hclock : ∀ metric n, target.clock metric n = UInt64.ofNat (reading metric n))
    (hmono : ∀ metric, Monotone (reading metric)) (program : τ) :
    let t := ((main target skipCheck p).run (.initial program)).2
    (∀ metric, target.has metric →
      reading metric (t.readings - 1) - reading metric 0 < 2 ^ 64) →
    ∃ value, Accounts target reading t.actions value := by
  intro t helapsed
  obtain ⟨laps, code, s, hreaches, hrun⟩ := @reaches_main τ target p hreturns skipCheck program
  have ht : t = _ := congrArg Prod.snd (hrun.trans (run_cleanup target code s))
  rw [ht] at helapsed ⊢
  exact ⟨s.values target, hreaches.accounts hclock hmono helapsed⟩

end

/-- A program whose functions return fixed codes. -/
def ofCodes (init run check deinit : Int32) : Program Unit :=
  ⟨pure init, pure run, pure check, pure deinit⟩

theorem returns_ofCodes (init run check deinit : Int32) :
    (ofCodes init run check deinit).Returns :=
  ⟨fun _ => ⟨init, (), rfl⟩, fun _ => ⟨run, (), rfl⟩, fun _ => ⟨check, (), rfl⟩,
    fun _ => ⟨deinit, (), rfl⟩⟩

/-- A target whose counters wrap after three readings. -/
def wrappingTarget : Target where
  has _ := true
  clock _ n := UInt64.ofNat (2 ^ 64 - 3 + n)
  conversion value := decimal value.toNat
  exits := true

theorem main_accounts_wrapping : ∃ value, Accounts wrappingTarget (fun _ n => 2 ^ 64 - 3 + n)
    ((main wrappingTarget false (ofCodes 0 7 0 0)).run (.initial ())).2.actions value := by
  refine main_accounts (returns_ofCodes 0 7 0 0) false (fun _ _ => rfl)
    (fun _ a b hle => Nat.add_le_add_left hle _) () fun metric _ => ?_
  have hreadings : ((main wrappingTarget false (ofCodes 0 7 0 0)).run (.initial ())).2.readings =
      6 := rfl
  rw [hreadings]
  decide

end Mlonmcu.Generic
