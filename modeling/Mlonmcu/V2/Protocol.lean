import Mlonmcu.CLib.Script
import Mlonmcu.V2.Driver

/-! The order of the calls of a check.  The flag `new_` is set to false once, before the first
batch, so a request that does not store to it leaves the value of the batch before. -/

namespace Mlonmcu.V2

open CLib

variable {σ : Type}

/-- All calls for the `n` batches from `batchIdx` on. -/
def batchCalls (batchIdx n : Nat) : List Call :=
  (List.range' batchIdx n).flatMap fun b => [.request b, .invoke, .handle b]

/-- The protocol of a check of the `n` batches from `batchIdx` on. -/
structure Protocol (batchIdx n : Nat) (result : Result Int32) (log : List Entry) : Prop where
  inOrder : log.map Entry.call <+: batchCalls batchIdx n
  fresh : ∀ before entry later, log = before ++ entry :: later → entry.call = .invoke →
    ∃ earlier b, before = earlier ++ [⟨.request b, 0, some true⟩]
  firstError : ∀ before entry later, log = before ++ entry :: later → entry.code ≠ 0 →
    later = [] ∧ result = .done entry.code
  success : (∀ entry ∈ log, entry.code = 0) → result = .done 0

/-- The logs of checks in which each batch has its own inputs, with the value that is returned. -/
inductive Checks : Nat → Nat → List Entry → Int32 → Prop
  | finished (b : Nat) : Checks b 0 [] 0
  | requestError {b n : Nat} {code : Int32} (stored : Option Bool) (h : code ≠ 0) :
    Checks b (n + 1) [⟨.request b, code, stored⟩] code
  | notNew {b n : Nat} (stored : Option Bool) : Checks b (n + 1) [⟨.request b, 0, stored⟩] 0
  | invokeError {b n : Nat} {code : Int32} (h : code ≠ 0) :
    Checks b (n + 1) [⟨.request b, 0, some true⟩, ⟨.invoke, code, none⟩] code
  | handleError {b n : Nat} {code : Int32} (h : code ≠ 0) :
    Checks b (n + 1)
      [⟨.request b, 0, some true⟩, ⟨.invoke, 0, none⟩, ⟨.handle b, code, none⟩] code
  | batch {b n : Nat} {log : List Entry} {ret : Int32} (h : Checks (b + 1) n log ret) :
    Checks b (n + 1)
      (⟨.request b, 0, some true⟩ :: ⟨.invoke, 0, none⟩ :: ⟨.handle b, 0, none⟩ :: log) ret

theorem batchCalls_succ (b n : Nat) : batchCalls b (n + 1) =
    .request b :: .invoke :: .handle b :: batchCalls (b + 1) n := rfl

theorem Checks.inOrder {b n : Nat} {log : List Entry} {ret : Int32} (h : Checks b n log ret) :
    log.map Entry.call <+: batchCalls b n := by
  induction h with
  | finished b => exact List.nil_prefix
  | requestError stored h => exact ⟨_, rfl⟩
  | notNew stored => exact ⟨_, rfl⟩
  | invokeError h => exact ⟨_, rfl⟩
  | handleError h => exact ⟨_, rfl⟩
  | batch h ih =>
    obtain ⟨rest, hrest⟩ := ih
    refine ⟨rest, ?_⟩
    rw [batchCalls_succ, ← hrest]
    rfl

theorem Checks.fresh {b n : Nat} {log : List Entry} {ret : Int32} (h : Checks b n log ret)
    {before later : List Entry} {entry : Entry} (hlog : log = before ++ entry :: later)
    (hinvoke : entry.call = .invoke) :
    ∃ earlier b, before = earlier ++ [⟨.request b, 0, some true⟩] := by
  induction h generalizing before with
  | finished b => simp at hlog
  | requestError stored h =>
    rcases before with _ | ⟨first, before⟩ <;> simp at hlog
    simp [← hlog.1] at hinvoke
  | notNew stored =>
    rcases before with _ | ⟨first, before⟩ <;> simp at hlog
    simp [← hlog.1] at hinvoke
  | @invokeError b n code h =>
    rcases before with _ | ⟨first, _ | ⟨second, before⟩⟩ <;> simp at hlog
    · simp [← hlog.1] at hinvoke
    · exact ⟨[], b, by rw [← hlog.1]; rfl⟩
  | @handleError b n code h =>
    rcases before with _ | ⟨first, _ | ⟨second, _ | ⟨third, before⟩⟩⟩ <;> simp at hlog
    · simp [← hlog.1] at hinvoke
    · exact ⟨[], b, by rw [← hlog.1]; rfl⟩
    · simp [← hlog.2.2.1] at hinvoke
  | @batch b n log ret h ih =>
    rcases before with _ | ⟨first, _ | ⟨second, _ | ⟨third, before⟩⟩⟩ <;> simp at hlog
    · simp [← hlog.1] at hinvoke
    · exact ⟨[], b, by rw [← hlog.1]; rfl⟩
    · simp [← hlog.2.2.1] at hinvoke
    · obtain ⟨earlier, b', rfl⟩ := ih hlog.2.2.2
      exact ⟨first :: second :: third :: earlier, b', rfl⟩

theorem Checks.firstError {b n : Nat} {log : List Entry} {ret : Int32} (h : Checks b n log ret)
    {before later : List Entry} {entry : Entry} (hlog : log = before ++ entry :: later)
    (hcode : entry.code ≠ 0) : later = [] ∧ ret = entry.code := by
  induction h generalizing before with
  | finished b => simp at hlog
  | requestError stored h =>
    rcases before with _ | ⟨first, before⟩ <;> simp at hlog
    exact ⟨hlog.2, by rw [← hlog.1]⟩
  | notNew stored =>
    rcases before with _ | ⟨first, before⟩ <;> simp at hlog
    simp [← hlog.1] at hcode
  | invokeError h =>
    rcases before with _ | ⟨first, _ | ⟨second, before⟩⟩ <;> simp at hlog
    · simp [← hlog.1] at hcode
    · exact ⟨hlog.2.2, by rw [← hlog.2.1]⟩
  | handleError h =>
    rcases before with _ | ⟨first, _ | ⟨second, _ | ⟨third, before⟩⟩⟩ <;> simp at hlog
    · simp [← hlog.1] at hcode
    · simp [← hlog.2.1] at hcode
    · exact ⟨hlog.2.2.2, by rw [← hlog.2.2.1]⟩
  | batch h ih =>
    rcases before with _ | ⟨first, _ | ⟨second, _ | ⟨third, before⟩⟩⟩ <;> simp at hlog
    · simp [← hlog.1] at hcode
    · simp [← hlog.2.1] at hcode
    · simp [← hlog.2.2.1] at hcode
    · exact ih hlog.2.2.2

theorem Checks.success {b n : Nat} {log : List Entry} {ret : Int32} (h : Checks b n log ret)
    (hcodes : ∀ entry ∈ log, entry.code = 0) : ret = 0 := by
  induction h with
  | finished b => rfl
  | @requestError b n code stored h => exact hcodes ⟨.request b, code, stored⟩ (by simp)
  | notNew stored => rfl
  | @invokeError b n code h => exact hcodes ⟨.invoke, code, none⟩ (by simp)
  | @handleError b n code h => exact hcodes ⟨.handle b, code, none⟩ (by simp)
  | batch h ih => exact ih fun entry hentry => hcodes entry (by simp [hentry])

theorem Checks.protocol {b n : Nat} {log : List Entry} {ret : Int32} (h : Checks b n log ret) :
    Protocol b n (.done ret) log where
  inOrder := h.inOrder
  fresh _ _ _ hlog hinvoke := h.fresh hlog hinvoke
  firstError _ _ _ hlog hcode := by
    obtain ⟨hlater, hret⟩ := h.firstError hlog hcode
    exact ⟨hlater, by rw [hret]⟩
  success hcodes := by rw [h.success hcodes]

/-! ### The batches that are reached -/

variable (hooks : Hooks σ) (start : σ)

/-- What the request for a batch does, when the batches before it had their own inputs.  The flag is
false before the first batch and true before the other ones. -/
def requested (b : Nat) (state : σ) : Int32 × Option Bool × σ :=
  hooks.processInputs b (decide (0 < b)) state

/-- The state after a batch that has its own inputs and no error. -/
def batchStep (b : Nat) (state : σ) : Option σ :=
  let (code, stored, state) := requested hooks b state
  if code ≠ 0 ∨ stored ≠ some true then none
  else
    let (code, state) := hooks.invoke state
    if code ≠ 0 then none
    else
      let (code, state) := hooks.processOutputs b state
      if code ≠ 0 then none else some state

/-- The state before batch `b`, when all batches before it had their own inputs and no error. -/
def batchState : Nat → Option σ
  | 0 => some start
  | b + 1 => (batchState b).bind (batchStep hooks b)

/-- The request for batch `b` succeeds and does not store to the flag. -/
def LeavesFlag (b : Nat) (state : σ) : Prop :=
  (requested hooks b state).1 = 0 ∧ (requested hooks b state).2.1 = none

variable {hooks start}

theorem run_requestInputs {b : Nat} {s : Machine σ} (hnew : s.new = decide (0 < b)) :
    (mlifRequestInputs hooks b).run s =
      (.done (requested hooks b s.state).1, {
        state := (requested hooks b s.state).2.2
        new := (requested hooks b s.state).2.1.getD s.new
        log := s.log ++
          [⟨.request b, (requested hooks b s.state).1, (requested hooks b s.state).2.1⟩] }) := by
  unfold requested
  rw [← hnew]
  rfl

theorem run_invoke (s : Machine σ) : (mlifInvoke hooks).run s = (.done (hooks.invoke s.state).1, {
    state := (hooks.invoke s.state).2
    new := s.new
    log := s.log ++ [⟨.invoke, (hooks.invoke s.state).1, none⟩] }) := rfl

theorem run_handleResults (b : Nat) (s : Machine σ) :
    (mlifHandleResults hooks b).run s = (.done (hooks.processOutputs b s.state).1, {
      state := (hooks.processOutputs b s.state).2
      new := s.new
      log := s.log ++ [⟨.handle b, (hooks.processOutputs b s.state).1, none⟩] }) := rfl

/-- The rest of a batch whose flag is true. -/
def afterRequest (hooks : Hooks σ) (n b : Nat) : Prog (Machine σ) Int32 := do
  let ret ← mlifInvoke hooks
  if ret ≠ 0 then pure ret
  else do
    let ret ← mlifHandleResults hooks b
    if ret ≠ 0 then pure ret else checkLoop hooks n (b + 1) ret

/-- A batch goes on after its request when the request has no error and the flag is true. -/
theorem run_checkLoop_succ {b : Nat} {s : Machine σ} {code : Int32} {stored : Option Bool}
    {state : σ} (hnew : s.new = decide (0 < b))
    (hrequest : requested hooks b s.state = (code, stored, state)) (n : Nat) (ret : Int32) :
    let s' : Machine σ :=
      { state, new := stored.getD s.new, log := s.log ++ [⟨.request b, code, stored⟩] }
    (checkLoop hooks (n + 1) b ret).run s =
      if code ≠ 0 then (.done code, s')
      else if s'.new = false then (.done 0, s')
      else (afterRequest hooks n b).run s' := by
  intro s'
  have hrun := @run_requestInputs σ hooks b s hnew
  rw [hrequest] at hrun
  rw [checkLoop, Prog.bind_done hrun]
  split
  next hcode => rw [Prog.run_pure]
  next hcode =>
    rw [Prog.run_get_bind]
    split
    next hflag =>
      obtain rfl : code = 0 := not_not.mp hcode
      rfl
    next hflag => rfl

theorem run_afterRequest_error {b n : Nat} {s : Machine σ} {code : Int32} {invoked : σ}
    (hinvoke : hooks.invoke s.state = (code, invoked)) (hcode : code ≠ 0) :
    (afterRequest hooks n b).run s =
      (.done code, { s with state := invoked, log := s.log ++ [⟨.invoke, code, none⟩] }) := by
  rw [afterRequest, Prog.bind_done (run_invoke s), hinvoke]
  exact congrArg (fun p => Prog.run p _) (if_pos hcode)

theorem run_afterRequest_handle {b n : Nat} {s : Machine σ} {code : Int32} {invoked handled : σ}
    (hinvoke : hooks.invoke s.state = (0, invoked))
    (hhandle : hooks.processOutputs b invoked = (code, handled)) :
    let s' : Machine σ := { s with
      state := handled
      log := s.log ++ [⟨.invoke, 0, none⟩] ++ [⟨.handle b, code, none⟩] }
    (afterRequest hooks n b).run s =
      if code ≠ 0 then (.done code, s') else (checkLoop hooks n (b + 1) 0).run s' := by
  intro s'
  rw [afterRequest, Prog.bind_done (run_invoke s), hinvoke]
  dsimp only
  rw [if_neg (by simp), Prog.bind_done (run_handleResults b _), hhandle]
  split
  next hcode => rfl
  next hcode =>
    obtain rfl : code = 0 := not_not.mp hcode
    rfl

theorem batchStep_eq {b : Nat} {s state invoked handled : σ}
    (hrequest : requested hooks b s = (0, some true, state))
    (hinvoke : hooks.invoke state = (0, invoked))
    (hhandle : hooks.processOutputs b invoked = (0, handled)) :
    batchStep hooks b s = some handled := by
  simp [batchStep, hrequest, hinvoke, hhandle]

/-- The calls for a batch that has its own inputs and no error. -/
def batchEntries (b : Nat) : List Entry :=
  [⟨.request b, 0, some true⟩, ⟨.invoke, 0, none⟩, ⟨.handle b, 0, none⟩]

/-- A batch that has its own inputs and no error leads to the next one. -/
theorem run_checkLoop_batch {b : Nat} {s : Machine σ} {state invoked handled : σ}
    (hnew : s.new = decide (0 < b)) (hrequest : requested hooks b s.state = (0, some true, state))
    (hinvoke : hooks.invoke state = (0, invoked))
    (hhandle : hooks.processOutputs b invoked = (0, handled)) (n : Nat) (ret : Int32) :
    (checkLoop hooks (n + 1) b ret).run s =
      (checkLoop hooks n (b + 1) 0).run ⟨handled, true, s.log ++ batchEntries b⟩ := by
  have hrun := run_checkLoop_succ hnew hrequest n ret
  dsimp only at hrun
  rw [if_neg (by simp), if_neg (by simp), run_afterRequest_handle hinvoke hhandle,
    if_neg (by simp)] at hrun
  rw [hrun]
  simp [batchEntries]

/-- A batch ends the check or leads to the next one. -/
theorem checkLoop_step {b : Nat} {s : Machine σ} (hnew : s.new = decide (0 < b))
    (hfresh : 0 < b → ¬ LeavesFlag hooks b s.state) (n : Nat) :
    (∃ code t log, (checkLoop hooks (n + 1) b 0).run s = (.done code, t) ∧
      t.log = s.log ++ log ∧ Checks b (n + 1) log code) ∨
    ∃ state, batchStep hooks b s.state = some state ∧
      (checkLoop hooks (n + 1) b 0).run s =
        (checkLoop hooks n (b + 1) 0).run ⟨state, true, s.log ++ batchEntries b⟩ := by
  obtain ⟨⟨code, stored, state⟩, hrequest⟩ : ∃ request, requested hooks b s.state = request :=
    ⟨_, rfl⟩
  have hrun := run_checkLoop_succ hnew hrequest n 0
  dsimp only at hrun
  by_cases hcode : code ≠ 0
  · rw [if_pos hcode] at hrun
    exact .inl ⟨_, _, _, hrun, rfl, .requestError stored hcode⟩
  obtain rfl : code = 0 := not_not.mp hcode
  rw [if_neg hcode] at hrun
  by_cases hflag : stored.getD s.new = false
  · rw [if_pos hflag] at hrun
    exact .inl ⟨_, _, _, hrun, rfl, .notNew stored⟩
  rw [if_neg hflag] at hrun
  obtain rfl : stored = some true := by
    cases stored with
    | some new => simpa using hflag
    | none =>
      rw [Option.getD_none, hnew, decide_eq_false_iff_not, not_not] at hflag
      exact absurd ⟨by rw [hrequest], by rw [hrequest]⟩ (hfresh hflag)
  obtain ⟨⟨code, invoked⟩, hinvoke⟩ : ∃ result, hooks.invoke state = result := ⟨_, rfl⟩
  by_cases hcode : code ≠ 0
  · rw [run_afterRequest_error hinvoke hcode] at hrun
    exact .inl ⟨_, _, _, hrun, by simp, .invokeError hcode⟩
  obtain rfl : code = 0 := not_not.mp hcode
  obtain ⟨⟨code, handled⟩, hhandle⟩ : ∃ result, hooks.processOutputs b invoked = result :=
    ⟨_, rfl⟩
  by_cases hcode : code ≠ 0
  · rw [run_afterRequest_handle hinvoke hhandle, if_pos hcode] at hrun
    exact .inl ⟨_, _, _, hrun, by simp, .handleError hcode⟩
  obtain rfl : code = 0 := not_not.mp hcode
  exact .inr ⟨handled, batchStep_eq hrequest hinvoke hhandle,
    run_checkLoop_batch hnew hrequest hinvoke hhandle n 0⟩

theorem checks_of_fresh {batchSize : Nat}
    (hfresh : ∀ b state, 0 < b → b < batchSize → batchState hooks start b = some state →
      ¬ LeavesFlag hooks b state)
    {n b : Nat} (hn : b + n = batchSize) {s : Machine σ}
    (hstate : batchState hooks start b = some s.state) (hnew : s.new = decide (0 < b)) :
    ∃ code t log, (checkLoop hooks n b 0).run s = (.done code, t) ∧ t.log = s.log ++ log ∧
      Checks b n log code := by
  induction n generalizing b s with
  | zero => exact ⟨0, s, [], rfl, by simp, .finished b⟩
  | succ n ih =>
    rcases checkLoop_step hnew (fun hb => hfresh b s.state hb (by omega) hstate) n with
      hend | ⟨state, hstep, hrun⟩
    · exact hend
    · have hnext : batchState hooks start (b + 1) = some state := by
        rw [batchState, hstate, Option.bind_some, hstep]
      obtain ⟨code, t, log, hrest, hlog, hchecks⟩ :=
        @ih (b + 1) (by omega) ⟨state, true, s.log ++ batchEntries b⟩ hnext (by simp)
      refine ⟨code, t, batchEntries b ++ log, hrun.trans hrest, ?_, .batch hchecks⟩
      rw [hlog, List.append_assoc]

/-! ### A batch with a flag of an earlier one -/

theorem appends_requestInputs (b : Nat) : Appends Machine.log (mlifRequestInputs hooks b) :=
  fun _ => List.prefix_append _ _

theorem appends_invoke : Appends Machine.log (mlifInvoke hooks) := fun _ => List.prefix_append _ _

theorem appends_handleResults (b : Nat) : Appends Machine.log (mlifHandleResults hooks b) :=
  fun _ => List.prefix_append _ _

theorem appends_checkLoop (n b : Nat) (ret : Int32) :
    Appends Machine.log (checkLoop hooks n b ret) := by
  induction n generalizing b ret with
  | zero => exact .pure ret
  | succ n ih =>
    apply (appends_requestInputs b).bind
    intro ret
    split
    · exact .pure ret
    apply Appends.bind fun _ => List.prefix_rfl
    intro s
    split
    · exact .pure ret
    apply appends_invoke.bind
    intro ret
    split
    · exact .pure ret
    apply (appends_handleResults b).bind
    intro ret
    split
    · exact .pure ret
    · exact ih (b + 1) ret

theorem afterRequest_log (hooks : Hooks σ) (n b : Nat) (s : Machine σ) : ∃ code later,
    ((afterRequest hooks n b).run s).2.log = s.log ++ ⟨.invoke, code, none⟩ :: later := by
  have hrest : ∀ ret : Int32, Appends Machine.log
      (if ret ≠ 0 then pure ret
      else mlifHandleResults hooks b >>= fun ret =>
        if ret ≠ 0 then pure ret else checkLoop hooks n (b + 1) ret) := by
    intro ret
    split
    · exact .pure ret
    apply (appends_handleResults b).bind
    intro ret
    split
    · exact .pure ret
    · exact appends_checkLoop n (b + 1) ret
  rw [afterRequest, Prog.bind_done (run_invoke s)]
  obtain ⟨later, hlater⟩ := hrest (hooks.invoke s.state).1 { s with
    state := (hooks.invoke s.state).2
    log := s.log ++ [⟨.invoke, (hooks.invoke s.state).1, none⟩] }
  refine ⟨(hooks.invoke s.state).1, later, hlater.symm.trans ?_⟩
  rw [List.append_assoc]
  rfl

theorem batchStep_eq_some {b : Nat} {s next : σ} (h : batchStep hooks b s = some next) :
    ∃ state invoked, requested hooks b s = (0, some true, state) ∧
      hooks.invoke state = (0, invoked) ∧ hooks.processOutputs b invoked = (0, next) := by
  obtain ⟨⟨code, stored, state⟩, hrequest⟩ : ∃ request, requested hooks b s = request := ⟨_, rfl⟩
  simp only [batchStep, hrequest, Option.ite_none_left_eq_some, Option.some.injEq, ne_eq, not_or,
    not_not] at h
  obtain ⟨⟨rfl, rfl⟩, hinvoke, hhandle, rfl⟩ := h
  exact ⟨state, (hooks.invoke state).2, hrequest, by rw [← hinvoke], by rw [← hhandle]⟩

/-- A check reaches each batch before which all batches had their own inputs and no error. -/
theorem mlonmcuCheck_reaches {batchSize b : Nat} {state : σ} (hb : b ≤ batchSize)
    (hstate : batchState hooks start b = some state) : ∃ log,
      (mlonmcuCheck hooks batchSize).run (.initial start) =
        (checkLoop hooks (batchSize - b) b 0).run ⟨state, decide (0 < b), log⟩ := by
  induction b generalizing state with
  | zero =>
    obtain rfl : start = state := Option.some.inj hstate
    exact ⟨[], rfl⟩
  | succ b ih =>
    obtain ⟨s, hs, hstep⟩ := Option.bind_eq_some_iff.mp hstate
    obtain ⟨requested, invoked, hrequest, hinvoke, hhandle⟩ := batchStep_eq_some hstep
    obtain ⟨log, hrun⟩ := ih (by omega) hs
    have hnext := run_checkLoop_batch (s := ⟨s, decide (0 < b), log⟩) rfl hrequest hinvoke hhandle
      (batchSize - (b + 1)) 0
    rw [hrun, show batchSize - b = batchSize - (b + 1) + 1 by omega, hnext]
    exact ⟨_, rfl⟩

/-- A check with a request that leaves the flag of an earlier batch. -/
theorem not_protocol_of_leavesFlag {batchSize b : Nat} {state : σ} (hpos : 0 < b)
    (hb : b < batchSize) (hstate : batchState hooks start b = some state)
    (hleaves : LeavesFlag hooks b state) (result : Result Int32) :
    ¬ Protocol 0 batchSize result
      ((mlonmcuCheck hooks batchSize).run (.initial start)).2.log := by
  intro hprotocol
  obtain ⟨log, hrun⟩ := mlonmcuCheck_reaches (Nat.le_of_lt hb) hstate
  have hrequest : requested hooks b state = (0, none, (requested hooks b state).2.2) := by
    rw [← hleaves.1, ← hleaves.2]
  have hnext := run_checkLoop_succ (s := ⟨state, decide (0 < b), log⟩) rfl hrequest
    (batchSize - (b + 1)) 0
  dsimp only at hnext
  rw [if_neg (by simp), if_neg (by simp [hpos])] at hnext
  rw [show batchSize - b = batchSize - (b + 1) + 1 by omega, hnext] at hrun
  obtain ⟨code, later, hlog⟩ := afterRequest_log hooks (batchSize - (b + 1)) b
    ⟨(requested hooks b state).2.2, decide (0 < b), log ++ [⟨.request b, 0, none⟩]⟩
  rw [hrun] at hprotocol
  obtain ⟨earlier, b', heq⟩ := hprotocol.fresh _ _ _ hlog rfl
  have hlast := (List.append_inj' heq rfl).2
  cases hlast

theorem protocol_of_fresh {batchSize : Nat}
    (hfresh : ∀ b state, 0 < b → b < batchSize → batchState hooks start b = some state →
      ¬ LeavesFlag hooks b state) :
    let run := (mlonmcuCheck hooks batchSize).run (.initial start)
    Protocol 0 batchSize run.1 run.2.log := by
  intro run
  obtain ⟨code, t, log, hrun, hlog, hchecks⟩ := checks_of_fresh hfresh (Nat.zero_add batchSize)
    (s := .initial start) rfl rfl
  have hrun : run = (.done code, t) := hrun
  rw [hrun, hlog]
  exact hchecks.protocol

/-- A check follows its protocol when no request after the first one leaves the flag as it is. -/
theorem mlonmcuCheck_protocol_iff (hooks : Hooks σ) (start : σ) (batchSize : Nat) :
    let run := (mlonmcuCheck hooks batchSize).run (.initial start)
    Protocol 0 batchSize run.1 run.2.log ↔
      ∀ b state, 0 < b → b < batchSize → batchState hooks start b = some state →
        ¬ LeavesFlag hooks b state := by
  intro run
  constructor
  · intro hprotocol b state hpos hb hstate hleaves
    exact not_protocol_of_leavesFlag hpos hb hstate hleaves run.1 hprotocol
  · exact protocol_of_fresh

/-- A source with inputs for one batch, which stores to the flag only then. -/
def oneBatch : Hooks Unit where
  processInputs b _ s := (0, if b = 0 then some true else none, s)
  invoke s := (0, s)
  processOutputs _ s := (0, s)

/-- The model is invoked for the second batch, for which there are no inputs. -/
theorem mlonmcuCheck_not_protocol :
    let run := (mlonmcuCheck oneBatch 2).run (.initial ())
    run.2.log.map Entry.call =
      [.request 0, .invoke, .handle 0, .request 1, .invoke, .handle 1] ∧
        ¬ Protocol 0 2 run.1 run.2.log :=
  ⟨rfl, not_protocol_of_leavesFlag (b := 1) (by decide) (by decide) rfl ⟨rfl, rfl⟩ _⟩

/-- The default functions store true in each request, or in none. -/
theorem protocol_defaultHooks (w : Wrapper σ) (start : ModelState σ) (batchSize : Nat) :
    let run := (mlonmcuCheck w.defaultHooks batchSize).run (.initial start)
    Protocol 0 batchSize run.1 run.2.log := by
  apply protocol_of_fresh
  intro b state hpos _ hstate hleaves
  have hstored := hleaves.2.symm.trans (mlifProcessInputs_stored w b state)
  obtain ⟨b, rfl⟩ : ∃ c, b = c + 1 := ⟨b - 1, by omega⟩
  obtain ⟨s, -, hstep⟩ := Option.bind_eq_some_iff.mp hstate
  obtain ⟨_, _, hrequest, -, -⟩ := batchStep_eq_some hstep
  have hstored' := mlifProcessInputs_stored w b s
  rw [show mlifProcessInputs w b s = requested w.defaultHooks b s from rfl, hrequest, ← hstored]
    at hstored'
  cases hstored'

end Mlonmcu.V2
