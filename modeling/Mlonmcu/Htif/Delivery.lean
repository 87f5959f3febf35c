import Mlonmcu.Htif.Mailbox

/-! Which bytes reach the console.  As long as the guest sees a request that is left, guest and host
are a channel with one place. -/

namespace Mlonmcu.Htif

open CLib Relation

variable {charSigned : Bool}

/-! ### The channel -/

/-- The requests that the guest still has to send. -/
def Guest.unsent (charSigned : Bool) : Guest → List UInt64
  | .loop rest _ => rest.map (request charSigned)
  | .wait val rest _ | .storeLow val rest _ | .storeHigh val rest _ =>
    val :: rest.map (request charSigned)
  | .returned _ _ => []

/-- The guest is between its look at the mailbox and its last store. -/
def Guest.claimed : Guest → Bool
  | .storeLow .. | .storeHigh .. => true
  | _ => false

/-- The words of what is in the channel. -/
def slotWords (slot : Option UInt64) : Words := (slot.map Words.ofVal).getD .zero

/-- The mailbox that belongs to what is in the channel. -/
def Guest.tohost : Guest → Option UInt64 → Words
  | .storeHigh val _ _, _ => { Words.zero with low := (Words.ofVal val).low }
  | _, slot => slotWords slot

theorem tohost_of_not_sending {guest : Guest} (h : guest.sending = false) (slot : Option UInt64) :
    guest.tohost slot = slotWords slot := by
  cases guest with
  | storeHigh val rest len => cases h
  | _ => rfl

/-- A system in which the guest sees each request that it must not overwrite. -/
structure Represents (charSigned : Bool) (s : System) (c : Channel UInt64) : Prop where
  unsent : c.unsent = s.guest.unsent charSigned
  taken : c.taken = s.recorded
  claimed : s.guest.claimed = true → c.slot = none
  tohost : s.tohost = s.guest.tohost c.slot
  visible : ∀ val ∈ (c.slot.toList ++ c.unsent).dropLast, (Words.ofVal val).low ≠ 0
  nonzero : ∀ val ∈ c.slot.toList ++ c.unsent, val ≠ 0

/-- A step of the guest is a step of the sender, or none. -/
theorem represents_guest {s : System} {c : Channel UInt64} (h : Represents charSigned s c) :
    let s' := { s with
      guest := (s.guest.step charSigned s.tohost).1
      tohost := (s.guest.step charSigned s.tohost).2 }
    ∃ c', ReflTransGen Channel.Step c c' ∧ Represents charSigned s' c' := by
  intro s'
  obtain ⟨guest, tohost, recorded⟩ := s
  obtain ⟨unsent, slot, taken⟩ := c
  obtain ⟨hunsent, htaken, hclaimed, htohost, hvisible, hnonzero⟩ := h
  dsimp only at hunsent htaken hclaimed htohost hvisible hnonzero
  subst hunsent htaken htohost
  cases guest with
  | loop rest len =>
    cases rest with
    | nil => exact ⟨_, .refl, rfl, rfl, hclaimed, rfl, hvisible, hnonzero⟩
    | cons byte rest => exact ⟨_, .refl, rfl, rfl, hclaimed, rfl, hvisible, hnonzero⟩
  | wait val rest len =>
    cases slot with
    | some pending =>
      have hlow : (Words.ofVal pending).low ≠ 0 := hvisible pending (by simp [Guest.unsent])
      have hwait : s' = ⟨.wait val rest len, .ofVal pending, taken⟩ := by
        simp [s', Guest.step, Guest.tohost, slotWords, hlow]
      exact ⟨_, .refl, hwait ▸ ⟨rfl, rfl, hclaimed, rfl, hvisible, hnonzero⟩⟩
    | none => exact ⟨_, .refl, rfl, rfl, fun _ => rfl, rfl, hvisible, hnonzero⟩
  | storeLow val rest len =>
    obtain rfl : slot = none := hclaimed rfl
    exact ⟨_, .refl, rfl, rfl, fun _ => rfl, rfl, hvisible, hnonzero⟩
  | storeHigh val rest len =>
    obtain rfl : slot = none := hclaimed rfl
    exact ⟨_, .single (.put val _ taken), rfl, rfl, nofun, rfl, hvisible, hnonzero⟩
  | returned ret errno => exact ⟨_, .refl, rfl, rfl, hclaimed, rfl, hvisible, hnonzero⟩

/-- A step of the host is a step of the receiver. -/
theorem represents_host {s : System} {c : Channel UInt64} (h : Represents charSigned s c)
    (hsending : s.guest.sending = false) (hval : s.tohost.val ≠ 0) :
    let s' := { s with
      tohost := .zero
      recorded := s.recorded ++ [s.tohost.val] }
    ∃ c', ReflTransGen Channel.Step c c' ∧ Represents charSigned s' c' := by
  intro s'
  obtain ⟨unsent, slot, taken⟩ := c
  have htohost : s.tohost = slotWords slot :=
    h.tohost.trans (tohost_of_not_sending hsending slot)
  cases slot with
  | none =>
    rw [htohost] at hval
    exact absurd rfl hval
  | some val =>
    have hrecorded : s.tohost.val = val := by rw [htohost]; exact Words.val_ofVal val
    refine ⟨_, .single (.take val unsent taken), h.unsent, ?_, fun _ => rfl, ?_, ?_, ?_⟩
    · exact congrArg₂ (· ++ [·]) h.taken hrecorded.symm
    · exact (tohost_of_not_sending hsending none).symm
    · intro later hlater
      apply h.visible later
      cases unsent with
      | nil => simp at hlater
      | cons next unsent => exact List.mem_cons_of_mem val hlater
    · exact fun later hlater => h.nonzero later (List.mem_cons_of_mem val hlater)

theorem represents_step {s t : System} {c : Channel UInt64} (h : Represents charSigned s c)
    (hstep : Step charSigned s t) :
    ∃ c', ReflTransGen Channel.Step c c' ∧ Represents charSigned t c' := by
  cases hstep with
  | guest => exact represents_guest h
  | host hsending hval => exact represents_host h hsending hval

theorem represents_start {bytes : List UInt8} (h : ∀ byte ∈ bytes.dropLast, byte ≠ 0) :
    Represents charSigned (.start 1 bytes) ⟨bytes.map (request charSigned), none, []⟩ where
  unsent := rfl
  taken := rfl
  claimed _ := rfl
  tohost := rfl
  visible := by
    intro val hval
    rw [show (none : Option UInt64).toList = [] from rfl, List.nil_append, ← List.map_dropLast]
      at hval
    obtain ⟨byte, hbyte, rfl⟩ := List.mem_map.mp hval
    exact fun hlow => h byte hbyte ((request_low byte).mp hlow)
  nonzero := by
    intro val hval
    obtain ⟨byte, -, rfl⟩ := List.mem_map.mp hval
    exact request_ne_zero byte

/-- When the system has finished, the channel is empty. -/
theorem Represents.finished {s : System} {c : Channel UInt64} (h : Represents charSigned s c)
    (hfinished : s.Finished) : c = ⟨[], none, s.recorded⟩ := by
  obtain ⟨⟨ret, errno, hguest⟩, hempty⟩ := hfinished
  obtain ⟨unsent, slot, taken⟩ := c
  obtain ⟨hunsent, htaken, -, htohost, -, hnonzero⟩ := h
  rw [hguest] at hunsent htohost
  cases slot with
  | none =>
    dsimp only at hunsent htaken
    rw [hunsent, htaken]
    rfl
  | some val =>
    have hval : val = 0 := by
      rw [← Words.val_ofVal val, show Words.ofVal val = .zero from htohost.symm.trans hempty]
      rfl
    exact absurd hval (hnonzero val (by simp))

theorem delivers {bytes : List UInt8} (h : ∀ byte ∈ bytes.dropLast, byte ≠ 0) :
    Delivers charSigned bytes := by
  intro t hrun hfinished
  obtain ⟨c, hchannel, hrepresents⟩ :=
    run_simulated hrun (represents_start h) fun _ _ _ => represents_step
  rw [hrepresents.finished hfinished] at hchannel
  exact console_requests (Channel.run_taken hchannel)

/-! ### Lost bytes -/

theorem run_send {tohost : Words} (h : tohost.low = 0) (byte : UInt8) (rest : List UInt8)
    (len : Nat) (recorded : List UInt64) :
    ReflTransGen (Step charSigned) ⟨.loop (byte :: rest) len, tohost, recorded⟩
      ⟨.loop rest len, .ofVal (request charSigned byte), recorded⟩ := by
  let val := request charSigned byte
  have hwait : Step charSigned ⟨.wait val rest len, tohost, recorded⟩
      ⟨.storeLow val rest len, tohost, recorded⟩ := by
    have hstep := @Step.guest charSigned ⟨.wait val rest len, tohost, recorded⟩
    simpa [Guest.step, h] using hstep
  exact .head (.guest _) (.head hwait (.head (.guest _) (.single (.guest _))))

theorem run_take (byte : UInt8) (rest : List UInt8) (len : Nat) (recorded : List UInt64) :
    ReflTransGen (Step charSigned)
      ⟨.loop rest len, .ofVal (request charSigned byte), recorded⟩
      ⟨.loop rest len, .zero, recorded ++ [request charSigned byte]⟩ := by
  have hval := Words.val_ofVal (request charSigned byte)
  have hstep := @Step.host charSigned
    ⟨.loop rest len, .ofVal (request charSigned byte), recorded⟩ rfl
    (by rw [hval]; exact request_ne_zero byte)
  rw [hval] at hstep
  exact .single hstep

theorem run_deliver (bytes rest : List UInt8) (len : Nat) (recorded : List UInt64) :
    ReflTransGen (Step charSigned) ⟨.loop (bytes ++ rest) len, .zero, recorded⟩
      ⟨.loop rest len, .zero, recorded ++ bytes.map (request charSigned)⟩ := by
  induction bytes generalizing recorded with
  | nil => rw [List.map_nil, List.append_nil]; exact .refl
  | cons byte bytes ih =>
    have hlater := ih (recorded ++ [request charSigned byte])
    rw [List.append_assoc] at hlater
    exact ((run_send rfl byte (bytes ++ rest) len recorded).trans (run_take ..)).trans hlater

/-- The request for a NUL is overwritten by the next one when the host is late. -/
theorem not_delivers (front back : List UInt8) (byte : UInt8) :
    ¬ Delivers charSigned (front ++ 0 :: byte :: back) := by
  intro hdelivers
  let bytes := front ++ 0 :: byte :: back
  let sent := front.map (request charSigned) ++ [request charSigned byte] ++
    back.map (request charSigned)
  have hnul : (Words.ofVal (request charSigned 0)).low = 0 := (request_low 0).mpr rfl
  have hrun : ReflTransGen (Step charSigned) (.start 1 bytes)
      ⟨.returned bytes.length none, .zero, sent⟩ := by
    have hfront := @run_deliver charSigned front (0 :: byte :: back) bytes.length []
    have hlost := (@run_send charSigned .zero rfl 0 (byte :: back) bytes.length
      (front.map (request charSigned))).trans (run_send hnul byte back _ _)
    have hback := @run_deliver charSigned back [] bytes.length
      (front.map (request charSigned) ++ [request charSigned byte])
    rw [List.append_nil] at hback
    exact ((hfront.trans hlost).trans (run_take ..)).trans (hback.tail (.guest _))
  have hconsole := hdelivers _ hrun ⟨⟨_, _, rfl⟩, rfl⟩
  have hsent := @console_requests charSigned ⟨.returned bytes.length none, .zero, sent⟩
    (front ++ byte :: back) (by simp [sent])
  have hlength := congrArg List.length (hsent.symm.trans hconsole)
  simp at hlength

/-- Every byte is delivered exactly when no byte but the last one is a NUL. -/
theorem delivers_iff (charSigned : Bool) (bytes : List UInt8) :
    Delivers charSigned bytes ↔ ∀ byte ∈ bytes.dropLast, byte ≠ 0 := by
  constructor
  · rintro hdelivers byte hbyte rfl
    have hne : bytes ≠ [] := by
      rintro rfl
      simp at hbyte
    obtain ⟨front, mid, hsplit⟩ := List.append_of_mem hbyte
    have hbytes : bytes = front ++ 0 :: (mid ++ [bytes.getLast hne]) := by
      conv_lhs => rw [← List.dropLast_append_getLast hne, hsplit]
      simp
    cases mid with
    | nil =>
      rw [hbytes] at hdelivers
      exact not_delivers front [] _ hdelivers
    | cons next mid =>
      rw [hbytes] at hdelivers
      exact not_delivers front (mid ++ [bytes.getLast hne]) next hdelivers
  · exact delivers

theorem not_delivers_nul : ¬ Delivers false [0, 65] := not_delivers [] [] 65

end Mlonmcu.Htif
