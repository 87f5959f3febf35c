import Mathlib.Data.List.Infix

/-! Payloads between two markers, one after the other. -/

namespace CLib

/-- The two markers of a frame. -/
structure Markers (α : Type) where
  opening : List α
  closing : List α
  opening_ne : opening ≠ []

namespace Markers

variable {α : Type} (m : Markers α)

def frame (payload : List α) : List α := m.opening ++ payload ++ m.closing

/-- The frames of payloads. -/
def stream (payloads : List (List α)) : List α := payloads.flatMap m.frame

/-- What stands between two payloads. -/
def seam : List α := m.closing ++ m.opening

/-- With a seam after it, the payload ends at the first seam. -/
def Seamless (payload : List α) : Prop :=
  ∀ before after, payload ++ m.seam = before ++ m.seam ++ after → after = []

@[simp] theorem stream_nil : m.stream [] = [] := rfl

@[simp] theorem stream_cons (p : List α) (ps : List (List α)) :
    m.stream (p :: ps) = m.opening ++ p ++ m.closing ++ m.stream ps := by
  rw [stream, List.flatMap_cons, frame, stream]

variable {m}

theorem stream_eq_nil {ps : List (List α)} (h : m.stream ps = []) : ps = [] := by
  cases ps with
  | nil => rfl
  | cons p ps =>
    rw [stream_cons] at h
    simp only [List.append_eq_nil_iff] at h
    exact absurd h.1.1.1 m.opening_ne

/-- A payload that is followed by a seam is not longer than what stands before a seam. -/
theorem Seamless.length_le {p q before after : List α} (hp : m.Seamless p)
    (h : p ++ m.closing ++ before = q ++ m.seam ++ after)
    (hbefore : before = [] ∨ m.opening <+: before) : p.length ≤ q.length := by
  rcases hbefore with rfl | ⟨rest, rfl⟩
  · have hend : p ++ m.seam = q ++ m.seam ++ (after ++ m.opening) := by
      rw [← List.append_assoc, ← h, seam, List.append_nil, List.append_assoc]
    exact absurd (List.append_eq_nil_iff.mp (hp q _ hend)).2 m.opening_ne
  · by_contra hlt
    have hseam : p ++ m.seam ++ rest = q ++ m.seam ++ after := by
      rw [← h, seam]
      simp only [List.append_assoc]
    obtain ⟨middle, hmiddle⟩ : q ++ m.seam <+: p ++ m.seam :=
      List.prefix_of_prefix_length_le ⟨after, rfl⟩ ⟨rest, hseam⟩ (by simp; omega)
    have hnil := hp q middle hmiddle.symm
    have hlength := congrArg List.length hmiddle
    rw [hnil] at hlength
    simp at hlength
    omega

theorem opening_or_nil (ps : List (List α)) : m.stream ps = [] ∨ m.opening <+: m.stream ps := by
  cases ps with
  | nil => exact .inl rfl
  | cons p ps =>
    refine .inr ⟨p ++ m.closing ++ m.stream ps, ?_⟩
    rw [stream_cons]
    simp only [List.append_assoc]

theorem length_le_of_stream {p q : List α} {ps qs : List (List α)} (hp : m.Seamless p)
    (h : p ++ m.closing ++ m.stream ps = q ++ m.closing ++ m.stream qs) :
    p.length ≤ q.length := by
  cases qs with
  | nil =>
    have hlength := congrArg List.length h
    simp at hlength
    omega
  | cons q' qs =>
    have hseam : p ++ m.closing ++ m.stream ps =
        q ++ m.seam ++ (q' ++ m.closing ++ m.stream qs) := by
      rw [h, stream_cons, seam]
      simp only [List.append_assoc]
    exact hp.length_le hseam (opening_or_nil ps)

/-- The frames of seamless payloads determine the payloads. -/
theorem stream_inj {ps qs : List (List α)} (hps : ∀ p ∈ ps, m.Seamless p)
    (hqs : ∀ q ∈ qs, m.Seamless q) (h : m.stream ps = m.stream qs) : ps = qs := by
  induction ps generalizing qs with
  | nil => exact (stream_eq_nil h.symm).symm
  | cons p ps ih =>
    cases qs with
    | nil => exact stream_eq_nil h
    | cons q qs =>
      have hrest : p ++ m.closing ++ m.stream ps = q ++ m.closing ++ m.stream qs := by
        simpa using h
      have hlength : p.length = q.length :=
        Nat.le_antisymm (length_le_of_stream (hps p List.mem_cons_self) hrest)
          (length_le_of_stream (hqs q List.mem_cons_self) hrest.symm)
      rw [List.append_assoc, List.append_assoc] at hrest
      obtain ⟨rfl, htail⟩ := List.append_inj hrest hlength
      rw [ih (fun p hp => hps p (List.mem_cons_of_mem _ hp))
        (fun q hq => hqs q (List.mem_cons_of_mem _ hq)) (List.append_cancel_left htail)]

/-- A payload with a seam in it is the one of two frames. -/
theorem stream_split (before after : List α) :
    m.stream [before ++ m.seam ++ after] = m.stream [before, after] := by
  simp [seam]

end Markers

end CLib
