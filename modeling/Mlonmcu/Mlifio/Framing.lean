import Mlonmcu.CLib.Frames
import Mlonmcu.Mlifio.Console

/-! Whether the binary output of `mlifio_to_stdout` determines the samples: a sample may contain the
markers that stand between two samples. -/

namespace Mlonmcu.Mlifio

open CLib

theorem opening_ne_nil : ascii "-?-" ≠ [] := by decide

/-- The markers of a sample in mode `MLIF_STDIO_BIN`. -/
def sampleMarkers : Markers UInt8 := ⟨ascii "-?-", ascii "-!-", opening_ne_nil⟩

/-- A payload in which no sample seems to end before the next one starts, not even with the first
byte of the marker at its own end. -/
def Unmistakable (payload : Bytes) : Prop :=
  ¬ ascii "-!--?-" <:+: payload ∧ ¬ ascii "-!--?" <:+ payload

instance (payload : Bytes) : Decidable (Unmistakable payload) :=
  inferInstanceAs (Decidable (¬ ascii "-!--?-" <:+: payload ∧ ¬ ascii "-!--?" <:+ payload))

theorem seam_eq : sampleMarkers.seam = ascii "-!--?-" := rfl

/-- The marker overlaps itself in its first byte only. -/
theorem seam_overlap {overlap rest : Bytes} (h : overlap ++ sampleMarkers.seam =
    sampleMarkers.seam ++ rest) (hrest : rest ≠ []) (hlt : overlap.length < 6) :
    overlap = ascii "-!--?" := by
  rw [seam_eq, show ascii "-!--?-" = [45, 33, 45, 45, 63, 45] from rfl] at h
  match overlap, h, hlt with
  | [], h, _ => simp_all
  | [a], h, _ => simp at h
  | [a, b], h, _ => simp at h
  | [a, b, c], h, _ => simp at h
  | [a, b, c, d], h, _ => simp at h
  | [a, b, c, d, e], h, _ =>
    simp at h
    obtain ⟨rfl, rfl, rfl, rfl, rfl, -⟩ := h
    rfl

theorem Unmistakable.seamless {payload : Bytes} (h : Unmistakable payload) :
    sampleMarkers.Seamless payload := by
  intro before after heq
  by_contra hafter
  have hlength := congrArg List.length heq
  simp only [List.length_append] at hlength
  rw [List.append_assoc] at heq
  obtain ⟨overlap, rfl⟩ : before <+: payload :=
    List.prefix_of_prefix_length_le ⟨_, heq.symm⟩ (List.prefix_append _ _) (by omega)
  rw [List.append_assoc] at heq
  have hseam := List.append_cancel_left heq
  rcases Nat.lt_or_ge overlap.length 6 with hlt | hle
  · refine h.2 ⟨before, ?_⟩
    rw [seam_overlap hseam hafter hlt]
  · obtain ⟨rest, rfl⟩ : sampleMarkers.seam <+: overlap :=
      List.prefix_of_prefix_length_le ⟨_, hseam.symm⟩ (List.prefix_append _ _) hle
    exact h.1 ⟨before, rest, by rw [List.append_assoc, seam_eq]⟩

section

variable {calls calls' : List PrintCall} {call : PrintCall}

theorem run_bin_frames (h : call.Sound) (out : Bytes) :
    (mlifioToStdout .bin (some call.config) (some call.data) call.ibatch).run out =
      (.done .success, out ++ sampleMarkers.stream call.payloads) := by
  have hframes : sampleMarkers.stream call.payloads =
      (List.range (call.config.nsample / call.config.nbatch).toNat).flatMap fun i =>
        binSample (sample call.data call.size i) := by
    rw [Markers.stream, PrintCall.payloads, List.flatMap_map]
    rfl
  rcases Nat.eq_zero_or_pos (call.config.nsample / call.config.nbatch).toNat with hzero | hpos
  · rw [hframes, hzero]
    simp only [mlifioToStdout]
    rw [Prog.bind_done (Prog.run_div h.nbatch_ne _), hzero]
    simp [binLoop]
  · have hsize := Nat.lt_of_le_of_lt (Nat.le_mul_of_pos_left call.size hpos) h.object
    rw [run_toStdout_bin h.nbatch_ne h.object hsize, hframes]
    rfl

/-- Calls print the frames of their samples. -/
theorem run_printCalls_bin (h : ∀ call ∈ calls, call.Sound) (out : Bytes) :
    (printCalls .bin calls).run out = (.done (List.replicate calls.length .success),
      out ++ sampleMarkers.stream (calls.flatMap PrintCall.payloads)) := by
  rw [run_printCalls fun call hcall => run_bin_frames (h call hcall), Markers.stream,
    List.flatMap_assoc]
  rfl

/-- Calls that print the same print the same samples, when no sample can be mistaken. -/
theorem printCalls_bin_inj (h : ∀ call ∈ calls, call.Sound) (h' : ∀ call ∈ calls', call.Sound)
    (hpayloads : ∀ payload ∈ calls.flatMap PrintCall.payloads, Unmistakable payload)
    (hpayloads' : ∀ payload ∈ calls'.flatMap PrintCall.payloads, Unmistakable payload)
    (hout : ((printCalls .bin calls).run []).2 = ((printCalls .bin calls').run []).2) :
    calls.flatMap PrintCall.payloads = calls'.flatMap PrintCall.payloads := by
  rw [run_printCalls_bin h, run_printCalls_bin h', List.nil_append, List.nil_append] at hout
  exact Markers.stream_inj (fun payload hp => (hpayloads payload hp).seamless)
    (fun payload hp => (hpayloads' payload hp).seamless) hout

/-- The call for one sample. -/
def sampleCall (payload : Bytes) : PrintCall where
  config := ⟨1, 1, [UInt64.ofNat payload.length], 0, 0, .raw, .cOrder⟩
  data := Memory.store (fun _ => 0) payload
  ibatch := 0

theorem sampleCall_per (payload : Bytes) :
    ((sampleCall payload).config.nsample / (sampleCall payload).config.nbatch).toNat = 1 := by
  show ((1 : UInt64) / 1).toNat = 1
  decide

theorem sampleCall_size {payload : Bytes} (h : payload.length < 2 ^ 64) :
    (sampleCall payload).size = payload.length := by
  have hlength : (UInt64.ofNat payload.length).toNat = payload.length := by
    rw [UInt64.toNat_ofNat', Nat.mod_eq_of_lt h]
  simp [PrintCall.size, sampleCall, sampleBytes, MlifDatatype.size, hlength]

theorem sound_sampleCall {payload : Bytes} (h : payload.length < 2 ^ 64) :
    (sampleCall payload).Sound := by
  refine ⟨show (1 : UInt64) ≠ 0 by decide, ?_⟩
  rw [sampleCall_size h, sampleCall_per]
  exact (Nat.one_mul _).trans_lt h

theorem payloads_sampleCall {payload : Bytes} (h : payload.length < 2 ^ 64) :
    (sampleCall payload).payloads = [payload] := by
  have hdata : (sampleCall payload).data.drop (0 * (sampleCall payload).size) =
      Memory.store (fun _ => 0) payload := by
    funext j
    simp [Memory.drop, sampleCall]
  rw [PrintCall.payloads, sampleCall_per, List.range_one, List.map_singleton, sample, hdata,
    sampleCall_size h, Memory.load_store]

/-- What the calls for samples print, one call for each. -/
def printed (payloads : List Bytes) : Bytes :=
  ((printCalls .bin (payloads.map sampleCall)).run []).2

theorem printed_eq {payloads : List Bytes} (h : ∀ payload ∈ payloads, payload.length < 2 ^ 64) :
    printed payloads = sampleMarkers.stream payloads := by
  have hsound : ∀ call ∈ payloads.map sampleCall, call.Sound := by
    intro call hcall
    obtain ⟨payload, hpayload, rfl⟩ := List.mem_map.mp hcall
    exact sound_sampleCall (h payload hpayload)
  have hpayloads : (payloads.map sampleCall).flatMap PrintCall.payloads = payloads := by
    rw [List.flatMap_map, List.flatMap_congr fun payload hp => payloads_sampleCall (h payload hp)]
    exact List.flatMap_singleton' payloads
  rw [printed, run_printCalls_bin hsound, hpayloads, List.nil_append]

/-- A call for two samples, and a call for each of them. -/
theorem printCalls_bin_inj_pair :
    [PrintCall.mk ⟨1, 2, [1], 0, 0, .uint8, .cOrder⟩ (Memory.store (fun _ => 0) [65, 66]) 0].flatMap
      PrintCall.payloads = [sampleCall [65], sampleCall [66]].flatMap PrintCall.payloads :=
  printCalls_bin_inj (by simpa using ⟨by decide, by decide⟩)
    (by simpa using ⟨sound_sampleCall (by decide), sound_sampleCall (by decide)⟩)
    (by decide) (by decide) (by decide)

/-- A sample that contains the markers is printed as two samples are, and so is one that ends just
before the last byte of the markers. -/
theorem printed_eq_of_markers :
    printed [ascii "a-!--?-b"] = printed [ascii "a", ascii "b"] ∧
      printed [ascii "-!--?", []] = printed [[], ascii "!--?-"] := by
  refine ⟨?_, ?_⟩
  · rw [printed_eq (by decide), printed_eq (by decide)]
    exact Markers.stream_split (ascii "a") (ascii "b")
  · rw [printed_eq (by decide), printed_eq (by decide)]
    rfl

end

end Mlonmcu.Mlifio
