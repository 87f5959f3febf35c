import Mlonmcu.Mlifio.Writer

/-! When the header of a new `.npy` file is consistent with itself: its length is a constant, and
its text must fit. -/

namespace Mlonmcu.Mlifio

open CLib

/-- The header of a file announces its own length: the announced bytes are the dictionary of the
configuration, blanks, and a newline, they end at a multiple of 64, and the payload follows. -/
structure SelfConsistent (c : MlifDataConfig) (bytes payload : Bytes) : Prop where
  complete : 10 + headerLength bytes ≤ bytes.length
  text : ∃ blanks, (bytes.drop 10).take (headerLength bytes) =
    c.dictionary ++ List.replicate blanks 32 ++ [10]
  aligned : 64 ∣ 10 + headerLength bytes
  payload : bytes.drop (10 + headerLength bytes) = payload

section

variable (c : MlifDataConfig) (payload : Bytes)

theorem headerText_pieces : ∃ blanks, c.headerText = magicString ++
    littleEndian16 (UInt16.ofNat (npyHeaderSize - 10)) ++ c.dictionary ++
      32 :: (List.replicate blanks 32 ++ [10]) := by
  have hblank : ascii " " = [32] := rfl
  have hpadding : ∀ width, ∃ blanks, padded width [32] = 32 :: List.replicate blanks 32 := by
    intro width
    obtain ⟨blanks, hblanks⟩ : ∃ blanks, max 1 width.toInt.natAbs = blanks + 1 :=
      ⟨max 1 width.toInt.natAbs - 1, by omega⟩
    rw [padded_blank, hblanks]
    exact ⟨blanks, List.replicate_succ⟩
  rw [MlifDataConfig.headerText, hblank]
  obtain ⟨blanks, hblanks⟩ := hpadding _
  exact ⟨blanks, by rw [hblanks, List.append_assoc]; rfl⟩

theorem headerLength_text : headerLength (c.headerText ++ payload) = 118 := by
  obtain ⟨blanks, htext⟩ := headerText_pieces c
  rw [htext, List.append_assoc, List.append_assoc]
  exact headerLength_npy (UInt16.ofNat (npyHeaderSize - 10)) _

theorem drop_headerText : ∃ blanks, (c.headerText ++ payload).drop 10 =
    c.dictionary ++ 32 :: (List.replicate blanks 32 ++ [10] ++ payload) := by
  obtain ⟨blanks, htext⟩ := headerText_pieces c
  refine ⟨blanks, ?_⟩
  rw [htext, List.append_assoc, List.append_assoc]
  simp only [List.append_assoc, List.cons_append]
  rfl

variable {c payload}

/-- After a dictionary of 117 characters the announced bytes end with a blank, and after a longer
one within the dictionary. -/
theorem SelfConsistent.fits (h : SelfConsistent c (c.headerText ++ payload) payload) :
    10 + c.dictionary.length + 2 ≤ npyHeaderSize := by
  obtain ⟨blanks, htext⟩ := h.text
  obtain ⟨blanks', hdrop⟩ := drop_headerText c payload
  rw [headerLength_text, hdrop] at htext
  have hlength := congrArg List.length htext
  simp only [List.length_take, List.length_append, List.length_replicate, List.length_singleton]
    at hlength
  have hlast : c.dictionary.length ≠ 117 := by
    intro hlong
    obtain rfl : blanks = 0 := by omega
    have hbyte := congrArg (fun bytes => bytes[117]?) htext
    simp [hlong] at hbyte
  simp only [npyHeaderSize]
  omega

theorem selfConsistent_of_fits (hfits : 10 + c.dictionary.length + 2 ≤ npyHeaderSize) :
    SelfConsistent c (c.headerText ++ payload) payload := by
  have hlength : c.header.length = 10 + 118 :=
    length_headerBytes (by simp only [npyHeaderSize] at hfits ⊢; simp; omega)
  have hdrop : c.header.drop 10 =
      c.dictionary ++ List.replicate (118 - (c.dictionary.length + 1)) 32 ++ [10] := by
    simp only [MlifDataConfig.header, headerBytes, List.append_assoc]
    rfl
  have htake : c.header.length - 10 = 118 := by omega
  constructor
  · rw [headerLength_text, headerText_eq hfits, List.length_append, hlength]
    omega
  · refine ⟨118 - (c.dictionary.length + 1), ?_⟩
    rw [headerLength_text, headerText_eq hfits, List.drop_append_of_le_length (by omega),
      List.take_left' (by rw [List.length_drop, htake]), hdrop]
  · rw [headerLength_text]
    decide
  · rw [headerLength_text, headerText_eq hfits, List.drop_left' hlength]

end

section

variable {Path : Type} [DecidableEq Path]

/-- The first call for a path makes a file with such a header. -/
def WritesSelfConsistent (fs : FileSystem Path) (path : Path) (c : MlifDataConfig)
    (data : Memory) : Prop :=
  ∃ fs' bytes, (mlifioToFile .npy path (some c) (some data)).run fs = (.done .success, fs') ∧
    fs' path = some bytes ∧ SelfConsistent c bytes (data.load c.writtenBytes)

variable {fs : FileSystem Path} {path : Path} {c : MlifDataConfig}

theorem writesSelfConsistent_iff (hnbatch : c.nbatch ≠ 0) (data : Memory)
    (hfile : fs path = none) : WritesSelfConsistent fs path c data ↔
      SelfConsistent c (c.headerText ++ data.load c.writtenBytes) (data.load c.writtenBytes) := by
  rw [WritesSelfConsistent, run_create_text hnbatch data hfile]
  constructor
  · rintro ⟨fs', bytes, hrun, hbytes, hheader⟩
    obtain rfl := (Prod.mk.inj hrun).2
    rw [Function.update_self, Option.some.injEq] at hbytes
    rwa [hbytes]
  · exact fun hheader => ⟨_, _, rfl, Function.update_self .., hheader⟩

/-- The header is consistent exactly when its text, from the magic string to the newline, fits
`NPY_HEADER_SIZE` bytes with a blank. -/
theorem mlifioToFile_selfConsistent_iff (hnbatch : c.nbatch ≠ 0) (data : Memory)
    (hfile : fs path = none) : WritesSelfConsistent fs path c data ↔
      10 + c.dictionary.length + 2 ≤ npyHeaderSize := by
  rw [writesSelfConsistent_iff hnbatch data hfile]
  exact ⟨SelfConsistent.fits, selfConsistent_of_fits⟩

theorem mlifioToFile_selfConsistent_raw :
    WritesSelfConsistent (fun _ : Unit => none) () ⟨2, 6, [5], 0, 0, .raw, .fortranOrder⟩
      fun _ => 0 :=
  (mlifioToFile_selfConsistent_iff (by decide) _ rfl).mpr (by decide)

/-- Samples of rank 20. -/
def longConfig : MlifDataConfig := ⟨1, 1, List.replicate 20 1, 0, 0, .uint8, .cOrder⟩

theorem mlifioToFile_not_selfConsistent :
    ¬ WritesSelfConsistent (fun _ : Unit => none) () longConfig fun _ => 0 := by
  intro hheader
  have hfits := ((writesSelfConsistent_iff (by decide) _ rfl).mp hheader).fits
  revert hfits
  decide +kernel

end

end Mlonmcu.Mlifio
