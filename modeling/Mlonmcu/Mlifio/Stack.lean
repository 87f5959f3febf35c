import Mlonmcu.Mlifio.Calls

/-! How the result of `mlifio_from_file` depends on the byte of the array `dtype` that it does not
store to before it compares the array as a string. -/

namespace Mlonmcu.Mlifio

open CLib

/-- A run of `p` that returns is matched by one of `q` with the same status, configuration, and
data. -/
def EndsAs (p q : Prog Loading MlifIoStatus) (s : Loading) : Prop :=
  ∀ status s', p.run s = (.done status, s') →
    ∃ t', q.run s = (.done status, t') ∧ t'.config = s'.config ∧ t'.data = s'.data

/-- The results of a call are the same with both contents of the array. -/
def SameResults {Path : Type} (charSigned : Bool) (stack stack' : Vector UInt8 3)
    (fs : FileSystem Path) (path : Path) (idx : UInt64) (s : Loading) : Prop :=
  ∀ fuel,
    EndsAs (mlifioFromFile charSigned stack fuel fs .npy path idx)
      (mlifioFromFile charSigned stack' fuel fs .npy path idx) s ∧
    EndsAs (mlifioFromFile charSigned stack' fuel fs .npy path idx)
      (mlifioFromFile charSigned stack fuel fs .npy path idx) s

/-- A third character makes the type tag an unknown one. -/
theorem datatypeOf_third (a b : UInt8) {c : UInt8} (hc : c ≠ 0) : datatypeOf [a, b, c] = .raw := by
  have hlength : (cString [a, b, c]).length ≠ 2 := by
    simp only [cString, List.takeWhile_cons, List.takeWhile_nil]
    by_cases ha : a = 0 <;> by_cases hb : b = 0 <;> simp [ha, hb, hc]
  have hne : ∀ tag : Bytes, tag.length = 2 → cString [a, b, c] ≠ tag := by
    rintro tag htag rfl
    exact hlength htag
  simp only [datatypeOf, if_neg (hne _ (show (ascii "i1").length = 2 by decide)),
    if_neg (hne _ (show (ascii "i2").length = 2 by decide)),
    if_neg (hne _ (show (ascii "i4").length = 2 by decide)),
    if_neg (hne _ (show (ascii "u1").length = 2 by decide)),
    if_neg (hne _ (show (ascii "u2").length = 2 by decide)),
    if_neg (hne _ (show (ascii "u4").length = 2 by decide)),
    if_neg (hne _ (show (ascii "f4").length = 2 by decide))]

section

variable {c : MlifDataConfig} {payload : Bytes} {charSigned : Bool} {stack stack' : Vector UInt8 3}

theorem fileHeader_third (charSigned : Bool) (hstack : stack.get 2 ≠ 0) (bytes : Bytes) :
    (fileHeader charSigned stack bytes).dtype = .raw :=
  datatypeOf_third _ _ hstack

/-- The contents of the stack only decide the type. -/
theorem fileHeader_congr {bytes : Bytes} (hdtype : (fileHeader charSigned stack bytes).dtype =
    (fileHeader charSigned stack' bytes).dtype) :
    fileHeader charSigned stack bytes = fileHeader charSigned stack' bytes := by
  rw [fileHeader, fileHeader, Header.mk.injEq]
  exact ⟨rfl, hdtype, rfl⟩

/-- The type that is read from a written file. -/
theorem dtype_headerText (c : MlifDataConfig) (payload : Bytes) (charSigned : Bool)
    (stack : Vector UInt8 3) :
    (fileHeader charSigned stack (c.headerText ++ payload)).dtype =
      if stack.get 2 = 0 then c.dtype else .raw := by
  split
  next hzero =>
    have hrest : ∃ rest, c.headerText ++ payload = magicString ++
        littleEndian16 (UInt16.ofNat (npyHeaderSize - 10)) ++ c.dictionary ++ rest := by
      simp only [MlifDataConfig.headerText, List.append_assoc]
      exact ⟨_, rfl⟩
    obtain ⟨rest, hrest⟩ := hrest
    rw [hrest, MlifDataConfig.dictionary, fileHeader_npy _ _ _ _ _ _ charSigned hzero]
  next hne => exact fileHeader_third charSigned hne _

theorem length_headerText (c : MlifDataConfig) : 45 ≤ c.headerText.length := by
  have hdictionary : c.dictionary.length = 50 + c.order.text.length +
      (between (ascii ", ") c.extents).length := length_dictionary 60 c.dtype c.order c.extents
  rw [MlifDataConfig.headerText, List.length_append, List.length_append, List.length_append,
    hdictionary]
  omega

/-- The calls agree when the byte is a NUL in both contents or in neither. -/
theorem fromFile_congr {Path : Type} {fs : FileSystem Path} {path : Path}
    (hfile : fs path = some (c.headerText ++ payload))
    (hstack : stack.get 2 = 0 ↔ stack'.get 2 = 0) (fuel : Nat) (idx : UInt64) :
    mlifioFromFile charSigned stack fuel fs .npy path idx =
      mlifioFromFile charSigned stack' fuel fs .npy path idx := by
  have hlength : 45 ≤ (c.headerText ++ payload).length := by
    have := length_headerText c
    rw [List.length_append]
    omega
  have hheader : fileHeader charSigned stack (c.headerText ++ payload) =
      fileHeader charSigned stack' (c.headerText ++ payload) := by
    have hdtype : (fileHeader charSigned stack (c.headerText ++ payload)).dtype =
        (fileHeader charSigned stack' (c.headerText ++ payload)).dtype := by
      simp only [dtype_headerText, hstack]
    exact fileHeader_congr hdtype
  rw [run_npy_some hfile, run_npy_some hfile, fromNpy, fromNpy, readHeader_eq hlength,
    readHeader_eq hlength, hheader]

/-- The results are the same exactly when the byte is a NUL in both contents or in neither, or the
counts of the file cannot be read, so that no call returns. -/
theorem sameResults_iff {Path : Type} {fs : FileSystem Path} {path : Path}
    (hfile : fs path = some (c.headerText ++ payload)) (hdtype : c.dtype ≠ .raw) (idx : UInt64)
    (s : Loading) : SameResults charSigned stack stack' fs path idx s ↔
      (stack.get 2 = 0 ↔ stack'.get 2 = 0) ∨
        ¬ ∃ first second, Counted (c.headerText ++ payload) first second := by
  constructor
  · intro hsame
    by_cases hcounted : ∃ first second, Counted (c.headerText ++ payload) first second
    · obtain ⟨first, second, h⟩ := hcounted
      let fuel := first.length + second.length + 1
      have hrun : ∀ stack, (mlifioFromFile charSigned stack fuel fs .npy path idx).run s =
          (.done .success, loading (fileHeader charSigned stack (c.headerText ++ payload))
            (c.headerText ++ payload) first second idx s) := by
        intro stack
        rw [run_npy_some hfile]
        exact run_fromNpy h (by omega) (by omega) idx s
      obtain ⟨t', hrun', hconfig, -⟩ := (hsame fuel).1 _ _ (hrun stack)
      rw [hrun stack'] at hrun'
      obtain rfl := (Prod.mk.inj hrun').2
      have hread := congrArg MlifDataConfig.dtype hconfig
      simp only [loading, headerConfig, dtype_headerText] at hread
      left
      by_cases hzero : stack.get 2 = 0 <;> by_cases hzero' : stack'.get 2 = 0 <;>
        simp [hzero, hzero', hdtype, Ne.symm hdtype] at hread ⊢
    · exact .inr hcounted
  · rintro (hstack | hcounted) fuel
    · rw [fromFile_congr hfile hstack]
      exact ⟨fun _ s' hrun => ⟨s', hrun, rfl, rfl⟩, fun _ s' hrun => ⟨s', hrun, rfl, rfl⟩⟩
    · have hends : ∀ stack status s',
          (mlifioFromFile charSigned stack fuel fs .npy path idx).run s ≠ (.done status, s') := by
        intro stack status s' hrun
        rw [run_npy_some hfile] at hrun
        obtain ⟨first, second, h, -⟩ := counted_of_fromNpy hrun
        exact hcounted ⟨first, second, h⟩
      exact ⟨fun _ _ hrun => absurd hrun (hends _ _ _), fun _ _ hrun => absurd hrun (hends _ _ _)⟩

end

/-! ### Written files -/

section

variable {Path : Type} [DecidableEq Path] {fs fs' : FileSystem Path} {path : Path} {call : Call}
  {calls : List Call}

/-- Of a file that calls have written, the results do not depend on the array exactly when its last
byte is a NUL in both contents or in neither, or the counts cannot be read. -/
theorem writeCalls_sameResults_iff (hnbatch : ∀ later ∈ call :: calls, later.config.nbatch ≠ 0)
    (hdtype : call.config.dtype ≠ .raw) (hfile : fs path = none) {statuses : List MlifIoStatus}
    (hrun : (writeCalls .npy path (call :: calls)).run fs = (.done statuses, fs'))
    (charSigned : Bool) (stack stack' : Vector UInt8 3) (idx : UInt64) (s : Loading) :
    SameResults charSigned stack stack' fs' path idx s ↔
      (stack.get 2 = 0 ↔ stack'.get 2 = 0) ∨
        ¬ ∃ bytes first second, fs' path = some bytes ∧ Counted bytes first second := by
  rw [run_writeCalls_npy hnbatch hfile] at hrun
  obtain rfl := (Prod.mk.inj hrun).2
  have hbytes := Function.update_self path
    (some (call.config.headerText ++ (call :: calls).flatMap Call.written)) fs
  rw [sameResults_iff hbytes hdtype]
  simp only [hbytes, Option.some.injEq, exists_and_left, exists_eq_left']

def byteCall : Call := ⟨⟨1, 1, [1], 0, 0, .uint8, .cOrder⟩, fun _ => 42⟩

def byteFile : FileSystem Unit :=
  Function.update (fun _ => none) ()
    (some (byteCall.config.headerText ++ [byteCall].flatMap Call.written))

theorem run_byteCall :
    (writeCalls .npy () [byteCall]).run (fun _ => none) = (.done [.success], byteFile) :=
  run_writeCalls_npy (List.forall_mem_singleton.mpr (by decide)) rfl

theorem writeCalls_sameResults_byte :
    SameResults true (Vector.replicate 3 0) (#v[1, 2, 0]) byteFile () 0
      ⟨byteCall.config, fun _ => 0, ⟨0, 0⟩⟩ :=
  (writeCalls_sameResults_iff (List.forall_mem_singleton.mpr (by decide)) (by decide) rfl
    run_byteCall true _ _ 0 _).mpr (.inl (by decide))

theorem writeCalls_not_sameResults_byte :
    (writeCalls .npy () [byteCall]).run (fun _ => none) = (.done [.success], byteFile) ∧
      ¬ SameResults true (Vector.replicate 3 0) (#v[0, 0, 1]) byteFile () 0
        ⟨byteCall.config, fun _ => 0, ⟨0, 0⟩⟩ := by
  refine ⟨run_byteCall, fun hsame => ?_⟩
  have hcounted : Counted (byteCall.config.headerText ++ [byteCall].flatMap Call.written)
      (decimal 1) (decimal 1 ++ afterSecond [1]) := by
    rw [headerText_eq (by decide), MlifDataConfig.header, headerBytes, List.append_assoc,
      List.append_assoc]
    exact counted_npy _ 60 .uint8 (by decide) (by decide) (by decide) [1] _
  rcases (sameResults_iff (Function.update_self ..) (by decide) 0 _).mp hsame with hstack | hnone
  · revert hstack
    decide
  · exact hnone ⟨_, _, hcounted⟩

end

end Mlonmcu.Mlifio
