import Mlonmcu.CLib.Bytes
import Mlonmcu.CLib.Words

/-! Decimal numbers: the digits that `printf` writes and the value that `atoi` reads. -/

namespace CLib

def isDigit (c : UInt8) : Bool := 48 ≤ c.toNat && c.toNat ≤ 57

def decimal (n : Nat) : Bytes := (Nat.toDigits 10 n).map fun c => UInt8.ofNat c.toNat

/-- The value of a string of digits. -/
def digitsValue (digits : Bytes) : Nat := digits.foldl (fun v c => 10 * v + (c.toNat - 48)) 0

def isSpace (c : UInt8) : Bool := c = 32 || (9 ≤ c.toNat && c.toNat ≤ 13)

/-- `%d` of an `int`. -/
def signedDecimal (n : Int32) : Bytes :=
  if n < 0 then 45 :: decimal n.toInt.natAbs else decimal n.toInt.natAbs

/-- The optional sign of a number, and what follows it. -/
def splitSign : Bytes → Bool × Bytes
  | 43 :: rest => (false, rest)
  | 45 :: rest => (true, rest)
  | rest => (false, rest)

/-- `strtol` in base 10: blanks, an optional sign, and digits, clamped to a `long`. -/
def strtol (text : Bytes) : Int :=
  let (negative, rest) := splitSign (text.dropWhile isSpace)
  let value : Int := digitsValue (rest.takeWhile isDigit)
  max (-2 ^ 63) (min (if negative then -value else value) (2 ^ 63 - 1))

/-- `atoi`, which converts the `long` of `strtol` to an `int`. -/
def atoi (text : Bytes) : Int32 := Int32.ofInt (strtol text)

/-- The last digit of a number comes after the digits of its tenth. -/
theorem decimal_rec (n : Nat) :
    decimal n = (if n < 10 then [] else decimal (n / 10)) ++ [UInt8.ofNat (48 + n % 10)] := by
  have digit : ∀ d < 10, UInt8.ofNat (Nat.digitChar d).toNat = UInt8.ofNat (48 + d) := by decide
  unfold decimal
  rw [Nat.toDigits_eq_if (by decide)]
  split
  next h => simp [digit n h, Nat.mod_eq_of_lt h]
  next h => simp [digit (n % 10) (Nat.mod_lt _ (by decide))]

theorem digit_toNat {d : Nat} (h : d < 10) : (UInt8.ofNat (48 + d)).toNat = 48 + d := by
  rw [UInt8.toNat_ofNat', Nat.mod_eq_of_lt (by omega)]

theorem decimal_ne_nil (n : Nat) : decimal n ≠ [] := by
  rw [decimal_rec]
  simp

theorem isDigit_of_mem_decimal {n : Nat} {c : UInt8} (h : c ∈ decimal n) : isDigit c = true := by
  induction n using Nat.strong_induction_on with
  | _ n ih =>
    rw [decimal_rec, List.mem_append] at h
    rcases h with h | h
    · split at h
      · simp at h
      · exact ih (n / 10) (by omega) h
    · obtain rfl := List.mem_singleton.mp h
      simp [isDigit]
      omega

theorem digitsValue_append (digits : Bytes) (c : UInt8) :
    digitsValue (digits ++ [c]) = 10 * digitsValue digits + (c.toNat - 48) := by
  simp [digitsValue, List.foldl_append]

theorem digitsValue_decimal (n : Nat) : digitsValue (decimal n) = n := by
  induction n using Nat.strong_induction_on with
  | _ n ih =>
    rw [decimal_rec, digitsValue_append, digit_toNat (Nat.mod_lt n (by decide))]
    split
    · simp [digitsValue]
      omega
    · rw [ih (n / 10) (by omega)]
      omega

theorem digitsValue_lt {digits : Bytes} (h : ∀ c ∈ digits, isDigit c = true) :
    digitsValue digits < 10 ^ digits.length := by
  induction digits using List.reverseRecOn with
  | nil => simp [digitsValue]
  | append_singleton digits c ih =>
    have hc := h c (by simp)
    have hlt := ih fun d hd => h d (by simp [hd])
    simp [isDigit] at hc
    rw [digitsValue_append, List.length_append, List.length_singleton, pow_succ]
    omega

theorem decimal_length_le {n k : Nat} (hk : 0 < k) (h : n < 10 ^ k) : (decimal n).length ≤ k := by
  induction k generalizing n with
  | zero => omega
  | succ k ih =>
    rw [decimal_rec, List.length_append, List.length_singleton]
    split
    · simp
    · rw [pow_succ] at h
      have hk' : 0 < k := by
        by_contra hz
        obtain rfl : k = 0 := by omega
        omega
      have := ih hk' (show n / 10 < 10 ^ k by omega)
      omega

theorem ten_pow_le {n k : Nat} (hn : 0 < n) (hk : k < (decimal n).length) : 10 ^ k ≤ n := by
  induction k generalizing n with
  | zero => exact hn
  | succ k ih =>
    rw [decimal_rec, List.length_append, List.length_singleton] at hk
    split at hk
    · simp at hk
    · have := ih (show 0 < n / 10 by omega) (by omega)
      rw [pow_succ]
      omega

theorem digitsValue_lt_of_length_lt {digits : Bytes} {n : Nat}
    (hd : ∀ c ∈ digits, isDigit c = true) (hn : 0 < n)
    (h : digits.length < (decimal n).length) : digitsValue digits < n :=
  Nat.lt_of_lt_of_le (digitsValue_lt hd) (ten_pow_le hn h)

theorem isSpace_of_isDigit {c : UInt8} (h : isDigit c = true) : isSpace c = false := by
  simp [isDigit] at h
  simp [isSpace, ← UInt8.toNat_inj]
  omega

theorem splitSign_of_isDigit {c : UInt8} (h : isDigit c = true) (rest : Bytes) :
    splitSign (c :: rest) = (false, c :: rest) := by
  simp [isDigit] at h
  unfold splitSign
  split
  · simp_all
  · simp_all
  · rfl

theorem strtol_digits {digits rest : Bytes} (hd : ∀ c ∈ digits, isDigit c = true)
    (hr : ∀ c ∈ rest.head?, isDigit c = false) (hne : digits = [] → rest = [])
    (hlt : digitsValue digits < 2 ^ 63) : strtol (digits ++ rest) = digitsValue digits := by
  have hall : (digits ++ rest).takeWhile isDigit = digits := by
    rw [List.takeWhile_append_of_pos hd]
    cases rest with
    | nil => simp
    | cons c rest => simp [hr c (by simp)]
  cases digits with
  | nil =>
    obtain rfl := hne rfl
    rfl
  | cons c digits =>
    have hc := hd c (by simp)
    rw [List.cons_append] at hall ⊢
    simp only [strtol, List.dropWhile_cons, isSpace_of_isDigit hc, Bool.false_eq_true, ↓reduceIte,
      splitSign_of_isDigit hc, hall]
    omega

theorem atoi_digits {digits rest : Bytes} (hd : ∀ c ∈ digits, isDigit c = true)
    (hr : ∀ c ∈ rest.head?, isDigit c = false) (hne : digits = [] → rest = [])
    (hlt : digitsValue digits < 2 ^ 31) : (atoi (digits ++ rest)).toInt = digitsValue digits := by
  rw [atoi, strtol_digits hd hr hne (by omega), Int32.toInt_ofInt_of_le (by omega) (by omega)]

end CLib
