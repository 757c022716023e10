import Lsmkv.Coding
import Mathlib.Data.FinEnum
import Mathlib.Data.Nat.Digits.Lemmas

/-!
# Numbers and names on the wire

The pieces of the standard library that the protocol uses: decimal numbers, written by `to_string`
and read by `str::parse`, and the names of commands, decoded by `String::from_utf8_lossy` and
upper-cased by `str::to_uppercase`.

The upper case of a character, which the library takes from the tables of Unicode, is a parameter
`upper`: nothing here depends on it.

`integer_decimal` says that a length that was written is the length that is read.
-/

namespace Lsmkv.Server

/-! ### Decimal numbers -/

/-- `to_string` of a `usize`. -/
def decimal (n : ℕ) : Bytes :=
  if n = 0 then [0x30] else (Nat.digits 10 n).reverse.map fun digit => UInt8.ofNat (0x30 + digit)

/-- `to_string` of an `i64`. -/
def decimalInt (z : ℤ) : Bytes := if z < 0 then 0x2D :: decimal z.natAbs else decimal z.natAbs

/-- The digits of a number, without a sign. -/
def natural (digits : Bytes) : Option ℕ :=
  if digits ≠ [] ∧ ∀ b ∈ digits, 0x30 ≤ b ∧ b ≤ 0x39 then
    some (digits.foldl (fun value b => value * 10 + (b.toNat - 0x30)) 0)
  else none

/-- `i64::MAX + 1`. -/
def i64Limit : ℕ := 2 ^ 63

/-- `integer`, the `str::parse` of an `i64`: an optional sign, one or more digits, and a value in
range.  Bytes that are not UTF-8 hold something that is neither sign nor digit. -/
def integer : Bytes → Option ℤ
  | [] => none
  | b :: digits =>
    if b = 0x2D then
      (natural digits).bind fun n => if n ≤ i64Limit then some (-n : ℤ) else none
    else
      (natural (if b = 0x2B then digits else b :: digits)).bind fun n =>
        if n < i64Limit then some (n : ℤ) else none

theorem toNat_digit {digit : ℕ} (h : digit < 10) :
    (UInt8.ofNat (0x30 + digit)).toNat = 0x30 + digit :=
  UInt8.toNat_ofNat_of_lt' (by norm_num [UInt8.size]; omega)

/-- A decimal number is one or more digits. -/
theorem decimal_digits (n : ℕ) : decimal n ≠ [] ∧ ∀ b ∈ decimal n, 0x30 ≤ b ∧ b ≤ 0x39 := by
  unfold decimal
  split_ifs with hzero
  · refine ⟨List.cons_ne_nil _ _, fun b hb => ?_⟩
    rw [List.mem_singleton.mp hb]
    decide
  · refine ⟨by simp [Nat.digits_eq_nil_iff_eq_zero, hzero], fun b hb => ?_⟩
    obtain ⟨digit, hdigit, rfl⟩ := List.mem_map.mp hb
    have hlt := Nat.digits_lt_base (by norm_num : 1 < 10) (List.mem_reverse.mp hdigit)
    rw [UInt8.le_iff_toNat_le, UInt8.le_iff_toNat_le, toNat_digit hlt]
    change 0x30 ≤ 0x30 + digit ∧ 0x30 + digit ≤ 0x39
    omega

/-- The value of digits that stand in order is the value of the number they were taken from. -/
theorem foldl_digits (digits : List ℕ) (h : ∀ digit ∈ digits, digit < 10) :
    (digits.reverse.map fun digit => UInt8.ofNat (0x30 + digit)).foldl
      (fun value b => value * 10 + (b.toNat - 0x30)) 0 = Nat.ofDigits 10 digits := by
  induction digits with
  | nil => rfl
  | cons digit digits ih =>
    obtain ⟨hdigit, hrest⟩ := List.forall_mem_cons.mp h
    rw [List.reverse_cons, List.map_append, List.foldl_append, ih hrest, Nat.ofDigits_cons,
      List.map_singleton, List.foldl_cons, List.foldl_nil, toNat_digit hdigit]
    omega

theorem natural_decimal (n : ℕ) : natural (decimal n) = some n := by
  rw [natural, if_pos (decimal_digits n)]
  unfold decimal
  split_ifs with hzero
  · rw [hzero]
    rfl
  · rw [foldl_digits _ fun digit => Nat.digits_lt_base (by norm_num), Nat.ofDigits_digits]

/-- **A number that was written is read back.** -/
theorem integer_decimal {n : ℕ} (h : n < i64Limit) : integer (decimal n) = some (n : ℤ) := by
  obtain ⟨hne, hdigits⟩ := decimal_digits n
  have hvalue := natural_decimal n
  cases hdecimal : decimal n with
  | nil => exact absurd hdecimal hne
  | cons b digits =>
    rw [hdecimal] at hdigits hvalue
    have hb := (hdigits b List.mem_cons_self).1
    have hminus : b ≠ 0x2D := by
      rintro rfl
      exact absurd hb (by decide)
    have hplus : b ≠ 0x2B := by
      rintro rfl
      exact absurd hb (by decide)
    rw [integer, if_neg hminus, if_neg hplus, hvalue, Option.bind_some, if_pos h]

example : integer [0x2D, 0x31] = some (-1) := by decide +kernel

/-! ### Names -/

/-- `char::REPLACEMENT_CHARACTER`. -/
def replacement : Char := Char.ofNat 0xFFFD

/-- `utf8_char_width`: the length a first byte announces, zero if it cannot be one. -/
def charWidth (first : UInt8) : ℕ :=
  if first < 0x80 then 1
  else if 0xC2 ≤ first ∧ first ≤ 0xDF then 2
  else if 0xE0 ≤ first ∧ first ≤ 0xEF then 3
  else if 0xF0 ≤ first ∧ first ≤ 0xF4 then 4
  else 0

/-- Whether the second byte of a character may follow the first.  This leaves out overlong forms,
surrogates and what is past the last character. -/
def secondOk (first second : UInt8) : Bool :=
  if first = 0xE0 then 0xA0 ≤ second && second ≤ 0xBF
  else if first = 0xED then 0x80 ≤ second && second ≤ 0x9F
  else if first = 0xF0 then 0x90 ≤ second && second ≤ 0xBF
  else if first = 0xF4 then 0x80 ≤ second && second ≤ 0x8F
  else 0x80 ≤ second && second ≤ 0xBF

/-- Takes so many continuation bytes, or those that are there. -/
def takeTail : ℕ → ℕ → Bytes → Option ℕ × Bytes
  | 0, code, rest => (some code, rest)
  | _ + 1, _, [] => (none, [])
  | n + 1, code, b :: rest =>
    if 0x80 ≤ b ∧ b ≤ 0xBF then takeTail n (code * 64 + (b.toNat - 0x80)) rest else
      (none, b :: rest)

/-- One character, or the replacement character for the longest start of one. -/
def takeChar (first : UInt8) (rest : Bytes) : Char × Bytes :=
  match charWidth first, rest with
  | 0, rest => (replacement, rest)
  | 1, rest => (Char.ofNat first.toNat, rest)
  | _ + 2, [] => (replacement, [])
  | n + 2, second :: rest =>
    if secondOk first second then
      let (code, rest) := takeTail (n + 1) (first.toNat % 2 ^ (5 - n)) (second :: rest)
      ((code.map Char.ofNat).getD replacement, rest)
    else (replacement, second :: rest)

/-- The loop of `from_utf8_lossy`.  Every turn takes a byte, so the length is fuel enough. -/
def lossyChars : ℕ → Bytes → List Char
  | 0, _ => []
  | _ + 1, [] => []
  | fuel + 1, first :: rest =>
    let (c, rest) := takeChar first rest
    c :: lossyChars fuel rest

/-- `String::from_utf8_lossy`. -/
def fromUtf8Lossy (bytes : Bytes) : String := String.ofList (lossyChars bytes.length bytes)

/-- `str::to_uppercase`. -/
def toUppercase (upper : Char → List Char) (text : String) : String :=
  String.ofList (text.toList.flatMap upper)

/-- The name of a command. -/
def commandName (upper : Char → List Char) (bytes : Bytes) : String :=
  toUppercase upper (fromUtf8Lossy bytes)

example : fromUtf8Lossy [0x61, 0xC3, 0xA9, 0xE2, 0x82, 0x41, 0xFF]
    = String.ofList ['a', Char.ofNat 0xE9, replacement, 'A', replacement] := by decide +kernel

end Lsmkv.Server
