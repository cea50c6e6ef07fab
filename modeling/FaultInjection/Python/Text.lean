import Mathlib.Data.List.DropRight
import FaultInjection.Regex.Scan

/-!
# Text

Python strings as lists of characters, the character classes of Python's `re`,
and the string methods and formats that the injector uses.  The Unicode database
behind `\w`, `\s` and `\d` is a parameter; what is fixed is its ASCII part and
how the classes lie in each other.
-/

namespace FaultInjection

/-- The contents of a Python string. -/
abbrev Text := List Char

instance : Coe String Text := ⟨String.toList⟩

/-- The exceptions that end a run; `systemExit` is a call of `exit`. -/
inductive PythonError where
  | systemExit (code : Nat)
  | indexError
  | keyError
  | attributeError
  | typeError
  | valueError
  | patternError
  | recursionError
  deriving DecidableEq, Repr

/-- The character properties of one version of the Unicode database. -/
class UnicodeData where
  isAlnum : Char → Bool
  isSpace : Char → Bool
  isDecimal : Char → Bool
  isPrintable : Char → Bool
  decimalValue : Char → Nat
  alnum_ascii : ∀ c : Char, c.toNat < 128 → isAlnum c = c.isAlphanum
  space_ascii : ∀ c : Char, c.toNat < 128 →
    isSpace c = (c == ' ' || (9 ≤ c.toNat && c.toNat ≤ 13) ||
      (28 ≤ c.toNat && c.toNat ≤ 31))
  decimal_ascii : ∀ c : Char, c.toNat < 128 → isDecimal c = c.isDigit
  printable_ascii : ∀ c : Char, c.toNat < 128 →
    isPrintable c = (32 ≤ c.toNat && c.toNat < 127)
  value_ascii : ∀ c : Char, c.isDigit = true → decimalValue c = c.toNat - 48
  space_of_alnum : ∀ c : Char, isAlnum c = true → isSpace c = false
  alnum_of_decimal : ∀ c : Char, isDecimal c = true → isAlnum c = true
  printable_of_alnum : ∀ c : Char, isAlnum c = true → isPrintable c = true
  printable_of_space : ∀ c : Char, isSpace c = true → isPrintable c = true → c = ' '

/-- ASCII letters and digits lie between the blank and the control character. -/
theorem toNat_of_isAlphanum {c : Char} (halnum : c.isAlphanum = true) :
    48 ≤ c.toNat ∧ c.toNat < 127 := by
  have hbounds : ∀ low high : UInt32, 48 ≤ low.toNat → high.toNat < 127 →
      c.val ≥ low ∧ c.val ≤ high → 48 ≤ c.toNat ∧ c.toNat < 127 := by
    intro low high hlow hhigh hc
    exact ⟨Nat.le_trans hlow (UInt32.le_iff_toNat_le.mp hc.1),
      Nat.lt_of_le_of_lt (UInt32.le_iff_toNat_le.mp hc.2) hhigh⟩
  have hboth : ∀ low high : UInt32, (decide (c.val ≥ low) && decide (c.val ≤ high)) = true →
      c.val ≥ low ∧ c.val ≤ high := by
    intro low high hc
    rwa [Bool.and_eq_true, decide_eq_true_eq, decide_eq_true_eq] at hc
  have hcases : (c.isUpper || c.isLower || c.isDigit) = true := halnum
  rw [Bool.or_eq_true, Bool.or_eq_true] at hcases
  rcases hcases with (hupper | hlower) | hdigit
  · exact hbounds 65 90 (by decide) (by decide) (of_decide_eq_true hupper)
  · exact hbounds 97 122 (by decide) (by decide) (hboth 97 122 hlower)
  · exact hbounds 48 57 (by decide) (by decide) (hboth 48 57 hdigit)

section Ascii

variable (c : Char)

theorem not_space_of_isAlphanum (halnum : c.isAlphanum = true) :
    (c == ' ' || (9 ≤ c.toNat && c.toNat ≤ 13) || (28 ≤ c.toNat && c.toNat ≤ 31)) = false := by
  have hbound := (toNat_of_isAlphanum halnum).1
  have hne : c ≠ ' ' := by
    rintro rfl
    exact absurd hbound (by decide)
  have h13 : ¬ c.toNat ≤ 13 := by omega
  have h31 : ¬ c.toNat ≤ 31 := by omega
  simp [hne, h13, h31]

theorem isAlphanum_of_isDigit (hdigit : c.isDigit = true) : c.isAlphanum = true := by
  rw [Char.isAlphanum, hdigit, Bool.or_true]

theorem printable_of_isAlphanum (halnum : c.isAlphanum = true) :
    (decide (32 ≤ c.toNat) && decide (c.toNat < 127)) = true := by
  obtain ⟨hlow, hhigh⟩ := toNat_of_isAlphanum halnum
  rw [Bool.and_eq_true, decide_eq_true_eq, decide_eq_true_eq]
  exact ⟨Nat.le_trans (by decide) hlow, hhigh⟩

theorem eq_blank_of_printable
    (hspace : (c == ' ' || (9 ≤ c.toNat && c.toNat ≤ 13) ||
      (28 ≤ c.toNat && c.toNat ≤ 31)) = true)
    (hprintable : (decide (32 ≤ c.toNat) && decide (c.toNat < 127)) = true) : c = ' ' := by
  simp only [Bool.or_eq_true, beq_iff_eq, Bool.and_eq_true,
    decide_eq_true_eq] at hspace hprintable
  rcases hspace with (rfl | hspace) | hspace
  · rfl
  · omega
  · omega

end Ascii

/-- The database in which only ASCII characters have a property. -/
@[reducible]
def UnicodeData.ascii : UnicodeData where
  isAlnum := Char.isAlphanum
  isSpace c := c == ' ' || (9 ≤ c.toNat && c.toNat ≤ 13) ||
    (28 ≤ c.toNat && c.toNat ≤ 31)
  isDecimal := Char.isDigit
  isPrintable c := 32 ≤ c.toNat && c.toNat < 127
  decimalValue c := c.toNat - 48
  alnum_ascii _ _ := rfl
  space_ascii _ _ := rfl
  decimal_ascii _ _ := rfl
  printable_ascii _ _ := rfl
  value_ascii _ _ := rfl
  space_of_alnum := not_space_of_isAlphanum
  alnum_of_decimal := isAlphanum_of_isDigit
  printable_of_alnum := printable_of_isAlphanum
  printable_of_space := eq_blank_of_printable

namespace Text

instance lawfulBEq : LawfulBEq Text := inferInstance

variable [UnicodeData]

/-- `\w` -/
def isWord (c : Char) : Bool := UnicodeData.isAlnum c || c == '_'

/-- `\s` -/
def isSpace (c : Char) : Bool := UnicodeData.isSpace c

/-- `\d` -/
def isDigit (c : Char) : Bool := UnicodeData.isDecimal c

/-- `.` without `re.DOTALL` -/
def isPlain (c : Char) : Bool := c != '\n'

/-- `.` under `re.DOTALL` -/
def isAny (_ : Char) : Bool := true

/-- Decimal digits, as `f'{n}'` prints them. -/
def decimal (n : Nat) : Text := Nat.toDigits 10 n

/-- `int(text)` for a text matched by `\d+`. -/
def int (text : Text) : Nat :=
  text.foldl (fun value c => 10 * value + UnicodeData.decimalValue c) 0

/-- `text.strip()` -/
def strip (text : Text) : Text := (text.dropWhile isSpace).rdropWhile isSpace

/-- `text.split(separator)` for a separator of one character. -/
def split (separator : Char) (text : Text) : List Text :=
  text.splitOn separator

/-- `text[1:-1]` -/
def inner (text : Text) : Text := (text.drop 1).dropLast

/-- `text[:-n]` -/
def dropEnd (n : Nat) (text : Text) : Text := text.take (text.length - n)

/-- The contents of a file with the given lines. -/
def lines (rows : List String) : Text := rows.flatMap fun row => row.toList ++ ['\n']

/-- `n` in `width` hexadecimal digits. -/
def hex (width n : Nat) : Text :=
  let digits := Nat.toDigits 16 n
  List.replicate (width - digits.length) '0' ++ digits

/-- One character inside the quotes of a `repr`. -/
def reprChar (quote c : Char) : Text :=
  if c = quote ∨ c = '\\' then ['\\', c]
  else if c = '\t' then "\\t".toList
  else if c = '\n' then "\\n".toList
  else if c = '\r' then "\\r".toList
  else if UnicodeData.isPrintable c then [c]
  else if c.toNat < 256 then "\\x".toList ++ hex 2 c.toNat
  else if c.toNat < 65536 then "\\u".toList ++ hex 4 c.toNat
  else "\\U".toList ++ hex 8 c.toNat

/-- The quote that `repr` puts around a text. -/
def reprQuote (text : Text) : Char :=
  if '\'' ∈ text ∧ '"' ∉ text then '"' else '\''

/-- `repr(text)` -/
def repr (text : Text) : Text :=
  let quote := reprQuote text
  quote :: (text.flatMap (reprChar quote) ++ [quote])

theorem isWord_ascii {c : Char} (hascii : c.toNat < 128) :
    isWord c = (c.isAlphanum || c == '_') := by
  rw [isWord, UnicodeData.alnum_ascii c hascii]

theorem isSpace_ascii {c : Char} (hascii : c.toNat < 128) :
    isSpace c = (c == ' ' || (9 ≤ c.toNat && c.toNat ≤ 13) ||
      (28 ≤ c.toNat && c.toNat ≤ 31)) :=
  UnicodeData.space_ascii c hascii

theorem isDigit_ascii {c : Char} (hascii : c.toNat < 128) :
    isDigit c = c.isDigit :=
  UnicodeData.decimal_ascii c hascii

theorem isSpace_blank : isSpace ' ' = true := by
  rw [isSpace_ascii (by decide)]
  decide

theorem isSpace_of_isWord {c : Char} (hword : isWord c = true) :
    isSpace c = false := by
  rw [isWord, Bool.or_eq_true, beq_iff_eq] at hword
  rcases hword with halnum | rfl
  · exact UnicodeData.space_of_alnum c halnum
  · rw [isSpace_ascii (by decide)]
    decide

theorem isWord_of_isDigit {c : Char} (hdigit : isDigit c = true) :
    isWord c = true := by
  rw [isWord, UnicodeData.alnum_of_decimal c hdigit, Bool.true_or]

theorem isWord_of_isSpace {c : Char} (hspace : isSpace c = true) :
    isWord c = false := by
  cases hword : isWord c with
  | false => rfl
  | true =>
      rw [isSpace_of_isWord hword] at hspace
      cases hspace

theorem isWord_blank : isWord ' ' = false := isWord_of_isSpace isSpace_blank

omit [UnicodeData] in
omit [UnicodeData] in
theorem isDigit_of_mem_decimal {n : Nat} {c : Char} (hc : c ∈ decimal n) :
    c.isDigit = true :=
  Nat.isDigit_of_mem_toDigits (by decide) (by decide) hc

omit [UnicodeData] in
theorem decimal_ne_nil (n : Nat) : decimal n ≠ [] := Nat.toDigits_ne_nil

theorem isDigit_of_decimal {n : Nat} {c : Char} (hc : c ∈ decimal n) : isDigit c = true := by
  have hdigit := isDigit_of_mem_decimal hc
  rw [isDigit_ascii, hdigit]
  exact Nat.lt_trans (toNat_of_isAlphanum (isAlphanum_of_isDigit c hdigit)).2 (by decide)

theorem int_decimal (n : Nat) : int (decimal n) = n := by
  have hdigits : ∀ (digits : Text) (value : Nat), (∀ c ∈ digits, c.isDigit = true) →
      digits.foldl (fun value c => 10 * value + UnicodeData.decimalValue c) value =
        Nat.ofDigitChars 10 digits value := by
    intro digits
    induction digits with
    | nil =>
        intro value _
        rw [Nat.ofDigitChars_nil]
        rfl
    | cons c digits ih =>
        intro value hall
        rw [List.foldl_cons, Nat.ofDigitChars_cons, UnicodeData.value_ascii c (hall c (.head _))]
        exact ih _ fun d hd => hall d (.tail _ hd)
  rw [int, hdigits _ _ fun c hc => isDigit_of_mem_decimal hc, decimal,
    Nat.ofDigitChars_ten_toDigits]

end Text

end FaultInjection
