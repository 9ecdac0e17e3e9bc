import PageRouting.Text.Blank

/-!
# `PageRouting/Text/Numeral.lean` — integers as users write them

A numeral is an optional sign and decimal digits of any script, a single low line allowed between two digits, with
white space allowed around it. The digits are those of Unicode 14: each script has a run of ten from zero to nine, so a
table of the zeros is enough (`zeros`). There is a limit to how many digits are read; it counts for the digits in front
of anything that does not belong to a numeral, whatever follows them.
-/

set_option autoImplicit false

namespace PageRouting.Text

/-- The code points of the zeros, each followed by the digits from one to nine. -/
def zeros : List Nat :=
  [0x30, 0x660, 0x6F0, 0x7C0, 0x966, 0x9E6, 0xA66, 0xAE6, 0xB66, 0xBE6, 0xC66, 0xCE6, 0xD66, 0xDE6, 0xE50, 0xED0,
   0xF20, 0x1040, 0x1090, 0x17E0, 0x1810, 0x1946, 0x19D0, 0x1A80, 0x1A90, 0x1B50, 0x1BB0, 0x1C40, 0x1C50, 0xA620,
   0xA8D0, 0xA900, 0xA9D0, 0xA9F0, 0xAA50, 0xABF0, 0xFF10, 0x104A0, 0x10D30, 0x11066, 0x110F0, 0x11136, 0x111D0,
   0x112F0, 0x11450, 0x114D0, 0x11650, 0x116C0, 0x11730, 0x118E0, 0x11950, 0x11C50, 0x11D50, 0x11DA0, 0x16A60,
   0x16AC0, 0x16B50, 0x1D7CE, 0x1D7D8, 0x1D7E2, 0x1D7EC, 0x1D7F6, 0x1E140, 0x1E2F0, 0x1E950, 0x1FBF0]

/-- The value of a decimal digit. -/
def digitValue? (c : Char) : Option Nat :=
  (zeros.find? fun z => decide (z ≤ c.toNat) && decide (c.toNat < z + 10)).map (c.toNat - ·)

/-- Padding around a numeral: white space, but none of the four ASCII separators. -/
def isNumeralPadding (c : Char) : Bool :=
  isBlank c && !(decide (0x1C ≤ c.toNat) && decide (c.toNat ≤ 0x1F))

/-- Reads on after a digit: more digits, each behind at most one low line, to the end of the text. -/
def readDigits? : Nat → Text → Option Nat
  | value, [] => some value
  | value, '_' :: c :: cs => (digitValue? c).bind fun d => readDigits? (10 * value + d) cs
  | value, c :: cs => (digitValue? c).bind fun d => readDigits? (10 * value + d) cs

/-- Reads digits, at least one. -/
def readNatural? : Text → Option Nat
  | [] => none
  | c :: cs => (digitValue? c).bind fun d => readDigits? d cs

/-- Why a text is no integer. -/
inductive NumeralFault where
  /-- it is not written like one -/
  | malformed
  /-- it has more digits than are read -/
  | tooManyDigits (count : Nat)
deriving DecidableEq, Repr

/-- The most digits that are read. -/
def maxDigits : Nat := 4300

/-- May the character stand in a numeral without its sign? -/
def isNumeralChar (c : Char) : Bool :=
  c = '_' || (digitValue? c).isSome

/-- Reads a numeral without its sign. -/
def readUnsigned (t : Text) : Except NumeralFault Nat :=
  let run := t.takeWhile isNumeralChar
  let digits := (run.filter (· ≠ '_')).length
  match readNatural? run with
  | none => .error .malformed
  | some value =>
    if maxDigits < digits then .error (.tooManyDigits digits)
    else if run.length = t.length then .ok value
    else .error .malformed

/-- Reads an integer. -/
def readInteger (t : Text) : Except NumeralFault Int :=
  match trimWhere isNumeralPadding t with
  | '-' :: digits => (readUnsigned digits).map fun n => -(n : Int)
  | '+' :: digits => (readUnsigned digits).map fun n => (n : Int)
  | digits => (readUnsigned digits).map fun n => (n : Int)

/-- The decimal digits of an integer, behind a minus sign if it is negative. -/
def ofInteger (n : Int) : Text :=
  if n < 0 then '-' :: Nat.toDigits 10 n.natAbs else Nat.toDigits 10 n.natAbs

example : (readInteger [' ', '-', '1', '_', '0']).toOption = some (-10) := by decide
example : (readInteger ['1', '_', '_', '0']).toOption = none := by decide
example : (readInteger ['1', '_']).toOption = none := by decide

end PageRouting.Text
