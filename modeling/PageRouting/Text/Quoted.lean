import PageRouting.Text.Printable
import PageRouting.Text

/-!
# `PageRouting/Text/Quoted.lean` — text in quotation marks

Messages quote names, paths and files so that blanks, line ends and invisible characters can be told apart. A quotation
stands in single quotes, in double quotes if the text holds a single quote and no double one. The backslash, the quote
in use, newline, return and tab are escaped with a backslash; any other character that is not printable is written by
its code point in two, four or eight lower-case hexadecimal digits (`\x`, `\u`, `\U`), the least that fit.
-/

set_option autoImplicit false

namespace PageRouting.Text

/-- A digit below sixteen, in lower case. -/
def hexDigit (n : Nat) : Char :=
  if n < 10 then Char.ofNat (48 + n) else Char.ofNat (87 + n)

/-- The last `width` hexadecimal digits of a number, leading zeros included. -/
def hexDigits : Nat → Nat → Text
  | 0, _ => []
  | width + 1, n => hexDigits width (n / 16) ++ [hexDigit (n % 16)]

/-- The quotation mark for a text: the single one, unless only the double one needs no escape. -/
def quoteMark (t : Text) : Char :=
  if '\'' ∈ t ∧ '"' ∉ t then '"' else '\''

/-- How a character is written between two quotation marks. -/
def quoteChar (mark c : Char) : Text :=
  if c = mark ∨ c = '\\' then ['\\', c]
  else if c = '\n' then ['\\', 'n']
  else if c = '\r' then ['\\', 'r']
  else if c = '\t' then ['\\', 't']
  else if isPrintable c then [c]
  else if c.toNat < 0x100 then '\\' :: 'x' :: hexDigits 2 c.toNat
  else if c.toNat < 0x10000 then '\\' :: 'u' :: hexDigits 4 c.toNat
  else '\\' :: 'U' :: hexDigits 8 c.toNat

/-- The text in quotation marks. -/
def quoted (t : Text) : Text :=
  quoteMark t :: t.flatMap (quoteChar (quoteMark t)) ++ [quoteMark t]

/-- A text that may be missing. -/
def quotedOption : Option Text → Text
  | none => ['N', 'o', 'n', 'e']
  | some t => quoted t

/-- The quotations of several texts, in brackets and parted by commas. -/
def quotedList (ts : List Text) : Text :=
  '[' :: ([',', ' '].intercalate (ts.map quoted) ++ [']'])

example : quoted ['a', '\'', 'b'] = ['"', 'a', '\'', 'b', '"'] := by decide
example : quoted ['\n', '\x00'] = ['\'', '\\', 'n', '\\', 'x', '0', '0', '\''] := by decide

end PageRouting.Text
