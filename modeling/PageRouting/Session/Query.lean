import PageRouting.Text

/-!
# `PageRouting/Session/Query.lean` — the query string of a request

A query string is cut at `&` into fields and each field at its first `=` into name and value; a plus sign stands for a
blank and `%` with two hexadecimal digits for a byte. Of several values of one name the last one counts.

Names and values are only ever compared with ASCII words. A byte beyond ASCII is therefore read as some character beyond
ASCII, without putting the bytes of one character together.
-/

set_option autoImplicit false

namespace PageRouting.Query

/-- The value of a hexadecimal digit. -/
def hexValue? (c : Char) : Option Nat :=
  if '0' ≤ c ∧ c ≤ '9' then some (c.toNat - 48)
  else if 'a' ≤ c ∧ c ≤ 'f' then some (c.toNat - 87)
  else if 'A' ≤ c ∧ c ≤ 'F' then some (c.toNat - 55)
  else none

/-- Reads `%` and two hexadecimal digits as a byte; any other `%` stands for itself. -/
def decodePercents : Text → Text
  | '%' :: high :: low :: rest =>
    match hexValue? high, hexValue? low with
    | some h, some l => Char.ofNat (16 * h + l) :: decodePercents rest
    | _, _ => '%' :: decodePercents (high :: low :: rest)
  | c :: cs => c :: decodePercents cs
  | [] => []

/-- Reads a name or a value. -/
def decode (t : Text) : Text :=
  decodePercents (t.map fun c => if c = '+' then ' ' else c)

/-- The name and the value of a field. -/
def readField (field : Text) : Text × Text :=
  (decode (field.takeWhile (· != '=')), decode (field.dropWhile (· != '=')).tail)

/-- The fields of a query string, in their order. -/
def fields (query : Text) : List (Text × Text) :=
  ((Text.split '&' query).filter (· ≠ [])).map readField

/-- The last value of a name. -/
def value? (name query : Text) : Option Text :=
  (fields query).reverse.lookup name

end PageRouting.Query
