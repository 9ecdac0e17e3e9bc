import PageRouting.Text.Quoted
import PageRouting.Text.Numeral

/-!
# `PageRouting/Json.lean` — JSON values and their text

The values that the program hands out, and how they are printed: two blanks of indentation per level, every item of a
list and every field of an object on a line of its own, empty lists and objects closed at once. Fields keep the order in
which they are given. Strings are printed either as they are or in ASCII, where a character beyond the first 65536 takes
the escapes of its two surrogates.
-/

set_option autoImplicit false

namespace PageRouting

/-- A JSON value; numbers are integers. -/
inductive Json where
  | null
  | bool (value : Bool)
  | num (value : Int)
  | str (value : Text)
  | arr (items : List Json)
  | obj (fields : List (Text × Json))

namespace Json

/-- Which characters of a string are escaped. -/
inductive Charset where
  /-- quotes, backslashes and control characters -/
  | unicode
  /-- these, and everything beyond ASCII -/
  | ascii
deriving DecidableEq, Repr

/-- An escape by a unit of sixteen bits. -/
def escapeUnit (n : Nat) : Text :=
  '\\' :: 'u' :: Text.hexDigits 4 n

/-- A character by its code: one unit, or two surrogates. -/
def escapeCode (n : Nat) : Text :=
  if n < 0x10000 then escapeUnit n
  else escapeUnit (0xD800 + (n - 0x10000) / 0x400) ++ escapeUnit (0xDC00 + (n - 0x10000) % 0x400)

/-- How a character stands in a string. -/
def escapeChar (charset : Charset) (c : Char) : Text :=
  if c = '"' ∨ c = '\\' then ['\\', c]
  else if c = '\n' then ['\\', 'n']
  else if c = '\r' then ['\\', 'r']
  else if c = '\t' then ['\\', 't']
  else if c = '\x08' then ['\\', 'b']
  else if c = '\x0c' then ['\\', 'f']
  else if c.toNat < 0x20 then escapeUnit c.toNat
  else if charset = .ascii ∧ 0x7F ≤ c.toNat then escapeCode c.toNat
  else [c]

/-- A string in its quotes. -/
def renderString (charset : Charset) (t : Text) : Text :=
  '"' :: (t.flatMap (escapeChar charset) ++ ['"'])

/-- A new line at a depth of nesting. -/
def newline (depth : Nat) : Text :=
  '\n' :: List.replicate (2 * depth) ' '

mutual

/-- The text of a value that starts at a depth of nesting. -/
def renderAt (charset : Charset) (depth : Nat) : Json → Text
  | .null => "null".toList
  | .bool true => "true".toList
  | .bool false => "false".toList
  | .num value => Text.ofInteger value
  | .str value => renderString charset value
  | .arr [] => ['[', ']']
  | .arr (item :: items) =>
    '[' :: (newline (depth + 1) ++ renderAt charset (depth + 1) item ++ renderItems charset (depth + 1) items ++
      newline depth ++ [']'])
  | .obj [] => ['\x7b', '\x7d']
  | .obj (field :: fields) =>
    '\x7b' :: (newline (depth + 1) ++ renderField charset (depth + 1) field ++
      renderFields charset (depth + 1) fields ++ newline depth ++ ['\x7d'])

/-- The items behind the first one. -/
def renderItems (charset : Charset) (depth : Nat) : List Json → Text
  | [] => []
  | item :: items => ',' :: (newline depth ++ renderAt charset depth item ++ renderItems charset depth items)

/-- A field with its key. -/
def renderField (charset : Charset) (depth : Nat) : Text × Json → Text
  | (key, value) => renderString charset key ++ ':' :: ' ' :: renderAt charset depth value

/-- The fields behind the first one. -/
def renderFields (charset : Charset) (depth : Nat) : List (Text × Json) → Text
  | [] => []
  | field :: fields => ',' :: (newline depth ++ renderField charset depth field ++ renderFields charset depth fields)

end

/-- The text of a value. -/
def render (charset : Charset) (value : Json) : Text :=
  renderAt charset 0 value

/-- A list of strings. -/
def ofTexts (texts : List Text) : Json :=
  .arr (texts.map .str)

end Json

end PageRouting
