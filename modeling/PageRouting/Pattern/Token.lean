import PageRouting.Text

/-!
# `PageRouting/Pattern/Token.lean` — the tokens of a router pattern

A router pattern such as `/users/:id?/*` is cut at its slashes into tokens. A token that holds a colon is a parameter,
named by what follows the first colon and optional if a question mark ends it; a lone star matches every path; any
other token is literal text. Reading a token keeps what its spelling says, so that it can be written back
(`text_ofText`).
-/

set_option autoImplicit false

namespace PageRouting

/-- One token of a router pattern. -/
inductive Token where
  /-- literal text -/
  | static (text : Text)
  /-- a parameter; `before` is the text in front of the colon, in practice empty -/
  | param (before name : Text) (optional : Bool)
  /-- the rest of the path, whatever it is -/
  | catchAll
deriving DecidableEq, Repr

namespace Token

/-- The name that a catch-all page contributes to a route name. -/
def catchAllLabel : Text := ['a', 'l', 'l']

/-- Reads what follows the colon of a parameter. -/
def ofParam (before name : Text) : Token :=
  if name.getLast? = some '?' then .param before name.dropLast true else .param before name false

/-- Reads a token. -/
def ofText (t : Text) : Token :=
  if t = ['*'] then .catchAll
  else if ':' ∈ t then ofParam (t.takeWhile (· != ':')) (t.dropWhile (· != ':')).tail
  else .static t

/-- The token as it is written. -/
def text : Token → Text
  | .static t => t
  | .param before name optional => before ++ ':' :: name ++ if optional then ['?'] else []
  | .catchAll => ['*']

/-- What the token contributes to a route name. -/
def label : Token → Text
  | .static t => t
  | .param _ name _ => name
  | .catchAll => catchAllLabel

/-- Specificity, from most to least: literal text, a parameter, everything. -/
def rank : Token → Nat
  | .static _ => 0
  | .param .. => 1
  | .catchAll => 2

/--
The token in the form in which a page is first emitted: a parameter stands alone and is optional until the index
collapse has decided about it.
-/
def provisional : Token → Token
  | .param _ name _ => .param [] name true
  | token => token

theorem takeWhile_append_dropWhile_tail {t : Text} (h : ':' ∈ t) :
    t.takeWhile (· != ':') ++ ':' :: (t.dropWhile (· != ':')).tail = t := by
  induction t with
  | nil => simp at h
  | cons c cs ih =>
    by_cases hc : c = ':'
    · subst hc; simp
    · have : ':' ∈ cs := by
        rcases List.mem_cons.mp h with rfl | h
        · exact absurd rfl hc
        · exact h
      simpa [hc] using ih this

theorem text_ofParam (before name : Text) : (ofParam before name).text = before ++ ':' :: name := by
  unfold ofParam
  split
  · next h =>
    obtain ⟨start, rfl⟩ := List.getLast?_eq_some_iff.mp h
    simp [text]
  · simp [text]

/-- A token is written as it was read. -/
theorem text_ofText (t : Text) : (ofText t).text = t := by
  unfold ofText
  split
  · next h => simp [text, h]
  · split
    · next h => rw [text_ofParam, takeWhile_append_dropWhile_tail h]
    · rfl

end Token

end PageRouting
