import PageRouting.Pattern.Token

/-!
# `PageRouting/Pattern/Specificity.lean` — which of two sibling patterns is tried first

A router tries siblings in order, so they are kept from most to least specific:

```
(empty)   /static   /   /:parameter   /*
```

Patterns are compared token by token, and the first position with a different rank decides. If one pattern runs out
first it is tried first, unless its last token is a star: a star that the longer pattern continues yields to it, as long
as the longer pattern goes on with a token that is not empty.

The comparison answers for every pair of texts, also for those that no page file gives rise to. On some of those it is
not antisymmetric: of `/*` and `/*/`, each is tried before the other.
-/

set_option autoImplicit false

namespace PageRouting.Pattern

/-- The tokens of a pattern; the text before the first slash is a token too. -/
def tokens (pattern : Text) : List Token :=
  (Text.split '/' pattern).map Token.ofText

/-- A pattern is written back from its tokens. -/
theorem join_tokens (pattern : Text) : Text.join '/' ((tokens pattern).map Token.text) = pattern := by
  have : (tokens pattern).map Token.text = Text.split '/' pattern := by
    simp [tokens, Function.comp_def, Token.text_ofText]
  rw [this, Text.join_split]

/-- Numbers by size. -/
def compareRanks (a b : Nat) : Ordering :=
  if a < b then .lt else if b < a then .gt else .eq

/-- Token lists by the first difference in rank, then by which of them runs out. -/
def compareTokens : List Token → List Token → Ordering
  | [], [] => .eq
  | [], _ :: _ => .lt
  | _ :: _, [] => .gt
  | [a], [b] => compareRanks a.rank b.rank
  | a :: _ :: _, [b] => (compareRanks a.rank b.rank).then (if a = .catchAll then .lt else .gt)
  | [a], b :: next :: _ =>
    (compareRanks a.rank b.rank).then (if a = .catchAll ∧ next ≠ .static [] then .gt else .lt)
  | a :: a' :: as, b :: b' :: bs => (compareRanks a.rank b.rank).then (compareTokens (a' :: as) (b' :: bs))

/-- Is the first token behind the leading slash a parameter or a star? -/
def startsOpen : Text → Bool
  | '/' :: c :: _ => c = ':' || c = '*'
  | _ => false

/--
The order in which two sibling patterns are tried: `lt` if the first one goes first, `eq` if neither is more specific.
The bare slash goes behind literal siblings and before open ones.
-/
protected def compare (a b : Text) : Ordering :=
  if a = b then .eq
  else if a = [] then .lt
  else if b = [] then .gt
  else if a = ['/'] then (if startsOpen b then .lt else .gt)
  else if b = ['/'] then (if startsOpen a then .gt else .lt)
  else compareTokens (tokens a) (tokens b)

example : Pattern.compare "/users".toList "/:id".toList = .lt := by decide
example : Pattern.compare "/:id".toList "/".toList = .gt := by decide
example : Pattern.compare "/*".toList "/*/a".toList = .gt := by decide
example : Pattern.compare "/*".toList "/*/".toList = .lt ∧ Pattern.compare "/*/".toList "/*".toList = .lt := by decide

end PageRouting.Pattern
