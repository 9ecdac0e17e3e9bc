import PageRouting.Pattern.Token

/-!
# `PageRouting/Segment.lean` — what one key of a page file's path says

The path of a page file below the pages root is a list of keys, and the spelling of a key says how it is routed: `_` is
a catch-all, `_name` a parameter, `index` the page of its directory, anything else literal text. A segment is a key that
has been read; the key can be read off again (`key_ofKey`).
-/

set_option autoImplicit false

namespace PageRouting

/-- One key of a page file's path, by its role. -/
inductive Segment where
  /-- literal text -/
  | static (key : Text)
  /-- the page of its directory -/
  | index
  /-- a parameter -/
  | param (name : Text)
  /-- everything below this point -/
  | catchAll
deriving DecidableEq, Repr

namespace Segment

/-- The key of a directory's own page. -/
def indexKey : Text := ['i', 'n', 'd', 'e', 'x']

/-- Reads a key. -/
def ofKey (key : Text) : Segment :=
  if key = ['_'] then .catchAll
  else if key.head? = some '_' then .param key.tail
  else if key = indexKey then .index
  else .static key

/-- The key as it is written. -/
def key : Segment → Text
  | .static key => key
  | .index => indexKey
  | .param name => '_' :: name
  | .catchAll => ['_']

/--
The pattern token that a segment is emitted as. Parameters are emitted optional; the index collapse decides later
whether they stay so.
-/
def token : Segment → Token
  | .static key => .static key
  | .index => .static indexKey
  | .param name => .param [] name true
  | .catchAll => .catchAll

/-- What the segment contributes to the name of a route. -/
def label (segment : Segment) : Text :=
  segment.token.label

/--
What the segment at a position adds to the pattern of its route: its token behind a slash. A final `index` adds
nothing, or the bare slash if it is the only segment.
-/
def contribution (segment : Segment) (position : Nat) (isLast : Bool) : Text :=
  if segment = .index ∧ isLast then (if position = 0 then ['/'] else [])
  else '/' :: segment.token.text

/-- Only an `index` adds something else at the end of a path than elsewhere. -/
theorem contribution_of_ne_index {segment : Segment} (h : segment ≠ .index) (position : Nat) (isLast : Bool) :
    segment.contribution position isLast = '/' :: segment.token.text :=
  if_neg fun hi => h hi.1

/-- A key is written as it was read. -/
theorem key_ofKey (k : Text) : (ofKey k).key = k := by
  unfold ofKey
  split
  · next h => simp [key, h]
  · split
    · next h =>
      cases k with
      | nil => simp at h
      | cons c cs => simp only [List.head?_cons, Option.some.injEq] at h; simp [key, h]
    · split
      · next h => simp [key, h]
      · rfl

/-- Different keys give different segments. -/
theorem ofKey_injective {a b : Text} (h : ofKey a = ofKey b) : a = b := by
  rw [← key_ofKey a, h, key_ofKey]

end Segment

end PageRouting
