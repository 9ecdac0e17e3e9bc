import PageRouting.Fault
import PageRouting.Segment

/-!
# `PageRouting/Forest/IndexName.lean` — names of index routes

The route of a directory's own page has a name that ends in the part `index`. The ending may be followed by a final
newline, which is looked behind both when index names are told apart and when the ending is dropped. An index name is
then read as its parts with the place of the first part `index`; a name that ends in `index` and a newline has no such
part unless another one is `index`, and cannot be read.
-/

set_option autoImplicit false

namespace PageRouting

/-- The parts of an index route's name, and which of them is the first `index`. -/
structure IndexName where
  parts : List Text
  position : Nat
deriving DecidableEq, Repr

namespace IndexName

/-- The ending of an index name that has more than one part. -/
def ending : Text := '-' :: Segment.indexKey

/-- What remains of a name that ends in the part `index`. -/
def stem? (name : Text) : Option Text :=
  let (body, newline) := Text.dropFinalNewline name
  if body = Segment.indexKey then some newline
  else if ending <:+ body then some (body.take (body.length - ending.length) ++ newline)
  else none

/-- A name without its ending `index`, if it has one. -/
def strip (name : Text) : Text :=
  (stem? name).getD name

/-- Reads the name of an index route. -/
def ofName (name : Text) : Except Fault IndexName :=
  let parts := Text.split '-' name
  match parts.findIdx? (· = Segment.indexKey) with
  | some position => .ok { parts, position }
  | none => .error .missingIndexPart

/-- The index names among the names of siblings, in their order. -/
def ofNames : List (Option Text) → Except Fault (List IndexName)
  | [] => .ok []
  | none :: names => ofNames names
  | some name :: names =>
    match stem? name with
    | none => ofNames names
    | some _ => do
      let first ← ofName name
      let others ← ofNames names
      return first :: others

/-- The smallest position of `index` among several names. -/
def anchor? : List IndexName → Option Nat
  | [] => none
  | first :: others => some (others.foldl (fun least name => Nat.min least name.position) first.position)

end IndexName

end PageRouting
