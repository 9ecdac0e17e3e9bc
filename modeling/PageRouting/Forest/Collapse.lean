import PageRouting.Forest.IndexName
import PageRouting.Notice
import PageRouting.Route.Basic

/-!
# `PageRouting/Forest/Collapse.lean` — what index pages decide

A forest comes out of insertion with every parameter optional and with index routes under their own names. The collapse
pass walks it once, level by level, and for each route

* drops the slash in front of its pattern, below the top level;
* makes a parameter required where an index route among the siblings shows what is served without it;
* drops the ending `index` from its name;
* drops its name altogether if a child has the empty path, since the child then shows the page.

The index names of a level are read before any of its routes is changed. If one of them cannot be read, the pass stops
there: what it has changed so far stays changed, everything else is as it was, and the fault is reported beside the
forest.
-/

set_option autoImplicit false

namespace PageRouting

/-- What a collapse pass leaves behind. -/
structure Collapsed (α : Type) where
  /-- the routes, as far as the pass came -/
  value : α
  /-- what was done -/
  notices : List Notice
  /-- why the pass stopped, if it did -/
  fault : Option Fault

namespace Collapse

/-! ## Patterns -/

/--
One index route's say on a pattern: the token as far from the start as its `index` is from the anchor loses its first
question mark, if the parts before it agree with the route's own name.
-/
def requireAt (anchor : Nat) (nameParts : List Text) (index : IndexName) (tokens : List Text) : List Text :=
  let offset := index.position - anchor
  if index.parts.take offset <+: nameParts then tokens.modify offset (·.erase '?') else tokens

/-- Every index route of a level has its say on a pattern, in their order. -/
def requireAll (indexes : List IndexName) (nameParts tokens : List Text) : List Text :=
  match IndexName.anchor? indexes with
  | none => tokens
  | some anchor => indexes.foldl (fun tokens index => requireAt anchor nameParts index tokens) tokens

/-- The parts of a route's name; none if it has no name, or an empty one. -/
def nameParts : Option Text → List Text
  | none => []
  | some name => if name = [] then [] else Text.split '-' name

/-- A pattern with its parameters required where the index routes of its level say so. -/
def resolveOptional (indexes : List IndexName) (isChild : Bool) (name : Option Text) (path : Text) : Text :=
  if isChild then Text.join '/' (requireAll indexes (nameParts name) (Text.split '/' path))
  else '/' :: Text.join '/' (requireAll indexes (nameParts name) (Text.split '/' path).tail)

/-- The pattern of a route after the pass. -/
def newPath (indexes : List IndexName) (isChild : Bool) (name : Option Text) (path : Text) : Text :=
  let path := if isChild then path.erase '/' else path
  if '?' ∈ path then resolveOptional indexes isChild name path else path

/-! ## Levels -/

/-- Does a child show the page of its parent? -/
def showsParent (children : Forest) : Bool :=
  children.any fun child => child.path = []

mutual

/-- The pass on one route, given the index names among its siblings, and on everything below it. -/
def route (indexes : List IndexName) (isChild : Bool) : Route → Collapsed Route
  | ⟨name, path, component, chunkName, children⟩ =>
    let path := newPath indexes isChild name path
    let stripped := name.map IndexName.strip
    let shown := showsParent children
    let notices := if shown then [.unnamed stripped path] else []
    let name := if shown then none else stripped
    match IndexName.ofNames (children.map Route.name) with
    | .error fault => ⟨⟨name, path, component, chunkName, children⟩, notices, some fault⟩
    | .ok below =>
      let inner := siblings below true children
      ⟨⟨name, path, component, chunkName, inner.value⟩, notices ++ inner.notices, inner.fault⟩

/-- The pass on siblings whose index names are given, up to the first fault. -/
def siblings (indexes : List IndexName) (isChild : Bool) : List Route → Collapsed Forest
  | [] => ⟨[], [], none⟩
  | first :: others =>
    let head := route indexes isChild first
    match head.fault with
    | some fault => ⟨head.value :: others, head.notices, some fault⟩
    | none =>
      let tail := siblings indexes isChild others
      ⟨head.value :: tail.value, head.notices ++ tail.notices, tail.fault⟩

end

end Collapse

/-- The collapse pass on a forest; `isChild` says whether its top level is nested below some route. -/
def Forest.collapse (isChild : Bool) (forest : Forest) : Collapsed Forest :=
  match IndexName.ofNames (forest.map Route.name) with
  | .error fault => ⟨forest, [], some fault⟩
  | .ok indexes => Collapse.siblings indexes isChild forest

end PageRouting
