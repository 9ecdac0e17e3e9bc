import PageRouting.Route.Basic

/-!
# `PageRouting/Forest/Flat.lean` — the paths that a forest serves

Every leaf of a forest serves one path: its pattern behind those of the routes above it, parted by slashes. An empty
pattern adds no slash of its own. A filter may reject routes; a rejected route is passed over with everything below it.

The walk carries the text in front of the siblings' patterns. Where that text consists of slashes only, the first leaf
on a level reduces it to a single one, also for the siblings behind it.
-/

set_option autoImplicit false

namespace PageRouting

/-- Has the route's own pattern neither a parameter nor a catch-all? -/
def Route.isStatic (route : Route) : Bool :=
  decide (':' ∉ route.path) && decide ('*' ∉ route.path)

namespace Flat

/-- A text in front of patterns, with slashes and nothing else reduced to one slash; a final newline stays. -/
def reduceSlashes (lead : Text) : Text :=
  let (body, newline) := Text.dropFinalNewline lead
  if body ≠ [] ∧ body.all (· = '/') then '/' :: newline else lead

/-- The path of a leaf behind the text in front of it. -/
def leafPath (lead path : Text) : Text :=
  if path = [] ∧ lead.getLast? = some '/' then lead.dropLast else lead ++ path

/-- What is in front of the siblings behind a route, given what is in front of it. -/
def leadAfter (accepts : Route → Bool) (lead : Text) (route : Route) : Text :=
  if accepts route && route.children.isEmpty then reduceSlashes lead else lead

mutual

/-- The paths that a route and everything below it serve. -/
def ofRoute (accepts : Route → Bool) (lead : Text) : Route → List Text
  | ⟨name, path, component, chunkName, children⟩ =>
    if accepts ⟨name, path, component, chunkName, children⟩ then
      match children with
      | [] => [leafPath (reduceSlashes lead) path]
      | child :: others =>
        (if lead = [] ∧ path = ['/'] then [['/']] else []) ++
          ofSiblings accepts (lead ++ path ++ ['/']) (child :: others)
    else []

/-- The paths that siblings and everything below them serve. -/
def ofSiblings (accepts : Route → Bool) (lead : Text) : List Route → List Text
  | [] => []
  | route :: siblings =>
    ofRoute accepts lead route ++ ofSiblings accepts (leadAfter accepts lead route) siblings

end

end Flat

namespace Forest

/-- The paths that the accepted part of a forest serves, behind a given text, in router order. -/
def flatPathsWhere (accepts : Route → Bool) (lead : Text) (forest : Forest) : List Text :=
  Flat.ofSiblings accepts lead forest

/-- The paths that a forest serves. -/
def flatPaths (forest : Forest) : List Text :=
  flatPathsWhere (fun _ => true) [] forest

/-- The paths that a forest serves through routes without parameters and catch-alls. -/
def staticPaths (forest : Forest) : List Text :=
  flatPathsWhere Route.isStatic [] forest

end Forest

end PageRouting
