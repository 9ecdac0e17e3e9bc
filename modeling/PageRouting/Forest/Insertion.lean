import PageRouting.Notice
import PageRouting.PageEntry
import PageRouting.Route.Order

/-!
# `PageRouting/Forest/Insertion.lean` — placing one page in a forest

A page is placed by following its segments from the top level down. The labels of the segments so far, joined by dashes,
name the route that a level is searched for. A route of that name is entered; where there is none, a wrapper without a
page is put in its place among its siblings. At the last segment three things can happen:

* no route has the name: the page gets a new route;
* a route has the name and no page: it was made for a directory, and the page becomes its page;
* a route has the name and a page: the new page is nested below it with an empty path, and a warning is given.

Each level stays sorted: a new route is attached to siblings by `Forest.attach`, and no step changes the path of a route
that is already there.
-/

set_option autoImplicit false

namespace PageRouting.Forest

/-- What placing a page results in. -/
structure Placement where
  /-- the forest with the page -/
  forest : Forest
  /-- the route that now shows the page -/
  node : Route
  /-- what was done -/
  notices : List Notice

namespace Placement

/-- The same placement, seen from the level above. -/
def lift (rebuild : Forest → Forest) (placement : Placement) : Placement :=
  { placement with forest := rebuild placement.forest }

end Placement

/-- The name one label further down. -/
def extendName (name label : Text) : Text :=
  if name = [] then label else name ++ '-' :: label

/-- The first sibling of a name. -/
def named? (name : Text) (siblings : Forest) : Option Route :=
  List.find? (fun route => route.name = some name) siblings

/-- The siblings with another route in place of the first one of that name. -/
def replaceFirst (name : Text) (route : Route) : Forest → Forest
  | [] => []
  | sibling :: siblings =>
    if sibling.name = some name then route :: siblings else sibling :: replaceFirst name route siblings

/-- A new route for a page, among its siblings. -/
def attachPage (entry : PageEntry) (name path : Text) (siblings : Forest) : Placement :=
  let route : Route := { name, path, component := entry.component, chunkName := entry.chunkName }
  { forest := attach siblings route, node := route, notices := [.inserted name path entry.file] }

/-- Places a page whose name is that of a route on this level. -/
def placeAt (entry : PageEntry) (name : Text) (route : Route) (siblings : Forest) : Placement :=
  match route.component with
  | none =>
    let filled := { route with component := entry.component, chunkName := entry.chunkName }
    { forest := replaceFirst name filled siblings, node := filled, notices := [.filled name entry.file] }
  | some _ =>
    let placement := attachPage entry name [] route.children
    { placement.lift fun children => replaceFirst name { route with children } siblings with
      notices := .nested name entry.file route.chunkName :: placement.notices }

/--
Follows the segments from a level down and places the page at their end. `position` counts the segments above this
level, and `name` is what they name.
-/
def place (entry : PageEntry) : List Segment → (position : Nat) → (name : Text) → Forest → Placement
  | [], _, name, siblings => attachPage entry name [] siblings
  | [segment], position, name, siblings =>
    let name := extendName name segment.label
    match named? name siblings with
    | some route => placeAt entry name route siblings
    | none => attachPage entry name (segment.contribution position true) siblings
  | segment :: next :: rest, position, name, siblings =>
    let name := extendName name segment.label
    match named? name siblings with
    | some route =>
      (place entry (next :: rest) (position + 1) name route.children).lift fun children =>
        replaceFirst name { route with children } siblings
    | none =>
      (place entry (next :: rest) (position + 1) name []).lift fun children =>
        attach siblings { name, path := segment.contribution position false, children }

/-- Places a page in a forest. -/
def insert (entry : PageEntry) (forest : Forest) : Placement :=
  place entry entry.segments 0 [] forest

/-- Places pages one after another. -/
def insertAll (entries : List PageEntry) (forest : Forest) : Forest × List Notice :=
  entries.foldl
    (fun (forest, notices) entry =>
      let placement := insert entry forest
      (placement.forest, notices ++ placement.notices))
    (forest, [])

end PageRouting.Forest
