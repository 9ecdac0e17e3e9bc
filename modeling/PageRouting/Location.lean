import PageRouting.Fault
import PageRouting.Host

/-!
# `PageRouting/Location.lean` — absolute places and the way from one to another

Paths are resolved by their text alone: parts are joined left to right, a part that starts with a slash discards those
before it, empty components and `.` are dropped, and `..` takes back the component before it, or nothing at the root.
What remains is a location, the list of names from the root down. A null character cannot stand in a name: parts that
hold one lead nowhere, unless a later part discards them. Nothing else is refused, since the disk is not asked: links are
not followed, and parts that do not start with a slash count from the root, where a working directory would come first.

A path that starts with `@` or `~` is an alias which a bundler resolves later; it stands for itself.
-/

set_option autoImplicit false

namespace PageRouting

/-- An absolute place: the names from the root down. -/
abbrev Location := List Text

namespace Location

/-- The components of a path: empty ones and `.` say nothing. -/
def components (path : Text) : List Text :=
  (Text.split '/' path).filter fun component => component ≠ [] ∧ component ≠ ['.']

/-- One step from a location. -/
def step (location : Location) (component : Text) : Location :=
  if component = ['.', '.'] then location.dropLast else location ++ [component]

/-- Follows a path from a location; from the root, if the path starts with a slash. -/
def follow (location : Location) (path : Text) : Location :=
  (components path).foldl step (if path.head? = some '/' then [] else location)

/-- Where the parts lead, each followed from where those before it ended; the first one is followed from `start`. -/
def resolve (start : Location) (parts : List Text) : Location :=
  parts.foldl follow start

/-- The parts that count: those from the last one that starts with a slash. -/
def effective (parts : List Text) : List Text :=
  parts.foldl (fun kept part => if part.head? = some '/' then [part] else kept ++ [part]) []

/-- Is there a null character in any of the texts? -/
def holdsNull (texts : List Text) : Bool :=
  texts.any fun text => decide ('\x00' ∈ text)

/-- Where the parts lead, if there is such a place. -/
def ofParts (start : Location) (parts : List Text) : Except Fault Location :=
  if holdsNull (effective parts) then .error .nullInPath else .ok (resolve start parts)

/-- The location as a path. -/
def text (location : Location) : Text :=
  '/' :: Text.join '/' location

/-- The names that two locations share from the root down. -/
def common : Location → Location → Location
  | a :: as, b :: bs => if a = b then a :: common as bs else []
  | _, _ => []

/-- The components that lead from a directory to a target: up to where the ways part, then down. -/
def between (directory target : Location) : List Text :=
  let shared := (common directory target).length
  List.replicate (directory.length - shared) ['.', '.'] ++ target.drop shared

/-- A relative path that is written with a leading dot, so that it is not taken for a package name. -/
def relativeText (directory target : Location) : Text :=
  match between directory target with
  | [] => ['.']
  | components =>
    let path := Text.join '/' components
    if path.head? = some '.' then path else '.' :: '/' :: path

end Location

/-! ## Paths put together from parts -/

namespace Path

/-- Does the path stand for something that a bundler resolves later? -/
def isAlias (path : Text) : Bool :=
  path.head? = some '@' || path.head? = some '~'

/--
The absolute path that the parts lead to, or the alias that ends them. It depends on the text of the parts alone: the first of
them counts from the root, links are not followed, and no parts are refused but for a null character.
-/
def absolute (host : Host) (parts : List Text) : Except Fault Text :=
  match parts.getLast? with
  | none => .error .noPathParts
  | some last =>
    if isAlias last then .ok (host.componentPath last)
    else (Location.ofParts [] parts).map fun target => host.componentPath target.text

/-- The way from a directory to where the parts lead, or the alias that ends them. -/
def relative (host : Host) (directory : Text) (parts : List Text) : Except Fault Text :=
  match parts.getLast? with
  | none => .error .noPathParts
  | some last =>
    if isAlias last then .ok (host.componentPath last)
    else do
      let target ← Location.ofParts [] parts
      let directory ← Location.ofParts [] [directory]
      return host.componentPath (Location.relativeText directory target)

end Path

end PageRouting
