import PageRouting.Json
import PageRouting.Location
import PageRouting.Route.Basic

/-!
# `PageRouting/Route/Record.lean` — routes as the records that the router reads

A record has the fields `name`, `path`, `component`, `chunkName` and `children`, in this order; what a route does not
have is left out. Component paths can be written relative to a directory.
-/

set_option autoImplicit false

namespace PageRouting

/-- How the fields of a record are written. -/
structure RecordStyle where
  /-- the host that paths and chunk names are written for -/
  host : Host := .posix
  /-- the directory that component paths are relative to, if any -/
  relativeTo : Option Location := none

namespace RecordStyle

/-- A component path as the record gives it. -/
def component (style : RecordStyle) (path : Text) : Text :=
  match style.relativeTo with
  | none => path
  | some directory =>
    style.host.componentPath
      (if Path.isAlias path then path else Location.relativeText directory (Location.resolve [] [path]))

end RecordStyle

namespace Route

mutual

/-- The record of a route. -/
def record (style : RecordStyle) : Route → Json
  | ⟨name, path, component, chunkName, children⟩ =>
    .obj (
      (match name with
        | none => []
        | some name => [("name".toList, .str name)]) ++
      [("path".toList, .str path)] ++
      (match component with
        | none => []
        | some component => [("component".toList, .str (style.component component))]) ++
      (match chunkName with
        | none => []
        | some chunk => [("chunkName".toList, .str (style.host.chunkName chunk))]) ++
      (match children with
        | [] => []
        | child :: others =>
          [("children".toList, .arr (child.record style :: recordsOfAll style others))]))

/-- The records of siblings. -/
def recordsOfAll (style : RecordStyle) : List Route → List Json
  | [] => []
  | route :: siblings => route.record style :: recordsOfAll style siblings

end

end Route

namespace Forest

/-- The records of a forest. -/
def records (style : RecordStyle) (forest : Forest) : Json :=
  .arr (Route.recordsOfAll style forest)

/-- Does the forest hold a component that is not an alias? -/
def hasLocatedPage (forest : Forest) : Bool :=
  forest.pages.any fun (component, _) => !Path.isAlias component

/--
The records of a forest with component paths relative to the directory at a path. It does not matter that the path leads
nowhere as long as there is nothing to be related to it.
-/
def recordsFrom (host : Host) (directory : Text) (forest : Forest) : Except Fault Json :=
  match Location.ofParts [] [directory] with
  | .ok location => .ok (forest.records { host, relativeTo := some location })
  | .error fault => if forest.hasLocatedPage then .error fault else .ok (forest.records { host })

end Forest

end PageRouting
