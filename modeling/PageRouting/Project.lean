import PageRouting.Compilation
import PageRouting.Disk
import PageRouting.Route.Record
import PageRouting.Settings

/-!
# `PageRouting/Project.lean` — a project directory and its page files

A project is a root directory, the name of the pages directory in it, and the extensions of page files. Its page files
are found on the disk: every file below the pages directory whose name ends in one of the extensions, unless some part
of its path starts with a dot. They are listed by their paths relative to the root, in code-point order.
-/

set_option autoImplicit false

namespace PageRouting

/-- Where a project lies and what counts as a page of it. -/
structure Project where
  /-- the root directory -/
  root : Location
  /-- the pages directory, relative to the root, without slashes around it -/
  pagesDir : Text
  /-- the endings of page files -/
  extensions : List Text
  /-- the host that paths are written for -/
  host : Host := .posix

namespace Project

/-- The project at a path, seen from a working directory; without extensions, the given ones count. -/
def ofPath (workingDirectory : Location) (root pagesDir : Text) (extensions standard : List Text) :
    Except Fault Project :=
  (Location.ofParts workingDirectory [root]).map fun root =>
    { root
      pagesDir := Text.trim '/' pagesDir
      extensions := if extensions = [] then standard else extensions }

/-- The layout of the project's page files. -/
def layout (project : Project) : Layout where
  sourceDir := project.root.text
  pagesDir := project.pagesDir
  extensions := project.extensions
  host := project.host

/-- The components that lead from the root to the pages directory. -/
def pagesComponents (project : Project) : List Text :=
  Location.components project.pagesDir

/-- The absolute path of the pages directory. -/
def pagesPath (project : Project) : DiskPath :=
  .below project.root project.pagesComponents

/-- What there is where the pages directory should be; no name on a disk holds a null character. -/
def pagesPlace (project : Project) (disk : Disk) : Disk.Place :=
  if project.pagesPath.holdsNull then .nowhere .missing else disk.find [] project.pagesPath

/-- Does the last component of a path end like a page file? -/
def isPage (project : Project) (components : List Text) : Bool :=
  project.extensions.any fun extension => decide (extension <:+ components.getLast?.getD [])

/-- Does no component of a path start with a dot? -/
def isVisible (components : List Text) : Bool :=
  components.all fun component => component.head? ≠ some '.'

/-- The visible files below the pages directory, each by its components from the root on. -/
def visibleFiles (project : Project) (disk : Disk) : List (List Text) :=
  match project.pagesPlace disk with
  | .directory location =>
    ((disk.filesBelow location).map fun file => project.pagesComponents ++ file.drop location.length).filter isVisible
  | _ => []

/-- The page files below the pages directory, in order. -/
def pageFiles (project : Project) (disk : Disk) : List Text :=
  stableSort Text.precedes (((project.visibleFiles disk).filter project.isPage).map (Text.join '/'))

/--
The path of a directory below the pages directory that is too long to be asked for. A pages directory whose own path
goes up and down again can have one.
-/
def unlistable? (project : Project) (disk : Disk) : Option DiskPath :=
  match project.pagesPlace disk with
  | .directory location =>
    ((disk.directoriesBelow location).map fun directory =>
      DiskPath.below project.root (project.pagesComponents ++ directory.drop location.length)).find? DiskPath.isTooLong
  | _ => none

/--
The page files of the project, and a warning if there is no pages directory. A path that is too long is no missing
directory but a fault.
-/
def discover (project : Project) (disk : Disk) : Except Fault (List Text) × List Notice :=
  match project.pagesPlace disk with
  | .nowhere .nameTooLong => (.error (.refused project.pagesPath.text .nameTooLong), [])
  | .nowhere _ => (.ok [], [.pagesDirMissing project.pagesPath.text])
  | _ =>
    match project.unlistable? disk with
    | some path => (.error (.refused path.text .nameTooLong), [])
    | none => (.ok (project.pageFiles disk), [])

/-- How the project's routes are recorded. -/
def recordStyle (project : Project) (relative : Bool) : RecordStyle where
  host := project.host
  relativeTo := if relative then some project.root else none

end Project

end PageRouting
