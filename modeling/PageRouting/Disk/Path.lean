import PageRouting.Disk.Refusal
import PageRouting.Location

/-!
# `PageRouting/Disk/Path.lean` — paths as the disk is asked for them

Where a location is a place that has been worked out, a path is a question to the disk: its components may lead up, or
nowhere. Empty components and `.` are left out of it, and of the slashes in front two are kept as they are, while more
count as one. A path without a slash in front is followed from the working directory.
-/

set_option autoImplicit false

namespace PageRouting

/-- A path that the disk is asked for. -/
structure DiskPath where
  /-- the slashes in front, if any -/
  leading : Text
  /-- the components that count, from the first to the last -/
  components : List Text
deriving DecidableEq, Repr

namespace DiskPath

/-- The slashes that a path starts with, if it does: two of them are kept, more count as one. -/
def leadingSlashes (path : Text) : Text :=
  match (path.takeWhile (· == '/')).length with
  | 0 => []
  | 2 => ['/', '/']
  | _ => ['/']

/-- Reads a path. -/
def ofText (path : Text) : DiskPath where
  leading := leadingSlashes path
  components := Location.components path

/-- The path of the components below a location. -/
def below (location : Location) (components : List Text) : DiskPath where
  leading := ['/']
  components := location ++ components

/-- The path in its shortest writing; one that leads nowhere else is a dot. -/
def text (path : DiskPath) : Text :=
  if path.leading = [] ∧ path.components = [] then ['.'] else path.leading ++ Text.join '/' path.components

/-- The path without its last component. -/
def parent (path : DiskPath) : DiskPath :=
  { path with components := path.components.dropLast }

/-- The path with one component more. -/
def child (path : DiskPath) (name : Text) : DiskPath :=
  { path with components := path.components ++ [name] }

/-- Where the path is followed from. -/
def start (path : DiskPath) (workingDirectory : Location) : Location :=
  if path.leading = [] then workingDirectory else []

/-- Is there a null character in the path? -/
def holdsNull (path : DiskPath) : Bool :=
  Location.holdsNull path.components

/-- Is the path too long as a whole? -/
def isTooLong (path : DiskPath) : Bool :=
  Refusal.isLongPath path.text

end DiskPath

end PageRouting
