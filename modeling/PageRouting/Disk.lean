import PageRouting.Disk.Path

/-!
# `PageRouting/Disk.lean` — directories and files

A disk is a set of directories and a set of files with their text, each at its location; the root is always a
directory. Paths are followed component by component, as the host system does it: `..` leads to the parent of a
directory that exists, and nothing lies below a file. The first component that leads nowhere says why.

A change can stop half way. What it has done until then stays, so that every change gives a disk beside its result
(`Disk.Change`).
-/

set_option autoImplicit false

namespace PageRouting

/-- The directories and files of a disk. -/
structure Disk where
  directories : List Location := []
  files : List (Location × Text) := []

namespace Disk

/-! ## Looking -/

/-- What a path leads to. -/
inductive Place where
  | directory (location : Location)
  | file (location : Location)
  /-- the path leads nowhere, for the given cause -/
  | nowhere (cause : Refusal)
deriving DecidableEq, Repr

/-- Is there a directory at a location? The root always is one. -/
def isDirectory (disk : Disk) (location : Location) : Bool :=
  decide (location = []) || decide (location ∈ disk.directories)

/-- Is there a file at a location? -/
def isFile (disk : Disk) (location : Location) : Bool :=
  disk.files.any fun file => file.1 = location

/-- What has a name in a directory. -/
def named (disk : Disk) (directory : Location) (name : Text) : Place :=
  let location := directory ++ [name]
  if Refusal.isLongName name then .nowhere .nameTooLong
  else if disk.isDirectory location then .directory location
  else if disk.isFile location then .file location
  else .nowhere .missing

/-- One component further. -/
def step (disk : Disk) (place : Place) (component : Text) : Place :=
  match place with
  | .directory location =>
    if component = ['.', '.'] then .directory location.dropLast else disk.named location component
  | .file _ => .nowhere .notADirectory
  | .nowhere cause => .nowhere cause

/-- What a path leads to, seen from a working directory. -/
def find (disk : Disk) (workingDirectory : Location) (path : DiskPath) : Place :=
  if path.isTooLong then .nowhere .nameTooLong
  else path.components.foldl disk.step (.directory (path.start workingDirectory))

/-- The directories below a location, each behind the one that it lies in. -/
def directoriesBelow (disk : Disk) (location : Location) : List Location :=
  disk.directories.filter fun directory => location <+: directory ∧ directory ≠ location

/-- The files below a location. -/
def filesBelow (disk : Disk) (location : Location) : List Location :=
  (disk.files.map Prod.fst).filter fun file => location <+: file ∧ file ≠ location

/-! ## Changing one thing -/

/-- The disk with one more directory. -/
def addDirectory (disk : Disk) (location : Location) : Disk :=
  if disk.isDirectory location then disk else { disk with directories := disk.directories ++ [location] }

/-- The disk with a directory and all those above it. -/
def addDirectories (disk : Disk) (location : Location) : Disk :=
  (List.range location.length).foldl (fun disk depth => disk.addDirectory (location.take (depth + 1))) disk

/-- The disk with a text at a location, in place of any file there. -/
def putFile (disk : Disk) (location : Location) (text : Text) : Disk :=
  { disk with files := disk.files.filter (fun file => file.1 ≠ location) ++ [(location, text)] }

/-- The disk without what is at a location, a file or a directory with all it holds. -/
def erase (disk : Disk) (location : Location) : Disk where
  directories := disk.directories.filter fun directory => ¬ location <+: directory
  files := disk.files.filter fun file => ¬ location <+: file.1

/-! ## Changes that can be refused -/

/-- What comes of a change: its result, and the disk as the change has left it. -/
structure Change (α : Type) where
  result : Except Fault α
  disk : Disk

/-- A change that stops at a path. -/
def refuse {α : Type} (disk : Disk) (path : DiskPath) (refusal : Refusal) : Change α :=
  { result := .error (.refused path.text refusal), disk }

/-- Makes the last component of a path a directory in the one above it, unless it is one already. -/
def makeDirectory (disk : Disk) (above : Location) (name : Text) (path : DiskPath) : Change Location :=
  match disk.step (.directory above) name with
  | .directory location => { result := .ok location, disk }
  | .file _ => disk.refuse path .taken
  | .nowhere .missing =>
    { result := .ok (above ++ [name]), disk := { disk with directories := disk.directories ++ [above ++ [name]] } }
  | .nowhere cause => disk.refuse path cause

/--
Makes the directory that the components lead to, and those above it that are missing. The components come last first; a
refusal names the path of the directory that could not be made.
-/
def makeReversed (disk : Disk) (workingDirectory : Location) (leading : Text) : List Text → Change Location
  | [] => { result := .ok (DiskPath.start ⟨leading, []⟩ workingDirectory), disk }
  | name :: above =>
    let path : DiskPath := ⟨leading, (name :: above).reverse⟩
    if path.isTooLong then disk.refuse path .nameTooLong
    else
      match disk.find workingDirectory path.parent with
      | .directory location => disk.makeDirectory location name path
      | .file _ => disk.refuse path .notADirectory
      | .nowhere .missing =>
        let made := makeReversed disk workingDirectory leading above
        match made.result with
        | .ok location => made.disk.makeDirectory location name path
        | .error _ => made
      | .nowhere cause => disk.refuse path cause

/-- Makes a directory and those above it that are missing; one that is there already is fine. -/
def makeDirectories (disk : Disk) (workingDirectory : Location) (path : DiskPath) : Change Location :=
  if path.holdsNull then { result := .error .nullInPath, disk }
  else disk.makeReversed workingDirectory path.leading path.components.reverse

/-- What the last component of a path leads to, from the directory that the others lead to. -/
def entry (disk : Disk) (directory : Location) (path : DiskPath) : Place :=
  if path.isTooLong then .nowhere .nameTooLong
  else path.components.getLast?.toList.foldl disk.step (.directory directory)

/-- Puts a text at a path, in place of any file there; the components above the last one lead to the given directory. -/
def writeIn (disk : Disk) (directory : Location) (path : DiskPath) (text : Text) : Change Unit :=
  if path.holdsNull then { result := .error .nullInPath, disk }
  else
    match disk.entry directory path with
    | .directory _ => disk.refuse path .isADirectory
    | .file location => { result := .ok (), disk := disk.putFile location text }
    | .nowhere .missing =>
      { result := .ok (), disk := disk.putFile (directory ++ path.components.getLast?.toList) text }
    | .nowhere cause => disk.refuse path cause

/-- Puts a text at a path, in place of any file there, with all directories that it needs. -/
def write (disk : Disk) (workingDirectory : Location) (path : DiskPath) (text : Text) : Change Unit :=
  let made := disk.makeDirectories workingDirectory path.parent
  match made.result with
  | .ok directory => made.disk.writeIn directory path text
  | .error fault => { result := .error fault, disk := made.disk }

/-- Removes what a path leads to, a file or a directory with all it holds. -/
def remove (disk : Disk) (workingDirectory : Location) (path : DiskPath) : Change Unit :=
  if path.holdsNull then { result := .error .nullInPath, disk }
  else
    match disk.find workingDirectory path with
    | .directory location => { result := .ok (), disk := disk.erase location }
    | .file location => { result := .ok (), disk := disk.erase location }
    | .nowhere cause => disk.refuse path cause

end Disk

end PageRouting
