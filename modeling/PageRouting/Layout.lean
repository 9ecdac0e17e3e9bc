import PageRouting.Location
import PageRouting.Segment

/-!
# `PageRouting/Layout.lean` — where page files lie and how they are named

A layout says which directory holds the pages, which extensions mark a page file, and which source directory the paths
of page files are relative to. From it follow the keys of a page file: what remains of its path once the pages root is
taken from the front and the longest known extension from the end, cut at its slashes. A path that does not lie below
the pages root, or that ends in no known extension, is rejected with the reason.
-/

set_option autoImplicit false

namespace PageRouting

/-- Where page files lie and which files are pages. -/
structure Layout where
  /-- the directory that the paths of page files are relative to -/
  sourceDir : Text
  /-- the directory that holds the pages; slashes around it do not count -/
  pagesDir : Text
  /-- the endings that mark a page file -/
  extensions : List Text
  /-- the host that component paths are written for -/
  host : Host

namespace Layout

/-- The pages directory unless another one is named. -/
def defaultPagesDir : Text := "pages".toList

/-- The extensions of page files unless others are named. -/
def defaultExtensions : List Text := [".vue".toList, ".js".toList]

/-- The longer of two candidates, the first if they are equally long. -/
def longer (a b : Text) : Text :=
  if a.length < b.length then b else a

/-- The longest non-empty extension that a file name ends in. -/
def extension? (extensions : List Text) (file : Text) : Option Text :=
  match extensions.filter fun extension => extension ≠ [] ∧ extension <:+ file with
  | [] => none
  | extension :: others => some (others.foldl longer extension)

/-- A file name without its longest known extension. -/
def stem? (extensions : List Text) (file : Text) : Option Text :=
  (extension? extensions file).map fun extension => file.take (file.length - extension.length)

/-- The keys of a path whose extension is gone: repeated slashes count once, those in front not at all. -/
def keysOfStem (stem : Text) : List Text :=
  Text.split '/' (Text.dropLeading '/' (Text.squeeze '/' stem))

/-- The name of the pages root: the pages directory without the slashes around it. -/
def root (layout : Layout) : Text :=
  Text.trim '/' layout.pagesDir

/-- What follows the pages root in the path of a page file; with an empty root, the whole path. -/
def belowRoot? (layout : Layout) (file : Text) : Option Text :=
  if layout.root = [] then some file
  else if layout.root ++ ['/'] <+: file then some (file.drop layout.root.length)
  else none

/-- The keys of a page file. -/
def keys (layout : Layout) (file : Text) : Except Fault (List Text) :=
  match layout.belowRoot? file with
  | none => .error (.outsideRoot file layout.root)
  | some rest =>
    match stem? layout.extensions rest with
    | none => .error (.unknownExtension file layout.extensions)
    | some stem => .ok (keysOfStem stem)

/--
The component path of a page file, or why there is none. The file is followed from the source directory by its text alone; what a
host makes of its links or of the encoding of its name is left to `PageEntry.ofFileWith`.
-/
def componentOf (layout : Layout) (file : Text) : Except Fault Text :=
  Path.absolute layout.host [layout.sourceDir, file]

/-- The segments of a page file. -/
def segments (layout : Layout) (file : Text) : Except Fault (List Segment) :=
  (layout.keys file).map fun keys => keys.map Segment.ofKey

theorem keysOfStem_ne_nil (stem : Text) : keysOfStem stem ≠ [] :=
  Text.split_ne_nil _ _

/-- A page file has at least one key. -/
theorem ne_nil_of_keys {layout : Layout} {file : Text} {keys : List Text} (h : layout.keys file = .ok keys) :
    keys ≠ [] := by
  unfold Layout.keys at h
  split at h
  · cases h
  · split at h
    · cases h
    · cases h
      exact keysOfStem_ne_nil _

end Layout

end PageRouting
