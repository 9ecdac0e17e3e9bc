import PageRouting.Layout

/-!
# `PageRouting/PageEntry.lean` — a page file ready to be placed

An entry is a page file with everything the forest needs to know of it: its segments, the path of its component and the
name of its chunk. Entries are ordered by their keys and then by their paths, both by code point, so that a directory's
page comes before the pages below it and no two files tie (`file_eq_of_compare_eq`).
-/

set_option autoImplicit false

namespace PageRouting

/-- A page file that has been read. -/
structure PageEntry where
  /-- the path of the file, relative to the source directory -/
  file : Text
  /-- the absolute path of the component, or its alias -/
  component : Text
  /-- the name of the chunk that the component is built into: the path without its extension -/
  chunkName : Option Text
  /-- the keys of the file, each by its role -/
  segments : List Segment
deriving DecidableEq, Repr

namespace PageEntry

/--
Reads a page file, with its component path from elsewhere. It is rejected for its place or its ending, or else it may have no
component path, for whatever causes there are.
-/
def ofFileWith {ε : Type} (resolve : Text → Except ε Text) (layout : Layout) (file : Text) : Except (Fault ⊕ ε) PageEntry := do
  let segments ← (layout.segments file).mapError .inl
  let component ← (resolve file).mapError .inr
  return { file, component, chunkName := Layout.stem? layout.extensions file, segments }

/-- Reads a page file, with the component path that its text gives it. -/
def ofFile (layout : Layout) (file : Text) : Except Fault PageEntry :=
  (ofFileWith layout.componentOf layout file).mapError (Sum.elim id id)

/-- The keys of the file. -/
def keys (entry : PageEntry) : List Text :=
  entry.segments.map Segment.key

/-- What each segment adds to the pattern under which the page is mounted. -/
def contributions (entry : PageEntry) : List Text :=
  entry.segments.mapIdx fun position segment =>
    segment.contribution position (position + 1 = entry.segments.length)

/-- The order in which entries are placed: by keys, then by file. -/
protected def compare (a b : PageEntry) : Ordering :=
  (Text.compareAll a.keys b.keys).then (Text.compare a.file b.file)

/-- Is the first entry placed before the second? -/
def precedes (a b : PageEntry) : Bool :=
  PageEntry.compare a b == .lt

/-- The entries in the order in which they are placed. -/
def sort (entries : List PageEntry) : List PageEntry :=
  stableSort precedes entries

/-- Entries tie only if they are of the same file. -/
theorem file_eq_of_compare_eq {a b : PageEntry} (h : PageEntry.compare a b = .eq) : a.file = b.file :=
  Text.compare_eq_eq.mp (Ordering.then_eq_eq.mp h).2

end PageEntry

end PageRouting
