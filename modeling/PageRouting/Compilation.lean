import PageRouting.Forest.Collapse
import PageRouting.Forest.Insertion

/-!
# `PageRouting/Compilation.lean` — from page files to the forest that the router gets

Page files are read, put into the order of their keys, placed one after another, and the forest is collapsed. The files
may come in any order and more than once; a file that the layout rejects stops the compilation before anything is
placed.
-/

set_option autoImplicit false

namespace PageRouting

/-- What a compilation results in. -/
structure Compilation where
  /-- the forest, or why there is none -/
  result : Except Fault Forest
  /-- what was done -/
  notices : List Notice

namespace Compilation

/--
The entries of the files in the order in which they are placed, with their component paths from elsewhere; the first file that
cannot be read says why there are none.
-/
def entriesWith {ε : Type} (resolve : Text → Except ε Text) (layout : Layout) (files : List Text) :
    Except (Fault ⊕ ε) (List PageEntry) :=
  ((Text.distinct files).mapM (PageEntry.ofFileWith resolve layout)).map PageEntry.sort

/-- The entries of the files, with the component paths that their texts give them. -/
def entries (layout : Layout) (files : List Text) : Except Fault (List PageEntry) :=
  (entriesWith layout.componentOf layout files).mapError (Sum.elim id id)

/-- The forest of the entries before its collapse, with the notices of placing them. -/
def build (entries : List PageEntry) : Forest × List Notice :=
  Forest.insertAll entries []

/-- Compiles entries that are in their order. -/
def ofEntries (entries : List PageEntry) : Compilation :=
  let (forest, placing) := build entries
  let collapsed := forest.collapse false
  let notices := placing ++ .built entries.length :: collapsed.notices
  match collapsed.fault with
  | some fault => { result := .error fault, notices }
  | none => { result := .ok collapsed.value, notices := notices ++ [.compiled] }

end Compilation

/--
Compiles page files to the forest that the router gets, with their component paths from elsewhere. A file without one stops the
compilation for a cause that is not its own.
-/
def compileWith {ε : Type} (resolve : Text → Except ε Text) (layout : Layout) (files : List Text) : Except ε Compilation :=
  match Compilation.entriesWith resolve layout files with
  | .error (.inl fault) => .ok { result := .error fault, notices := [] }
  | .error (.inr cause) => .error cause
  | .ok entries => .ok (Compilation.ofEntries entries)

/-- Compiles page files to the forest that the router gets, with the component paths that their texts give them. -/
def compile (layout : Layout) (files : List Text) : Compilation :=
  match compileWith layout.componentOf layout files with
  | .ok compilation => compilation
  | .error fault => { result := .error fault, notices := [] }

end PageRouting
