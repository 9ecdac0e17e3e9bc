import PageRouting.Forest.Flat
import PageRouting.Project
import PageRouting.Session.Framework

/-!
# `PageRouting/Session.lean` — a project that is read again and again

The first read of a session finds the project's page files, compiles them, and keeps the listing and the forest, each in a
cache of its own. Later reads answer from the caches, whatever happens on the disk, until they are emptied. A read that cannot
compile keeps nothing, so that the next one tries again.
-/

set_option autoImplicit false

namespace PageRouting

/-- A listing of page files, and the forest that it was compiled to. -/
structure Snapshot where
  files : List Text
  forest : Forest

/-- A project on a disk, and what has been kept of it. -/
structure Session where
  project : Project
  disk : Disk
  /-- the path that flat routes are put behind -/
  base : Text
  /-- the framework that hands requests over -/
  gateway : Gateway := .standard
  /-- the listing of page files that the kept forest was compiled from -/
  keptFiles : Option (List Text) := none
  keptForest : Option Forest := none

/-- What an operation on a session gives: its result, the session afterwards, and what was done. -/
structure Reading (α : Type) where
  result : Except Fault α
  session : Session
  notices : List Notice

/-- A result without anything done. -/
def Reading.of {α : Type} (session : Session) (value : α) : Reading α :=
  { result := .ok value, session, notices := [] }

/-- The same reading with another result. -/
def Reading.map {α β : Type} (f : α → β) (reading : Reading α) : Reading β :=
  { reading with result := reading.result.map f }

/-- What there is to count in a project. -/
structure Statistics where
  projectRoot : Text
  pagesDir : Text
  pages : Nat
  routes : Nat
  wrappers : Nat
deriving DecidableEq, Repr

namespace Statistics

/-- The version of the program. -/
def version : Text := "0.1.0".toList

/-- The statistics by their names. -/
def fields (statistics : Statistics) : List (Text × Json) :=
  [("project_root".toList, .str statistics.projectRoot), ("pages_dir".toList, .str statistics.pagesDir),
   ("pages".toList, .num statistics.pages), ("routes".toList, .num statistics.routes),
   ("wrappers".toList, .num statistics.wrappers)]

/-- The statistics with the version of the program. -/
def versioned (statistics : Statistics) : Json :=
  .obj (statistics.fields ++ [("version".toList, .str version)])

end Statistics

namespace Session

/-- The kept listing with the kept forest, if there are both. -/
def snapshot (session : Session) : Option Snapshot :=
  match session.keptFiles, session.keptForest with
  | some files, some forest => some { files, forest }
  | _, _ => none

/-- The page files that are on the disk now. -/
def discover (session : Session) : Reading (List Text) :=
  let (result, notices) := session.project.discover session.disk
  { result, session, notices }

/-- The forest: the kept one, or else compiled now and kept with its listing. -/
def forest (session : Session) : Reading Forest :=
  match session.keptForest with
  | some forest => .of session forest
  | none =>
    match session.project.discover session.disk with
    | (.error fault, notices) => { result := .error fault, session, notices }
    | (.ok files, found) =>
      let compilation := compile session.project.layout files
      let notices := found ++ compilation.notices
      match compilation.result with
      | .error fault => { result := .error fault, session, notices }
      | .ok forest =>
        { result := .ok forest
          session := { session with keptFiles := some files, keptForest := some forest }
          notices := notices ++ [.resolved files.length forest.length] }

/-- The paths that the project serves. -/
def flatPaths (session : Session) : Reading (List Text) :=
  session.forest.map Forest.flatPaths

/-- The paths that the project serves without parameters. -/
def staticPaths (session : Session) : Reading (List Text) :=
  session.forest.map Forest.staticPaths

/-- The records of the project's routes. -/
def records (session : Session) (relative : Bool) : Reading Json :=
  session.forest.map (Forest.records (session.project.recordStyle relative))

/-- The statistics of a listing and its forest. -/
def count (project : Project) (files : List Text) (forest : Forest) : Statistics where
  projectRoot := project.root.text
  pagesDir := project.pagesPath.text
  pages := files.length
  routes := forest.nodes.length
  wrappers := (forest.nodes.filter Route.isWrapper).length

/-- The statistics of the project: page files of the kept listing, routes and wrappers of the forest. -/
def statistics (session : Session) : Reading Statistics :=
  let reading := session.forest
  reading.map (count session.project (reading.session.keptFiles.getD []))

/-- Empties the caches. -/
def invalidate (session : Session) : Reading Unit :=
  { result := .ok (), session := { session with keptFiles := none, keptForest := none }, notices := [.invalidated] }

/--
Collapses the kept forest once more. What the pass has changed is kept even if it stops at a fault.
-/
def collapse (session : Session) (isChild : Bool) : Reading Forest :=
  let reading := session.forest
  match reading.result with
  | .error _ => reading
  | .ok forest =>
    let collapsed := forest.collapse isChild
    { result := match collapsed.fault with
        | none => .ok collapsed.value
        | some fault => .error fault
      session := { reading.session with keptForest := some collapsed.value }
      notices := reading.notices ++ collapsed.notices }

end Session

end PageRouting
