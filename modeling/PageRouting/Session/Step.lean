import PageRouting.Session.Service

/-!
# `PageRouting/Session/Step.lean` — what can happen to a session

A session lives through steps: the disk changes, the project is read in one of several ways, the kept forest is
collapsed again or forgotten, a request is answered. Every step gives a reading, and with it the session for the next
one (`Session.run`).

The paths of changes are followed from the root. A change that the host system refuses is the step's fault.
-/

set_option autoImplicit false

namespace PageRouting

/-- One thing that happens to a session. -/
inductive Step where
  /-- a file appears, or gets another text -/
  | write (path : DiskPath) (text : Text)
  /-- a directory appears -/
  | makeDirectory (path : DiskPath)
  /-- a file or a whole directory disappears -/
  | remove (path : DiskPath)
  | discover
  | flat
  | static
  | tree (relative : Bool)
  | statistics
  | invalidate
  | collapse (isChild : Bool)
  /-- a project is compiled on its own, apart from what is kept -/
  | compile (project : Project)
  | request (request : Request)

/-- What a step answers. -/
inductive Answer where
  | nothing
  | paths (paths : List Text)
  | records (records : Json)
  | statistics (statistics : Statistics)
  | forest (forest : Forest)
  | response (response : Response)

namespace Session

/-- The session after a change to its disk, even one that stopped half way. -/
def change {α : Type} (session : Session) (change : Disk.Change α) : Reading Answer :=
  { result := change.result.map fun _ => .nothing, session := { session with disk := change.disk }, notices := [] }

/-- Compiles a project from the disk as it is now and keeps nothing of it. -/
def compileApart (session : Session) (project : Project) : Reading Forest :=
  let reading := ({ session with project, keptFiles := none, keptForest := none } : Session).forest
  { reading with session }

/-- One step. -/
def step (session : Session) : Step → Reading Answer
  | .write path text => session.change (session.disk.write [] path text)
  | .makeDirectory path => session.change (session.disk.makeDirectories [] path)
  | .remove path => session.change (session.disk.remove [] path)
  | .discover => session.discover.map .paths
  | .flat => session.flatPaths.map .paths
  | .static => session.staticPaths.map .paths
  | .tree relative => (session.records relative).map .records
  | .statistics => session.statistics.map .statistics
  | .invalidate => session.invalidate.map fun _ => .nothing
  | .collapse isChild => (session.collapse isChild).map .forest
  | .compile project => (session.compileApart project).map .forest
  | .request request => (Service.respond request session).map .response

/-- The readings of several steps, one after another. -/
def run (session : Session) : List Step → List (Reading Answer)
  | [] => []
  | step :: steps =>
    let reading := session.step step
    reading :: reading.session.run steps

end Session

end PageRouting
