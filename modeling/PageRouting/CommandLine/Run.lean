import PageRouting.CommandLine.Invocation
import PageRouting.Session.Service

/-!
# `PageRouting/CommandLine/Run.lean` — carrying out an invocation

An invocation is carried out in a world: a disk, a working directory on it, the settings, and what the host system says: how
long a compilation took, what name is free for a document that is not complete yet, and which characters stand for bytes of
names. What comes out is told apart by channel: the exit status, or the fault that ends the program without one; the text on
the standard output and on the error output; the disk afterwards; and the server to be started, if any.

Characters that stand for bytes of a name that is not UTF-8 have no encoding. In ASCII they are escaped, but a document
and a line of the standard output stop in front of them, with a fault.

Notices go to the error output, one line each, from the level that the command asks for. Where page files are rejected,
`routes` says so there and ends with status 1, without writing anything.

Options without a value are put up with where nothing depends on them. No project is to be found without the name of its
pages directory. An extension without a text is compared with a file only if no extension in front of it fits, and it
cannot be listed where a file is rejected for its ending.
-/

set_option autoImplicit false

namespace PageRouting.CommandLine

/-- What an invocation is carried out in. -/
structure World where
  disk : Disk
  workingDirectory : Location
  settings : Settings
  /-- how long a compilation takes, in words -/
  elapsed : Text
  /-- a name that nothing has, under which a document is kept until it is complete -/
  temporaryName : Text := "document".toList
  /-- which characters of the names on the disk stand for bytes -/
  strays : Strays := {}

/-- A server that is to be started. -/
structure Serving where
  session : Session
  host : Option Text
  port : Option Int

/-- What carrying out an invocation results in. -/
structure Outcome where
  /-- the exit status, or the fault that ends the program -/
  exit : Except Fault Nat
  stdout : Text := []
  stderr : Text := []
  disk : Disk
  serving : Option Serving := none

/-! ## Notices -/

/-- The lines of the notices that are important enough. -/
def noticeLines (elapsed : Text) (threshold : Level) (notices : List Notice) : Text :=
  (Notice.atLeast threshold notices).flatMap fun notice => "[pagetree] ".toList ++ notice.line elapsed ++ ['\n']

/-! ## Documents -/

/--
Puts a document into a directory that exists, under the last component of its path; where that is a directory, into that
one, under the name that it was kept under until then.
-/
def putDocument (disk : Disk) (temporaryName : Text) (directory : Location) (path : DiskPath) (content : Text) :
    Disk.Change Unit :=
  match disk.entry directory path with
  | .directory location => disk.writeIn location (path.child temporaryName) content
  | _ => disk.writeIn directory path content

/--
Gives up a document that is to stand at a path. What the host system refuses is told by that path, and cleared away; with
any other fault stays what has been written.
-/
def giveUp (path : Text) (cleared left : Disk) (fault : Fault) : Disk.Change Unit × List Notice :=
  match fault with
  | .refused refused refusal =>
    let reason := Fault.message (.refused refused refusal)
    ({ result := .error (.unwritable (.denied path reason)), disk := cleared }, [.writeFailed path reason])
  | fault => ({ result := .error fault, disk := left }, [])

/--
Puts a document at a path, into a directory that exists. Until it is complete the document is kept there under the
temporary name, and under that name it stays behind if it cannot be encoded, with no text yet, or if the last name of the
path holds a null character.
-/
def writeDocumentIn (strays : Strays) (disk : Disk) (temporaryName : Text) (directory : Location) (path content : Text) :
    Disk.Change Unit × List Notice :=
  let target := DiskPath.ofText path
  let draft := disk.writeIn directory (target.parent.child temporaryName)
  match (draft []).result with
  | .error fault => giveUp path disk disk fault
  | .ok () =>
    match strays.first? content with
    | some run => giveUp path disk (draft []).disk (.unwritable (.unencodable run))
    | none =>
      let written := putDocument disk temporaryName directory target content
      match written.result with
      | .error fault => giveUp path disk (draft content).disk fault
      | .ok () => (written, [])

/--
Puts a document on the disk, with all directories that it needs. If one of these cannot be made, that is told by its path
as well.
-/
def writeDocument (strays : Strays) (disk : Disk) (workingDirectory : Location) (temporaryName path content : Text) :
    Disk.Change Unit × List Notice :=
  let parent := (DiskPath.ofText path).parent
  let made := disk.makeDirectories workingDirectory parent
  match made.result with
  | .error (.refused refused refusal) =>
    let reason := Fault.message (.refused refused refusal)
    let failure := "Cannot create directory ".toList ++ parent.text ++ ": ".toList ++ reason
    ({ result := .error (.unwritable (.denied path failure)), disk := made.disk },
     [.directoryFailed parent.text reason, .writeFailed path failure])
  | .error fault => ({ result := .error fault, disk := made.disk }, [])
  | .ok directory => writeDocumentIn strays made.disk temporaryName directory path content

/-! ## The commands -/

/-- What the command `routes` shows, as a value; the flat views are lists of paths. -/
inductive Shown where
  | records (value : Json)
  | paths (texts : List Text)

namespace Shown

/-- The shown value as a document. -/
def json : Shown → Json
  | .records value => value
  | .paths texts => Json.ofTexts texts

/-- The text of the document: characters beyond ASCII as they are, and a final newline. -/
def document (shown : Shown) : Text :=
  shown.json.render .unicode ++ ['\n']

/-- The lines that are printed one at a time; records are in ASCII, and are not. -/
def lines : Shown → List Text
  | .records _ => []
  | .paths texts => texts

/-- The text on the standard output: records in ASCII, paths one per line. -/
def output : Shown → Text
  | .records value => value.render .ascii ++ ['\n']
  | .paths texts => texts.flatMap fun path => path ++ ['\n']

/-- What gets to the standard output, and the exit status, or the fault that the first line without an encoding ends with. -/
def print (strays : Strays) : Shown → Except Fault Nat × Text
  | .records value => (.ok 0, output (.records value))
  | .paths texts =>
    match texts.findSome? strays.first? with
    | none => (.ok 0, output (.paths texts))
    | some run =>
      (.error (.unwritable (.unencodable run)), output (.paths (texts.takeWhile fun text => (strays.first? text).isNone)))

end Shown

/-- A session on a project of the world's disk. -/
def World.session (world : World) (project : Project) (base : Text) : Session where
  project := project
  disk := world.disk
  base := base

/-- The project that a command names: at its root, with its pages directory. -/
def World.project (world : World) (root : Text) (pagesDir : Option Text) (extensions : List Text) :
    Except Fault Project := do
  let project ← Project.ofPath world.workingDirectory root (pagesDir.getD []) extensions world.settings.extensions
  match pagesDir with
  | none => .error .unnamedPagesDir
  | some _ => .ok project

namespace RoutesOptions

/-- The extensions that have a text. -/
def knownExtensions (options : RoutesOptions) : List Text :=
  options.extensions.filterMap id

/-- The extensions in front of the first one without a text, if there is one. -/
def extensionsBeforeBlank? (options : RoutesOptions) : Option (List Text) :=
  if none ∈ options.extensions then some ((options.extensions.takeWhile Option.isSome).filterMap id) else none

/-- The project that the options of `routes` name. -/
def project (options : RoutesOptions) (world : World) : Except Fault Project :=
  world.project options.root options.pagesDir options.knownExtensions

/-- What the options of `routes` ask to see. -/
def showIn (options : RoutesOptions) (session : Session) : Reading Shown :=
  match options.view with
  | .tree => (session.records options.relative).map .records
  | .flat => session.flatPaths.map .paths
  | .static => session.staticPaths.map .paths

/-- Is there a file that is compared with an extension without a text? -/
def dependsOnBlank (options : RoutesOptions) (project : Project) (disk : Disk) : Bool :=
  match options.extensionsBeforeBlank? with
  | none => false
  | some extensions =>
    (project.visibleFiles disk).any fun file => !({ project with extensions } : Project).isPage file

/-- The fault of a reading, where an extension without a text would have to be listed. -/
def refine (options : RoutesOptions) : Fault → Fault
  | .unknownExtension file known =>
    if none ∈ options.extensions then .unlistedExtensions else .unknownExtension file known
  | fault => fault

/-- Reads the project that the options name. -/
def read (options : RoutesOptions) (world : World) : Except Fault Shown × List Notice :=
  match options.project world with
  | .error fault => (.error fault, [])
  | .ok project =>
    if options.dependsOnBlank project world.disk then (.error .blankExtension, [])
    else
      let reading := options.showIn (world.session project world.settings.base)
      (reading.result.mapError options.refine, reading.notices)

end RoutesOptions

/-- Carries out the command `routes`. -/
def runRoutes (world : World) (options : RoutesOptions) : Outcome :=
  let lines := noticeLines world.elapsed (if options.verbose then .debug else .warning)
  match options.read world with
  | (.error fault, notices) =>
    if fault.isRejectedPage then
      { exit := .ok 1
        stderr := lines notices ++ "Error: ".toList ++ fault.message ++ ['\n']
        disk := world.disk }
    else { exit := .error fault, stderr := lines notices, disk := world.disk }
  | (.ok shown, notices) =>
    let output := options.output.getD []
    if output = [] then
      let (exit, stdout) := shown.print world.strays
      { exit, stdout, stderr := lines notices, disk := world.disk }
    else
      let (written, more) :=
        writeDocument world.strays world.disk world.workingDirectory world.temporaryName output shown.document
      match written.result with
      | .error fault => { exit := .error fault, stderr := lines (notices ++ more), disk := written.disk }
      | .ok _ => { exit := .ok 0, stderr := lines (notices ++ more ++ [.wrote output]), disk := written.disk }

/-- Carries out the command `dev`: everything up to the start of the server. -/
def runServe (world : World) (options : ServeOptions) : Outcome :=
  match world.project options.root options.pagesDir [] with
  | .error fault => { exit := .error fault, disk := world.disk }
  | .ok project =>
    let notices : List Notice :=
      [.starting project.root.text, .serving project.pagesPath.text options.host options.port]
    { exit := .ok 0
      stderr := noticeLines world.elapsed (if options.verbose then .debug else .info) notices
      disk := world.disk
      serving := some
        { session := world.session project (options.base.getD []), host := options.host, port := options.port } }

/-- How the program is called. -/
def usage : Text :=
  ("usage: pagetree [-h] COMMAND ...\n" ++
    "       pagetree routes [-h] [--pages-dir DIR] [--ext EXT]... [--flat | --static] [--relative]\n" ++
    "                       [--output FILE] [--verbose] [PROJECT]\n" ++
    "       pagetree dev [-h] [--pages-dir DIR] [--host HOST] [--port PORT] [--base BASE] [--verbose] [PROJECT]\n").toList

/-- Carries out an invocation. -/
def carryOut (world : World) : Invocation → Outcome
  | .routes options => runRoutes world options
  | .serve options => runServe world options
  | .help => { exit := .ok 0, stdout := usage, disk := world.disk }
  | .misuse => { exit := .ok 2, stderr := usage, disk := world.disk }

/-- Runs the program on an argument list. -/
def run (world : World) (arguments : List Text) : Outcome :=
  carryOut world (Invocation.ofArguments world.settings arguments)

end PageRouting.CommandLine
