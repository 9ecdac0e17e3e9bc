import PageRouting.CommandLine.Run
import PageRouting.Session.Step

/-!
# `PageRouting/Main.lean` — the program

The program works on a listing of the project and never touches the disk itself. It reads the listing from the standard
input up to an empty line or the end: one path per line, relative to the working directory, directories with a slash at
their end. It then carries out its arguments. Documents that a command writes are printed behind the standard output,
each under a line with its path.

The command `dev` goes on reading the standard input: every further line is a request, `METHOD PATH` or
`METHOD PATH?QUERY`, and is answered by a status line and a body.
-/

set_option autoImplicit false

namespace PageRouting.Program

/-- The names in the environment that the settings depend on. -/
def variableNames : List String :=
  ["PAGETREE_PAGES_DIR", "PAGETREE_EXTENSIONS", "PAGETREE_DEV_PORT", "PAGETREE_DEV_HOST", "PAGETREE_ROUTER_BASE"]

/-- Puts one line of the listing on the disk; a line that contradicts those before it counts for nothing. -/
def addListed (workingDirectory : Location) (disk : Disk) (line : Text) : Disk :=
  let path := DiskPath.ofText line
  if line.getLast? = some '/' then (disk.makeDirectories workingDirectory path).disk
  else (disk.write workingDirectory path []).disk

/-- The disk that a listing describes. -/
def listedDisk (workingDirectory : Location) (listing : List Text) : Disk :=
  listing.foldl (addListed workingDirectory) (({} : Disk).addDirectories workingDirectory)

/-- The documents that are on the second disk and not on the first, each under its path. -/
def documents (before after : Disk) : Text :=
  (after.files.filter fun file => file ∉ before.files).flatMap fun file =>
    "==> ".toList ++ Location.text file.1 ++ '\n' :: file.2

/-- Reads a request: the method, a blank, the path, and the query behind a question mark. -/
def readRequest (line : Text) : Request :=
  let target := (line.dropWhile (· != ' ')).tail
  { method := line.takeWhile (· != ' ')
    path := target.takeWhile (· != '?')
    query := (target.dropWhile (· != '?')).tail }

/-- The text of a response: its status, and its body on the lines below. -/
def renderResponse (response : Response) : Text :=
  Text.ofInteger response.status ++ '\n' :: response.body.content ++ ['\n']

/-- A line without the characters that end it. -/
def lineText (line : String) : Text :=
  (line.toList.reverse.dropWhile fun c => c = '\n' || c = '\r').reverse

/-- Reads lines up to an empty one or the end of the input. -/
partial def readListing (input : IO.FS.Stream) (lines : List Text) : IO (List Text) := do
  let line := lineText (← input.getLine)
  if line.isEmpty then return lines.reverse
  readListing input (line :: lines)

/-- Answers requests until the input ends. -/
partial def answerRequests (input output error : IO.FS.Stream) (session : Session) : IO Unit := do
  let line ← input.getLine
  if line.isEmpty then return
  let reading := Service.respond (readRequest (lineText line)) session
  error.putStr (String.ofList (CommandLine.noticeLines [] .info reading.notices))
  match reading.result with
  | .ok response => output.putStr (String.ofList (renderResponse response))
  | .error fault => error.putStrLn (String.ofList fault.message)
  output.flush
  answerRequests input output error reading.session

/-- Runs the program in its environment. -/
def run (arguments : List String) : IO UInt32 := do
  let input ← IO.getStdin
  let output ← IO.getStdout
  let error ← IO.getStderr
  let mut environment : List (Text × Text) := []
  for name in variableNames do
    match ← IO.getEnv name with
    | some value => environment := environment ++ [(name.toList, value.toList)]
    | none => pure ()
  match Settings.ofEnvironment environment with
  | .error fault =>
    error.putStrLn (String.ofList fault.message)
    return 1
  | .ok settings =>
    let workingDirectory := Location.follow [] ((← IO.getEnv "PWD").getD "/").toList
    let disk := listedDisk workingDirectory (← readListing input [])
    let world : CommandLine.World := { disk, workingDirectory, settings, elapsed := "0.000".toList }
    let outcome := CommandLine.run world (arguments.map String.toList)
    error.putStr (String.ofList outcome.stderr)
    output.putStr (String.ofList (outcome.stdout ++ documents disk outcome.disk))
    output.flush
    match outcome.exit with
    | .error fault =>
      error.putStrLn (String.ofList fault.message)
      return 1
    | .ok status =>
      match outcome.serving with
      | some serving => answerRequests input output error serving.session
      | none => pure ()
      return status.toUInt32

end PageRouting.Program

/-- The program's entry point. -/
def main (arguments : List String) : IO UInt32 :=
  PageRouting.Program.run arguments
