import PageRouting.Text.Numeral
import PageRouting.Text.Quoted

/-!
# `PageRouting/Notice.lean` — what happened on the way

Operations report what they did as a list of notices beside their result. A notice has a level, so that a reader can
choose how much to see, and a wording.
-/

set_option autoImplicit false

namespace PageRouting

/-- How important a notice is, from least to most. -/
inductive Level where
  | debug
  | info
  | warning
  | error
deriving DecidableEq, Repr

namespace Level

/-- Position in the order of importance. -/
def rank : Level → Nat
  | .debug => 0
  | .info => 1
  | .warning => 2
  | .error => 3

/-- The level in words. -/
def text : Level → Text
  | .debug => "DEBUG".toList
  | .info => "INFO".toList
  | .warning => "WARNING".toList
  | .error => "ERROR".toList

end Level

/-- Something worth telling. -/
inductive Notice where
  /-- a route that stood for a directory only got its own page -/
  | filled (name file : Text)
  /-- a page got a new route -/
  | inserted (name path file : Text)
  /-- a page's name was taken; it is nested below the route that has it -/
  | nested (name file : Text) (present : Option Text)
  /-- all pages are placed -/
  | built (pages : Nat)
  /-- a route lost its name, since a child with an empty path shows its page -/
  | unnamed (name : Option Text) (path : Text)
  /-- compilation came to its end -/
  | compiled
  /-- a project's pages were found and compiled -/
  | resolved (pages routes : Nat)
  /-- a project has no pages directory -/
  | pagesDirMissing (directory : Text)
  /-- the compiled forest was forgotten -/
  | invalidated
  /-- a request could not be answered -/
  | compileFailed (message : Text)
  /-- the server is about to start -/
  | starting (root : Text)
  /-- the server's address -/
  | serving (pagesDir : Text) (host : Option Text) (port : Option Int)
  /-- a document was written -/
  | wrote (file : Text)
  /-- a directory could not be made -/
  | directoryFailed (directory reason : Text)
  /-- a document could not be written -/
  | writeFailed (file reason : Text)
deriving DecidableEq, Repr

namespace Notice

/-- How important the notice is. -/
def level : Notice → Level
  | .filled .. | .inserted .. | .built _ | .unnamed .. | .compiled => .debug
  | .resolved .. | .invalidated | .starting _ | .serving .. | .wrote _ => .info
  | .nested .. | .pagesDirMissing _ => .warning
  | .compileFailed _ | .directoryFailed .. | .writeFailed .. => .error

/-- A part of the server's address; one that was asked for without a value shows as empty brackets. -/
def addressPart (part : Option Text) : Text :=
  part.getD ['[', ']']

/-- A number in decimal digits. -/
def count (n : Nat) : Text :=
  Nat.toDigits 10 n

/-- The notice in words; `elapsed` stands for the time that compilation took. -/
def text (elapsed : Text) : Notice → Text
  | .filled name file => "Filled wrapper route ".toList ++ Text.quoted name ++ " with ".toList ++ file
  | .inserted name path file =>
    "Inserted route ".toList ++ Text.quoted name ++ " (".toList ++ Text.quoted path ++ ") from ".toList ++ file
  | .nested name file present =>
    "Route name ".toList ++ Text.quoted name ++ " from ".toList ++ file ++ " is already defined by ".toList ++
      present.getD "None".toList ++ "; nesting it with an empty path".toList
  | .built pages => "Built route tree from ".toList ++ count pages ++ " page files".toList
  | .unnamed name path =>
    "Route ".toList ++ Text.quotedOption name ++ " (".toList ++ Text.quoted path ++
      ") renders through its index child".toList
  | .compiled => "create_routes executed in ".toList ++ elapsed ++ ['s']
  | .resolved pages routes =>
    "Resolved ".toList ++ count pages ++ " pages into ".toList ++ count routes ++ " top-level routes".toList
  | .pagesDirMissing directory => "Pages directory not found: ".toList ++ directory
  | .invalidated => "Route cache invalidated".toList
  | .compileFailed message => "Failed to compile routes: ".toList ++ message
  | .starting root => "Starting pagetree dev server for ".toList ++ root
  | .serving pagesDir host port =>
    "Serving routes of ".toList ++ pagesDir ++ " on http://".toList ++ addressPart host ++
      ':' :: addressPart (port.map Text.ofInteger)
  | .wrote file => "Wrote routes to ".toList ++ file
  | .directoryFailed directory reason =>
    "Failed to create directory ".toList ++ directory ++ ": ".toList ++ reason
  | .writeFailed file reason => "Failed to write file ".toList ++ file ++ ": ".toList ++ reason

/-- The notice behind its level. -/
def line (elapsed : Text) (notice : Notice) : Text :=
  notice.level.text ++ ": ".toList ++ notice.text elapsed

/-- The notices that are at least as important as the threshold. -/
def atLeast (threshold : Level) (notices : List Notice) : List Notice :=
  notices.filter fun notice => threshold.rank ≤ notice.level.rank

end Notice

end PageRouting
