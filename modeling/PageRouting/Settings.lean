import PageRouting.Layout
import PageRouting.Text.Blank
import PageRouting.Text.Numeral

/-!
# `PageRouting/Settings.lean` — what the environment may change

Five values have defaults that variables in the environment replace: the pages directory, the extensions of page
files, and the port, host and base path of the server. Only the port can be wrong.
-/

set_option autoImplicit false

namespace PageRouting

/-- The values that are used where nothing else is asked for. -/
structure Settings where
  pagesDir : Text
  extensions : List Text
  port : Int
  host : Text
  base : Text
deriving DecidableEq, Repr

namespace Settings

/-- The settings in an empty environment. -/
def standard : Settings where
  pagesDir := Layout.defaultPagesDir
  extensions := Layout.defaultExtensions
  port := 3000
  host := "localhost".toList
  base := "/".toList

/-- The extensions in a text that parts them by commas; padding and empty ones do not count. -/
def readExtensions (t : Text) : List Text :=
  ((Text.split ',' t).map Text.trimBlank).filter (· ≠ [])

/-- The settings in an environment, given as names with their values. -/
def ofEnvironment (environment : List (Text × Text)) : Except Fault Settings :=
  let settings : Settings :=
    { standard with
      pagesDir := (environment.lookup "PAGETREE_PAGES_DIR".toList).getD standard.pagesDir
      extensions := ((environment.lookup "PAGETREE_EXTENSIONS".toList).map readExtensions).getD standard.extensions
      host := (environment.lookup "PAGETREE_DEV_HOST".toList).getD standard.host
      base := (environment.lookup "PAGETREE_ROUTER_BASE".toList).getD standard.base }
  match environment.lookup "PAGETREE_DEV_PORT".toList with
  | none => .ok settings
  | some port =>
    match Text.readInteger port with
    | .ok number => .ok { settings with port := number }
    | .error cause => .error (.notAnInteger port cause)

end Settings

end PageRouting
