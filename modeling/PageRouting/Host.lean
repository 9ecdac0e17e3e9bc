import PageRouting.Text

/-!
# `PageRouting/Host.lean` — how the host system spells paths

Component paths end up inside string literals and chunk names become file names. On a host whose separator is the
backslash, a component path has its backslashes doubled and a chunk name its slashes replaced; elsewhere both stay as
they are.
-/

set_option autoImplicit false

namespace PageRouting

/-- The families of host systems that differ in how paths are written. -/
inductive Host where
  | posix
  | windows
deriving DecidableEq, Repr

namespace Host

/-- A component path, safe inside a string literal. -/
def componentPath : Host → Text → Text
  | .posix, path => path
  | .windows, path => Text.replaceChar '\\' ['\\', '\\'] path

/-- A chunk name, safe as the name of one file. -/
def chunkName : Host → Text → Text
  | .posix, chunk => chunk
  | .windows, chunk => Text.replaceChar '/' ['_'] chunk

end Host

end PageRouting
