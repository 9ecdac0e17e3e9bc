import PageRouting.Text

/-!
# `PageRouting/Disk/Refusal.lean` — why the host system refuses a path

A path can be refused for what is on the disk, or for its length alone: a name has at most 255 bytes in UTF-8, and a
whole path has fewer than 4096.
-/

set_option autoImplicit false

namespace PageRouting

/-- Why the host system does not do what it was asked for at a path. -/
inductive Refusal where
  /-- nothing has the name, or the directory above it is missing -/
  | missing
  /-- something that is not a directory has the name -/
  | taken
  /-- the path leads on from a file -/
  | notADirectory
  /-- there is a directory where a file should be -/
  | isADirectory
  /-- a name in the path is too long, or the path as a whole -/
  | nameTooLong
deriving DecidableEq, Repr

namespace Refusal

/-- The number under which the host system knows the refusal, and its words. -/
def words : Refusal → Text
  | .missing => "[Errno 2] No such file or directory".toList
  | .taken => "[Errno 17] File exists".toList
  | .notADirectory => "[Errno 20] Not a directory".toList
  | .isADirectory => "[Errno 21] Is a directory".toList
  | .nameTooLong => "[Errno 36] File name too long".toList

/-- The most bytes that a name may have. -/
def maxNameBytes : Nat := 255

/-- The number of bytes that a path must stay below. -/
def pathBytesLimit : Nat := 4096

/-- Is a text too long for a name? -/
def isLongName (name : Text) : Bool :=
  decide (maxNameBytes < name.byteLength)

/-- Is a text too long for a path? -/
def isLongPath (path : Text) : Bool :=
  decide (pathBytesLimit ≤ path.byteLength)

end Refusal

end PageRouting
