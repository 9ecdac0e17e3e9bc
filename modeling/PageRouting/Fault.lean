import PageRouting.Disk.Refusal
import PageRouting.Text.Numeral
import PageRouting.Text.Order
import PageRouting.Text.Quoted
import PageRouting.Text.Strays
import PageRouting.StableSort

/-!
# `PageRouting/Fault.lean` — what can go wrong

The causes of failure, each with what a user has to know to mend it, and their wording in one place (`Fault.message`).
-/

set_option autoImplicit false

namespace PageRouting

/-- Why a text is not written. -/
inductive WriteFailure where
  /-- the host system does not let the file be written, for the given reason -/
  | denied (file reason : Text)
  /-- some of the text has no encoding -/
  | unencodable (strays : Strays.Run)
deriving DecidableEq, Repr

/-- Why an operation gives no result. -/
inductive Fault where
  /-- a page file does not lie below the pages root -/
  | outsideRoot (file root : Text)
  /-- a page file ends in none of the known extensions -/
  | unknownExtension (file : Text) (known : List Text)
  /-- a route is named like an index page, but no part of its name is `index` -/
  | missingIndexPart
  /-- a path was to be put together from no parts -/
  | noPathParts
  /-- a path holds a null character, which no name on a disk can -/
  | nullInPath
  /-- text that should have been a decimal integer -/
  | notAnInteger (text : Text) (cause : Text.NumeralFault)
  /-- the pages directory was asked for without a name -/
  | unnamedPagesDir
  /-- an extension was asked for without a text, and a file depends on it -/
  | blankExtension
  /-- a page file ends in none of the known extensions, one of which was asked for without a text -/
  | unlistedExtensions
  /-- the host system has refused a path -/
  | refused (path : Text) (refusal : Refusal)
  /-- a document, or a line of the standard output, could not be written -/
  | unwritable (failure : WriteFailure)
deriving DecidableEq, Repr

namespace Fault

/-- Is it the page files themselves that cannot be compiled? -/
def isRejectedPage : Fault → Bool
  | .outsideRoot .. => true
  | .unknownExtension .. => true
  | _ => false

/-- Why a page file is rejected. -/
def rejection (file reason : Text) : Text :=
  "Invalid page path ".toList ++ Text.quoted file ++ ": ".toList ++ reason

/-- The most characters of a misread text that are quoted. -/
def quotationLimit : Nat := 200

/-- Why a text is not read as an integer. -/
def numeralMessage (text : Text) : Text.NumeralFault → Text
  | .malformed =>
    "invalid literal for int() with base 10: ".toList ++ (Text.quoted text).take quotationLimit
  | .tooManyDigits count =>
    "Exceeds the limit (".toList ++ Text.ofInteger Text.maxDigits ++
      " digits) for integer string conversion: value has ".toList ++ Text.ofInteger count ++
      " digits; use sys.set_int_max_str_digits() to increase the limit".toList

/-- Why a text is not written, in words; a byte is told by the surrogate that is used for it. -/
def writeMessage : WriteFailure → Text
  | .denied file reason => "Cannot write file ".toList ++ file ++ ": ".toList ++ reason
  | .unencodable ⟨position, bytes⟩ =>
    let place :=
      match bytes with
      | [byte] =>
        "character '\\udc".toList ++ Text.hexDigits 2 byte ++ "' in position ".toList ++ Text.ofInteger position
      | _ =>
        "characters in position ".toList ++ Text.ofInteger position ++ '-' :: Text.ofInteger (position + bytes.length - 1)
    "'utf-8' codec can't encode ".toList ++ place ++ ": surrogates not allowed".toList

/-- The fault in words. -/
def message : Fault → Text
  | .outsideRoot file root => rejection file ("not under pages root ".toList ++ Text.quoted root)
  | .unknownExtension file known =>
    rejection file ("extension not in ".toList ++ Text.quotedList (stableSort Text.precedes known))
  | .missingIndexPart => "'index' is not in list".toList
  | .noPathParts => "tuple index out of range".toList
  | .nullInPath => "embedded null byte".toList
  | .notAnInteger text cause => numeralMessage text cause
  | .unnamedPagesDir => "'list' object has no attribute 'strip'".toList
  | .blankExtension => "tuple for endswith must only contain str, not list".toList
  | .unlistedExtensions => "'<' not supported between instances of 'list' and 'str'".toList
  | .refused path refusal => refusal.words ++ ": ".toList ++ Text.quoted path
  | .unwritable failure => writeMessage failure

end Fault

end PageRouting
