import PageRouting.Text.Numeral

/-!
# `PageRouting/CommandLine/Grammar.lean` — options and positional arguments

An argument list is read in two passes. The first says of every argument what it is (`classify`): an option, the `--`
behind which nothing is an option any more, something that looks like an option and is none, or a positional argument.
The second reads the list from left to right into events (`events`), giving each option that takes a value its value.

An option may be spelled out, shortened to any beginning that fits a single long spelling, or carry its value after an
equals sign. Short flags may be run together, with a short option that takes a value at their end; an equals sign behind
the first of them does not count. A value that is attached to its option and reads `--` is no value: the option is then
given without one.

The passes are kept apart because an argument that may stand for several options spoils the whole list, whereas other
mistakes only count once reading has come to them: what stands in front of them may end the program first.
-/

set_option autoImplicit false

namespace PageRouting.CommandLine

variable {κ : Type}

/-- One spelling of an option. -/
structure Spelling (κ : Type) where
  text : Text
  option : κ
  takesValue : Bool

/-- What an option carries within its argument. -/
inductive Attachment where
  | none
  /-- text that follows the option at once -/
  | direct (text : Text)
  /-- text behind an equals sign -/
  | equals (text : Text)
deriving DecidableEq, Repr

/-- What an argument is. -/
inductive Role (κ : Type) where
  | option (spelling : Spelling κ) (attached : Attachment)
  /-- it looks like an option, but is none -/
  | unknown
  /-- the end of the options -/
  | separator
  | positional

/-- What an argument list says, piece by piece. -/
inductive Event (κ : Type) where
  | flag (option : κ)
  /-- an option with its value, or without one where `--` stands in its place -/
  | value (option : κ) (value : Option Text)
  | positional (value : Text)
  /-- the end of the options, unless it stands right behind a positional argument -/
  | separator
  /-- an argument that means nothing -/
  | unknown
  /-- reading cannot go on -/
  | malformed

namespace Grammar

/-! ## What an argument is -/

/-- The text before the first equals sign, and the text behind it as an attachment. -/
def splitEquals (argument : Text) : Text × Attachment :=
  match argument.dropWhile (· != '=') with
  | [] => (argument, .none)
  | _ :: value => (argument.takeWhile (· != '='), .equals value)

/-- Is it a negative number, rather than an option? A final newline does not count. -/
def isNegativeNumber (argument : Text) : Bool :=
  let isDigit := fun c => (Text.digitValue? c).isSome
  match (Text.dropFinalNewline argument).1 with
  | '-' :: number =>
    match number.dropWhile isDigit with
    | [] => number ≠ []
    | '.' :: decimals => decimals ≠ [] && decimals.all isDigit
    | _ => false
  | _ => false

/-- The spelling that is written out in full. -/
def spelled? (spellings : List (Spelling κ)) (text : Text) : Option (Spelling κ) :=
  spellings.find? fun spelling => spelling.text = text

/-- The spellings that a shortened or run-together argument may stand for. -/
def candidates (spellings : List (Spelling κ)) (argument : Text) : List (Spelling κ × Attachment) :=
  match argument with
  | '-' :: '-' :: _ =>
    let (name, attached) := splitEquals argument
    (spellings.filter fun spelling => name <+: spelling.text).map fun spelling => (spelling, attached)
  | '-' :: c :: tail =>
    spellings.filterMap fun spelling =>
      if spelling.text = ['-', c] then some (spelling, .direct tail)
      else if argument <+: spelling.text then some (spelling, .none)
      else none
  | _ => []

/-- What an argument that no option is spelled like may be; nothing, if it may stand for several options. -/
def classifyShortened (spellings : List (Spelling κ)) (argument : Text) : Option (Role κ) :=
  match candidates spellings argument with
  | [(spelling, attached)] => some (.option spelling attached)
  | _ :: _ => none
  | [] => if isNegativeNumber argument || decide (' ' ∈ argument) then some .positional else some .unknown

/-- What an argument in front of any `--` is; nothing, if it may stand for several options. -/
def classifyOne (spellings : List (Spelling κ)) (argument : Text) : Option (Role κ) :=
  if argument.head? ≠ some '-' then some .positional
  else if argument = ['-', '-'] then some .separator
  else
    match spelled? spellings argument with
    | some spelling => some (.option spelling .none)
    | none =>
      if argument = ['-'] then some .positional
      else
        match splitEquals argument with
        | (name, .equals value) =>
          match spelled? spellings name with
          | some spelling => some (.option spelling (.equals value))
          | none => classifyShortened spellings argument
        | _ => classifyShortened spellings argument

/-- What each argument is; nothing, if one of them may stand for several options. -/
def classify (spellings : List (Spelling κ)) : List Text → Option (List (Text × Role κ))
  | [] => some []
  | argument :: arguments =>
    match classifyOne spellings argument with
    | none => none
    | some .separator => some ((argument, .separator) :: arguments.map fun argument => (argument, .positional))
    | some role => (classify spellings arguments).map ((argument, role) :: ·)

/-! ## What the list says -/

/-- What one argument with an option in it says. -/
inductive Clause (κ : Type) where
  /-- events, and nothing left to be found -/
  | complete (events : List (Event κ))
  /-- flags, and an option whose value is the next argument -/
  | pending (flags : List (Event κ)) (option : κ)
  | malformed

/-- The same clause behind another event. -/
def Clause.behind (event : Event κ) : Clause κ → Clause κ
  | .complete events => .complete (event :: events)
  | .pending flags option => .pending (event :: flags) option
  | .malformed => .malformed

/-- An option with the text that is attached to it. -/
def attachedValue (option : κ) (text : Text) : Event κ :=
  .value option (if text = ['-', '-'] then none else some text)

/-- Reads the text behind a short flag as further short options. -/
def clusterClause (spellings : List (Spelling κ)) : Text → Clause κ
  | [] => .complete []
  | c :: tail =>
    match spelled? spellings ['-', c] with
    | none => .malformed
    | some spelling =>
      if spelling.takesValue then
        if tail = [] then .pending [] spelling.option else .complete [attachedValue spelling.option tail]
      else (clusterClause spellings tail).behind (.flag spelling.option)

/-- Is it an option of one letter? -/
def Spelling.isShort (spelling : Spelling κ) : Bool :=
  spelling.text.length = 2

/-- What a flag with its attachment says. A long flag takes nothing, a short one further short options. -/
def flagClause (spellings : List (Spelling κ)) (spelling : Spelling κ) : Attachment → Clause κ
  | .none => .complete [.flag spelling.option]
  | .direct tail => (clusterClause spellings tail).behind (.flag spelling.option)
  | .equals tail =>
    if Spelling.isShort spelling ∧ tail ≠ [] then (clusterClause spellings tail).behind (.flag spelling.option)
    else .malformed

/-- What an option with its attachment says. -/
def optionClause (spellings : List (Spelling κ)) (spelling : Spelling κ) (attached : Attachment) : Clause κ :=
  if spelling.takesValue then
    match attached with
    | .none => .pending [] spelling.option
    | .direct text => .complete [attachedValue spelling.option text]
    | .equals text => .complete [attachedValue spelling.option text]
  else flagClause spellings spelling attached

/--
The events of a classified argument list; reading ends at the first mistake. A `--` right behind a positional argument
belongs to it.
-/
def events (spellings : List (Spelling κ)) : List (Text × Role κ) → List (Event κ)
  | [] => []
  | (argument, .positional) :: (_, .separator) :: rest => .positional argument :: events spellings rest
  | (argument, .positional) :: rest => .positional argument :: events spellings rest
  | (_, .separator) :: rest => .separator :: events spellings rest
  | (_, .unknown) :: rest => .unknown :: events spellings rest
  | (_, .option spelling attached) :: rest =>
    match optionClause spellings spelling attached, rest with
    | .complete found, rest => found ++ events spellings rest
    | .pending flags option, (value, .positional) :: rest =>
      flags ++ .value option (some value) :: events spellings rest
    | _, _ => [.malformed]

/-- The events of an argument list. -/
def read (spellings : List (Spelling κ)) (arguments : List Text) : List (Event κ) :=
  match classify spellings arguments with
  | none => [.malformed]
  | some classified => events spellings classified

end Grammar

end PageRouting.CommandLine
