import PageRouting.CommandLine.Grammar
import PageRouting.Settings

/-!
# `PageRouting/CommandLine/Invocation.lean` — what the user asks for

The program has two commands: `routes` shows what a project compiles to, `dev` serves it. An invocation is one of them
with its options. An argument list may also ask for help, ask for nothing, or be wrong.

An option that was given without a value is kept as such, since what follows from that depends on the option.
-/

set_option autoImplicit false

namespace PageRouting.CommandLine

/-- What the command `routes` shows. -/
inductive View where
  /-- the route records -/
  | tree
  /-- every path that is served -/
  | flat
  /-- the paths without parameters -/
  | static
deriving DecidableEq, Repr

/-- The options of the command `routes`. -/
structure RoutesOptions where
  /-- the root directory of the project -/
  root : Text := ['.']
  pagesDir : Option Text
  /-- extensions in place of the standard ones -/
  extensions : List (Option Text) := []
  view : View := .tree
  /-- are component paths relative to the root? -/
  relative : Bool := false
  /-- a file that gets the result in place of the standard output -/
  output : Option Text := none
  verbose : Bool := false
deriving DecidableEq, Repr

/-- The options of the command `dev`. -/
structure ServeOptions where
  /-- the root directory of the project -/
  root : Text := ['.']
  pagesDir : Option Text
  host : Option Text
  port : Option Int
  /-- the path that flat routes are put behind -/
  base : Option Text
  verbose : Bool := false
deriving DecidableEq, Repr

/-- What an argument list asks for. -/
inductive Invocation where
  | routes (options : RoutesOptions)
  | serve (options : ServeOptions)
  | help
  /-- the argument list is wrong -/
  | misuse
deriving DecidableEq, Repr

/-! ## Reading the options of a command -/

/-- What an option does to the options read so far. -/
inductive Effect (σ : Type) where
  | set (options : σ)
  /-- the program shows its help and ends -/
  | help
  /-- the option does not fit -/
  | misuse

/-- How the argument list of a command is read. -/
structure Command (κ σ : Type) where
  spellings : List (Spelling κ)
  setRoot : Text → σ → σ
  onFlag : κ → σ → Effect σ
  onValue : κ → Option Text → σ → Effect σ
  invocation : σ → Invocation

namespace Command

variable {κ σ : Type}

/-- How far reading has come. -/
structure Progress (σ : Type) where
  options : σ
  /-- has the project's root been given? -/
  hasRoot : Bool := false
  /-- was there an argument that means nothing? -/
  hasUnknown : Bool := false

/--
Reads events up to the first one that ends the program: a call for help, or a mistake. Arguments that mean nothing are
held against the list only at its end; once the root has been given, a second one and a `--` mean nothing.
-/
def readEvents (command : Command κ σ) (progress : Progress σ) : List (Event κ) → Invocation
  | [] => if progress.hasUnknown then .misuse else command.invocation progress.options
  | .flag option :: rest =>
    match command.onFlag option progress.options with
    | .set options => command.readEvents { progress with options } rest
    | .help => .help
    | .misuse => .misuse
  | .value option value :: rest =>
    match command.onValue option value progress.options with
    | .set options => command.readEvents { progress with options } rest
    | .help => .help
    | .misuse => .misuse
  | .positional value :: rest =>
    if progress.hasRoot then command.readEvents { progress with hasUnknown := true } rest
    else
      command.readEvents { progress with options := command.setRoot value progress.options, hasRoot := true } rest
  | .separator :: rest =>
    command.readEvents { progress with hasUnknown := progress.hasUnknown || progress.hasRoot } rest
  | .unknown :: rest => command.readEvents { progress with hasUnknown := true } rest
  | .malformed :: _ => .misuse

/-- Reads the argument list of a command, starting from its standard options. -/
def read (command : Command κ σ) (standard : σ) (hasUnknown : Bool) (arguments : List Text) : Invocation :=
  command.readEvents { options := standard, hasUnknown } (Grammar.read command.spellings arguments)

end Command

/-! ## The two commands -/

/-- The options that the commands know. -/
inductive OptionName where
  | help
  | pagesDir
  | extension
  | flat
  | static
  | relative
  | output
  | verbose
  | host
  | port
  | base
deriving DecidableEq, Repr

/-- A flag with its spellings. -/
def flagSpellings (option : OptionName) (texts : List String) : List (Spelling OptionName) :=
  texts.map fun text => { text := text.toList, option, takesValue := false }

/-- An option that takes a value, with its spellings. -/
def valueSpellings (option : OptionName) (texts : List String) : List (Spelling OptionName) :=
  texts.map fun text => { text := text.toList, option, takesValue := true }

/-- The spellings of the call for help. -/
def helpSpellings : List (Spelling OptionName) :=
  flagSpellings .help ["-h", "--help"]

/-- The command `routes`. The views `flat` and `static` exclude each other. -/
def routesCommand : Command OptionName RoutesOptions where
  spellings :=
    helpSpellings ++ valueSpellings .pagesDir ["--pages-dir"] ++ valueSpellings .extension ["--ext"] ++
      flagSpellings .flat ["--flat"] ++ flagSpellings .static ["--static"] ++ flagSpellings .relative ["--relative"] ++
      valueSpellings .output ["--output", "-o"] ++ flagSpellings .verbose ["--verbose", "-v"]
  setRoot root options := { options with root }
  onFlag
    | .flat, options => if options.view = .static then .misuse else .set { options with view := .flat }
    | .static, options => if options.view = .flat then .misuse else .set { options with view := .static }
    | .relative, options => .set { options with relative := true }
    | .verbose, options => .set { options with verbose := true }
    | _, _ => .help
  onValue
    | .pagesDir, pagesDir, options => .set { options with pagesDir }
    | .extension, extension, options => .set { options with extensions := options.extensions ++ [extension] }
    | .output, output, options => .set { options with output }
    | _, _, _ => .misuse
  invocation := .routes

/-- The command `dev`. -/
def serveCommand : Command OptionName ServeOptions where
  spellings :=
    helpSpellings ++ valueSpellings .pagesDir ["--pages-dir"] ++ valueSpellings .host ["--host"] ++
      valueSpellings .port ["--port"] ++ valueSpellings .base ["--base"] ++
      flagSpellings .verbose ["--verbose", "-v"]
  setRoot root options := { options with root }
  onFlag
    | .verbose, options => .set { options with verbose := true }
    | _, _ => .help
  onValue
    | .pagesDir, pagesDir, options => .set { options with pagesDir }
    | .host, host, options => .set { options with host }
    | .port, none, options => .set { options with port := none }
    | .port, some port, options =>
      match Text.readInteger port with
      | .ok port => .set { options with port := some port }
      | .error _ => .misuse
    | .base, base, options => .set { options with base }
    | _, _, _ => .misuse
  invocation := .serve

namespace Invocation

/-- Reads the argument list of a command by its name. -/
def ofCommand (settings : Settings) (hasUnknown : Bool) (name : Text) (arguments : List Text) : Invocation :=
  if name = "routes".toList then
    routesCommand.read { pagesDir := some settings.pagesDir } hasUnknown arguments
  else if name = "dev".toList then
    serveCommand.read
      { pagesDir := some settings.pagesDir
        host := some settings.host
        port := some settings.port
        base := some settings.base }
      hasUnknown arguments
  else .misuse

/--
Reads an argument list: the first positional argument names the command, which gets everything behind it. Nothing but
the call for help can stand in front of it. Without a command the program shows its help.
-/
def read (settings : Settings) (hasUnknown : Bool) : List Text → Invocation
  | [] => if hasUnknown then .misuse else .help
  | argument :: arguments =>
    match Grammar.classifyOne helpSpellings argument with
    | some .positional => ofCommand settings hasUnknown argument arguments
    | some .unknown => read settings true arguments
    | some (.option spelling attached) =>
      match Grammar.optionClause helpSpellings spelling attached with
      | .complete _ => .help
      | _ => .misuse
    | _ => .misuse

/-- What an argument list asks for. -/
def ofArguments (settings : Settings) (arguments : List Text) : Invocation :=
  read settings false arguments

end Invocation

end PageRouting.CommandLine
