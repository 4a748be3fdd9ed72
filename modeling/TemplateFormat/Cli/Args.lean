import TemplateFormat.Text.Basic
import TemplateFormat.Word64

/-!
# Command line arguments

`Args.parse` reads the arguments of a command from left to right. Flags and options may stand between
the paths; after `--` all arguments are paths. An option takes its value after an equals sign or from
the next argument, which must not look like an option. Single letters can be put together. Each option
is given once at most, `-v` apart. Asking for the version or for help ends the reading at once.
-/

namespace TemplateFormat

namespace Cli

/-- What the arguments of a command ask for. -/
structure Args where
  /-- The files and directories to format. -/
  paths : List Text := []
  /-- Write the output to the files. -/
  write : Bool := false
  /-- Only tell which files would change. -/
  check : Bool := false
  /-- The settings file. -/
  config : Option Text := none
  /-- No spaces inside the braces of actions. -/
  noBracketSpacing : Bool := false
  printWidth : Option Nat := none
  tabWidth : Option Nat := none
  /-- Indent with tabs. -/
  useTabs : Bool := false
  /-- How much is told about the work. -/
  verbose : Nat := 0
deriving DecidableEq, Repr, Inhabited

/-- The outcome of reading the arguments. -/
inductive Parsed where
  | run (args : Args)
  | version
  | help
  | usageError
deriving DecidableEq, Repr, Inhabited

namespace Args

/-- An option without a value. -/
inductive Flag where
  | write
  | check
  | noBracketSpacing
  | useTabs
  | verbose
  | version
  | help
deriving DecidableEq, Repr

/-- An option with a value. -/
inductive Setting where
  | config
  | printWidth
  | tabWidth
deriving DecidableEq, Repr

/-- The flag with a long name. -/
def longFlag? (name : Text) : Option Flag :=
  [("write", Flag.write), ("check", .check), ("no-bracket-spacing", .noBracketSpacing),
    ("use-tabs", .useTabs), ("verbose", .verbose), ("version", .version),
    ("help", .help)].findSome? fun (n, f) => if n.toList == name then some f else none

/-- The option with a value that has a long name. -/
def longSetting? (name : Text) : Option Setting :=
  [("config", Setting.config), ("print-width", .printWidth),
    ("tab-width", .tabWidth)].findSome? fun (n, s) => if n.toList == name then some s else none

/-- The flag with a letter. -/
def shortFlag? : Char → Option Flag
  | 'w' => some .write
  | 'v' => some .verbose
  | 'V' => some .version
  | 'h' => some .help
  | _ => none

/-- An unsigned number of 64 bits; a plus sign may stand before it. -/
def number? (t : Text) : Option Nat :=
  let digits := (Text.dropStart? ['+'] t).getD t
  if digits.isEmpty || !digits.all Char.isDigit then none
  else
    let n := digits.foldl (fun n c => 10 * n + (c.toNat - '0'.toNat)) 0
    if Word64.isUnsigned n then some n else none

/-- Reading stops with an outcome, or goes on with more arguments known. -/
abbrev Step := Except Parsed Args

/-- Takes a flag. -/
def flag (a : Args) : Flag → Step
  | .write => if a.write then .error .usageError else .ok { a with write := true }
  | .check => if a.check then .error .usageError else .ok { a with check := true }
  | .noBracketSpacing =>
    if a.noBracketSpacing then .error .usageError else .ok { a with noBracketSpacing := true }
  | .useTabs => if a.useTabs then .error .usageError else .ok { a with useTabs := true }
  | .verbose => .ok { a with verbose := a.verbose + 1 }
  | .version => .error .version
  | .help => .error .help

/-- Takes an option with its value. -/
def setting (a : Args) (value : Text) : Setting → Step
  | .config =>
    if a.config.isSome || value.isEmpty then .error .usageError
    else .ok { a with config := some value }
  | .printWidth =>
    match a.printWidth, number? value with
    | none, some n => .ok { a with printWidth := some n }
    | _, _ => .error .usageError
  | .tabWidth =>
    match a.tabWidth, number? value with
    | none, some n => .ok { a with tabWidth := some n }
    | _, _ => .error .usageError

/-- Takes a path. -/
def path (a : Args) (p : Text) : Step :=
  if p.isEmpty then .error .usageError else .ok { a with paths := a.paths ++ [p] }

/-- Takes flags by their letters. -/
def letters (a : Args) : Text → Step
  | [] => .ok a
  | c :: t =>
    match shortFlag? c with
    | none => .error .usageError
    | some f =>
      match a.flag f with
      | .ok a => letters a t
      | .error p => .error p

/-- Takes paths only. -/
def onlyPaths (a : Args) : List Text → Step
  | [] => .ok a
  | p :: rest =>
    match a.path p with
    | .ok a => onlyPaths a rest
    | .error p => .error p

/-- An argument that names an option, or several. -/
def looksLikeOption : Text → Bool
  | '-' :: _ :: _ => true
  | _ => false

/-- Takes arguments from left to right. -/
def steps (a : Args) : List Text → Step
  | [] => .ok a
  | arg :: rest =>
    match arg with
    | ['-', '-'] => a.onlyPaths rest
    | '-' :: '-' :: long =>
      let (name, value) :=
        match Text.cut? ['='] long with
        | some (name, value) => (name, some value)
        | none => (long, none)
      match longFlag? name, longSetting? name, value with
      | some f, _, none =>
        match a.flag f with
        | .ok a => steps a rest
        | .error p => .error p
      | _, some s, some value =>
        match a.setting value s with
        | .ok a => steps a rest
        | .error p => .error p
      | _, some s, none =>
        match rest with
        | value :: rest =>
          if looksLikeOption value then .error .usageError
          else
            match a.setting value s with
            | .ok a => steps a rest
            | .error p => .error p
        | [] => .error .usageError
      | _, _, _ => .error .usageError
    | '-' :: c :: short =>
      match a.letters (c :: short) with
      | .ok a => steps a rest
      | .error p => .error p
    | arg =>
      match a.path arg with
      | .ok a => steps a rest
      | .error p => .error p

/-- Reads the arguments of a command. Writing and checking exclude each other. -/
def parse (arguments : List Text) : Parsed :=
  match steps {} arguments with
  | .error p => p
  | .ok a => if a.write && a.check then .usageError else .run a

end Args

end Cli

end TemplateFormat
