import TemplateFormat.Cli.Args
import TemplateFormat.Cli.Host
import TemplateFormat.Diagnostic
import TemplateFormat.Format
import TemplateFormat.Language

/-!
# Running the command

`run` does what the arguments ask for on any host: it finds the settings, formats the standard input or
the files, and returns what is printed and the exit status. A file that cannot be read or formatted does
not keep the others from being formatted.
-/

namespace TemplateFormat

namespace Cli

/-- What is done with the output of a file. -/
inductive Mode where
  /-- It is printed. -/
  | print
  /-- It replaces the file. -/
  | write
  /-- It is compared with the file. -/
  | check
deriving DecidableEq, Repr, Inhabited

/-- The mode that the arguments ask for. -/
def Args.mode (a : Args) : Mode :=
  if a.write then .write else if a.check then .check else .print

/-- A message to the user. -/
inductive Notice where
  | failure (text : String)
  | diagnostic (d : Diagnostic)
  | wouldReformat (path : String)
  | changedCount (n : Nat)
deriving DecidableEq, Repr, Inhabited

/-- What the formatting of files has come to. -/
structure Progress where
  /-- What was printed. -/
  output : Text := []
  /-- The messages in order. -/
  notices : List Notice := []
  /-- The number of files that differ from their formatted form. -/
  changed : Nat := 0
  /-- The number of files that could not be read or formatted. -/
  failed : Nat := 0
deriving DecidableEq, Repr, Inhabited

/-- The end of a command. -/
structure Outcome where
  /-- The exit status. -/
  code : Nat
  /-- What was printed. -/
  output : Text
  /-- The messages in order. -/
  notices : List Notice
deriving DecidableEq, Repr, Inhabited

/-- The name and version of the command. -/
def versionLine : String := "gotmpl-fmt 0.1.0\n"

/-- How the command is used. -/
def helpText : String :=
  "Format HTML documents with embedded Go template actions\n\n" ++
  "Usage: gotmpl-fmt [OPTIONS] [PATHS]...\n\n" ++
  "Without paths the standard input is formatted.\n\n" ++
  "  -w, --write               Write the output to the files\n" ++
  "      --check               Only tell which files would change; exit status 1 if any would\n" ++
  "      --config <FILE>       Settings file (default: the nearest .gotmpl-fmt.toml)\n" ++
  "      --no-bracket-spacing  No spaces inside the braces of actions\n" ++
  "      --print-width <N>     Preferred greatest width of a line\n" ++
  "      --tab-width <N>       Width of one level of indentation\n" ++
  "      --use-tabs            Indent with tabs\n" ++
  "  -v, --verbose             Tell more; can be repeated\n" ++
  "  -h, --help                Print this text\n" ++
  "  -V, --version             Print the version\n"

/-- The settings with those of the arguments. -/
def Args.override (a : Args) (s : Settings) : Settings :=
  { s with
    bracketSpacing := s.bracketSpacing && !a.noBracketSpacing
    printWidth := a.printWidth.getD s.printWidth
    tabWidth := a.tabWidth.getD s.tabWidth
    useTabs := s.useTabs || a.useTabs }

section Hosted

variable {m : Type → Type} [Monad m]

/-- The first of the paths at which a file is. -/
def firstFile (host : Host m) : List Text → m (Option Text)
  | [] => return none
  | p :: ps => do
    if ← host.isFile p then return some p else firstFile host ps

/-- The settings file: the one named in the arguments, or the nearest from the current directory up. -/
def settingsFile (host : Host m) (a : Args) : m (Option Text) :=
  match a.config with
  | some path => return some path
  | none => do
    let dirs := Path.ancestors (← host.currentDir)
    firstFile host (dirs.map fun dir => Path.join dir Settings.fileName.toList)

/-- The settings of a command, or the settings file that could not be loaded. -/
def settings (host : Host m) (a : Args) : m (Except Text Settings) := do
  match ← settingsFile host a with
  | none => return .ok (a.override {})
  | some path =>
    match Settings.load (← host.read path) with
    | .ok s => return .ok (a.override s)
    | .error _ => return .error path

/-- The files that paths stand for: a directory stands for its files with a supported extension, ordered
by their parts. -/
def collect (host : Host m) : List Text → m (List Text)
  | [] => return []
  | p :: ps => do
    let here ←
      if ← host.isDir p then do
        let found := (← host.walk p).filter fun rel => Path.isSupported (Path.ofParts rel)
        pure ((found.mergeSort Path.le).map fun rel => Path.join p (Path.ofParts rel))
      else pure [p]
    return here ++ (← collect host ps)

/-- Formats one file. -/
def formatFile (host : Host m) (s : Settings) (mode : Mode) (p : Progress) (path : Text) :
    m Progress := do
  let name := String.ofList path
  match textOf (← host.read path) with
  | .error e =>
    let text := "Failed to read file: " ++ name ++ ": " ++ e.message
    return { p with notices := p.notices ++ [.failure text], failed := p.failed + 1 }
  | .ok source =>
    match format s source with
    | .error e =>
      return { p with
        notices := p.notices ++ [.diagnostic (.ofError name source e)], failed := p.failed + 1 }
    | .ok out =>
      let changed := if out = source then p.changed else p.changed + 1
      match mode with
      | .print => return { p with output := p.output ++ out, changed }
      | .write =>
        if out ≠ source then host.write path (encode out)
        return { p with changed }
      | .check =>
        if out = source then return p
        else return { p with notices := p.notices ++ [.wouldReformat name], changed }

/-- Formats files one after the other. -/
def formatFiles (host : Host m) (s : Settings) (mode : Mode) : Progress → List Text → m Progress
  | p, [] => return p
  | p, path :: rest => do formatFiles host s mode (← formatFile host s mode p path) rest

/-- The end of a command that formatted files. -/
def Progress.outcome (p : Progress) (mode : Mode) : Outcome :=
  let differs := mode == .check && 0 < p.changed
  { code := if 0 < p.failed || differs then 1 else 0
    output := p.output
    notices := if differs then p.notices ++ [.changedCount p.changed] else p.notices }

/-- Formats the files that paths stand for. -/
def formatPaths (host : Host m) (s : Settings) (mode : Mode) (paths : List Text) : m Outcome := do
  let files ← collect host paths
  return (← formatFiles host s mode {} files).outcome mode

/-- Formats the standard input. -/
def formatInput (host : Host m) (s : Settings) : m Outcome := do
  match decode? (← host.input) with
  | none => return ⟨1, [], [.failure "Failed to read stdin"]⟩
  | some source =>
    match format s source with
    | .ok out => return ⟨0, out, []⟩
    | .error e => return ⟨1, [], [.diagnostic (.ofError "<stdin>" source e)]⟩

/-- Does what arguments ask for. -/
def runArgs (host : Host m) (a : Args) : m Outcome := do
  match ← settings host a with
  | .error path =>
    return ⟨1, [], [.failure ("Failed to load configuration: " ++ String.ofList path)]⟩
  | .ok s =>
    if a.paths.isEmpty then formatInput host s else formatPaths host s a.mode a.paths

/-- Runs the command. -/
def run (host : Host m) (arguments : List Text) : m Outcome :=
  match Args.parse arguments with
  | .run a => runArgs host a
  | .version => return ⟨0, versionLine.toList, []⟩
  | .help => return ⟨0, helpText.toList, []⟩
  | .usageError => return ⟨2, [], []⟩

end Hosted

/-- The notice as a line, or as the lines of a report. -/
def Notice.lines : Notice → List String
  | failure text => ["Error: " ++ text]
  | wouldReformat path => ["Would reformat " ++ path]
  | changedCount n => [String.ofList (Nat.toDigits 10 n) ++ " file(s) would be reformatted"]
  | diagnostic d =>
    match d with
    | .report _ path line column label =>
      [d.headline, "at " ++ Diagnostic.place path line column, "label " ++ label]
    | .brief _ _ => [d.headline]

end Cli

end TemplateFormat
