import TemplateFormat.Cli.Run

/-!
# The command

The command on the system it is started on: `Cli.run` with files, standard input and output.
-/

namespace TemplateFormat

namespace Main

/-- Why a file could not be read. -/
def readFailure : IO.Error → ReadFailure
  | .noFileOrDirectory _ _ _ => .missing
  | .inappropriateType _ _ _ => .isDirectory
  | e => .other (toString e)

/-- The parts of the paths of the files below a directory. -/
def filesBelow (dir : Text) : IO (List (List Text)) := do
  let top := (← IO.currentDir) / String.ofList dir
  let entries ← top.walkDir
  let files ← entries.toList.filterM fun p => do return !(← p.isDir)
  return files.map fun p => (p.components.drop top.components.length).map String.toList

/-- The system as a host. -/
def host : Host IO where
  isDir path := do ((← IO.currentDir) / String.ofList path).isDir
  isFile path := do
    let p := (← IO.currentDir) / String.ofList path
    return (← p.pathExists) && !(← p.isDir)
  read path := do
    try
      return .ok (← IO.FS.readBinFile ((← IO.currentDir) / String.ofList path))
    catch e => return .error (readFailure e)
  write path bytes := do
    IO.FS.writeBinFile ((← IO.currentDir) / String.ofList path) bytes
  walk path := filesBelow path
  currentDir := do return (← IO.currentDir).toString.toList
  input := do (← IO.getStdin).readBinToEnd

end Main

end TemplateFormat

/-- Runs the command: prints its output and its messages, and returns its exit status. -/
def main (arguments : List String) : IO UInt32 := do
  let outcome ← TemplateFormat.Cli.run TemplateFormat.Main.host (arguments.map String.toList)
  IO.print (String.ofList outcome.output)
  for notice in outcome.notices do
    for line in notice.lines do
      IO.eprintln line
  if outcome.code = 2 then
    IO.eprint TemplateFormat.Cli.helpText
  return outcome.code.toUInt32
