import TemplateFormat.Cli.Host
import TemplateFormat.Path

/-!
# Disks

A disk is a finite set of files and directories with a current directory: a host that exists only as a
value. Each place is the list of parts of its absolute path; every place above a file or directory is
a directory.
-/

namespace TemplateFormat

/-- The place of a file or directory. -/
abbrev Place := List Text

/-- Files and directories as a value. -/
structure Disk where
  /-- The files with their contents. -/
  files : List (Place × ByteArray) := []
  /-- The directories that are there even if they hold nothing. -/
  dirs : List Place := []
  /-- The current directory. -/
  cwd : Place := []
  /-- The standard input. -/
  input : ByteArray := ByteArray.empty

namespace Disk

/-- The content of the file at a place. -/
def file? (d : Disk) (p : Place) : Option ByteArray := d.files.lookup p

/-- The place is below the directory `p`. -/
def isBelow (p place : Place) : Bool := p.isPrefixOf place && p != place

/-- A directory is at the place. -/
def isDirAt (d : Disk) (p : Place) : Bool :=
  p.isEmpty || d.dirs.any p.isPrefixOf || d.files.any fun f => isBelow p f.1

/-- Follows the parts of a path from a place, which must be a directory while parts are left. -/
def follow (d : Disk) (at' : Place) : List Text → Except ReadFailure Place
  | [] => .ok at'
  | part :: rest =>
    if d.isDirAt at' then
      if part.isEmpty || part = ['.'] then follow d at' rest
      else if part = ['.', '.'] then follow d at'.dropLast rest
      else follow d (at' ++ [part]) rest
    else if (d.file? at').isSome then .error .notDirectory
    else .error .missing

/-- The place that a path leads to. -/
def resolve (d : Disk) (path : Text) : Except ReadFailure Place :=
  match path with
  | '/' :: rest => d.follow [] (Text.splitOn '/' rest)
  | _ => d.follow d.cwd (Text.splitOn '/' path)

/-- A directory is at the path. -/
def isDir (d : Disk) (path : Text) : Bool :=
  match d.resolve path with
  | .ok p => d.isDirAt p
  | .error _ => false

/-- The content of the file at the path. -/
def read (d : Disk) (path : Text) : Except ReadFailure ByteArray :=
  match d.resolve path with
  | .error e => .error e
  | .ok p =>
    match d.file? p with
    | some bytes => .ok bytes
    | none => .error (if d.isDirAt p then .isDirectory else .missing)

/-- A file is at the path. -/
def isFile (d : Disk) (path : Text) : Bool := (d.read path).toOption.isSome

/-- The disk with another content of the file at the path; nothing changes if no file is there. -/
def write (d : Disk) (path : Text) (bytes : ByteArray) : Disk :=
  match d.resolve path with
  | .error _ => d
  | .ok p => { d with files := d.files.map fun f => if f.1 = p then (p, bytes) else f }

/-- The files below the directory at the path. -/
def walk (d : Disk) (path : Text) : List (List Text) :=
  match d.resolve path with
  | .error _ => []
  | .ok p => (d.files.filter fun f => isBelow p f.1).map fun f => f.1.drop p.length

/-- The absolute path of the current directory. -/
def currentDir (d : Disk) : Text := '/' :: Path.ofParts d.cwd

/-- A disk as a host. -/
def host : Host (StateM Disk) where
  isDir path := do return (← get).isDir path
  isFile path := do return (← get).isFile path
  read path := do return (← get).read path
  write path bytes := modify fun d => d.write path bytes
  walk path := do return (← get).walk path
  currentDir := do return (← get).currentDir
  input := do return (← get).input

end Disk

end TemplateFormat
