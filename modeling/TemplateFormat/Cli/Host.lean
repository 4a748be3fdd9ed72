import TemplateFormat.Settings.File

/-!
# Hosts

What the command needs of the system it runs on. Texts are stored as UTF-8.
-/

namespace TemplateFormat

/-- Why a file could not be read as text. -/
inductive ReadFailure where
  | missing
  | notDirectory
  | isDirectory
  | notText
  /-- Any other reason, in the system's words. -/
  | other (reason : String)
deriving DecidableEq, Repr, Inhabited

/-- The failure in words. -/
def ReadFailure.message : ReadFailure → String
  | missing => "No such file or directory (os error 2)"
  | notDirectory => "Not a directory (os error 20)"
  | isDirectory => "Is a directory (os error 21)"
  | notText => "stream did not contain valid UTF-8"
  | other reason => reason

/-- The text that bytes encode. -/
def decode? (bytes : ByteArray) : Option Text := (String.fromUTF8? bytes).map String.toList

/-- The bytes of a text. -/
def encode (t : Text) : ByteArray := (String.ofList t).toUTF8

/-- The text of a file that was read. -/
def textOf (content : Except ReadFailure ByteArray) : Except ReadFailure Text :=
  match content with
  | .error e => .error e
  | .ok bytes =>
    match decode? bytes with
    | some t => .ok t
    | none => .error .notText

/-- Reads a settings file from its content. -/
def Settings.load (content : Except ReadFailure ByteArray) : Except FormatError Settings :=
  match textOf content with
  | .error e => .error (.io e.message)
  | .ok t => Settings.parse t

/-- The operations of a system with files. -/
structure Host (m : Type → Type) where
  /-- A directory is at the path. -/
  isDir : Text → m Bool
  /-- A file is at the path. -/
  isFile : Text → m Bool
  /-- The content of the file at the path. -/
  read : Text → m (Except ReadFailure ByteArray)
  /-- Replaces the content of the file at the path. -/
  write : Text → ByteArray → m Unit
  /-- The files below a directory, each by the parts of its path from there, in any order. -/
  walk : Text → m (List (List Text))
  /-- The absolute path of the current directory. -/
  currentDir : m Text
  /-- All of the standard input. -/
  input : m ByteArray

end TemplateFormat
