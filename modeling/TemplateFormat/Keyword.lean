import TemplateFormat.Text.Word
import TemplateFormat.Text.Basic

/-!
# Control keywords

The words that open, divide and close the blocks of a template. A keyword counts only at the start of
a statement and only as a whole word (`Keyword.leading?`).
-/

namespace TemplateFormat

/-- A word that controls the block structure. -/
inductive Keyword where
  | ifKw
  | rangeKw
  | blockKw
  | withKw
  | defineKw
  | elseKw
  | endKw
  | ignoreStartKw
  | ignoreEndKw
deriving DecidableEq, Repr, Inhabited

namespace Keyword

/-- Every keyword. No keyword is followed by a longer one that begins with it. -/
def all : List Keyword :=
  [ignoreStartKw, ignoreEndKw, ifKw, rangeKw, blockKw, withKw, defineKw, endKw, elseKw]

/-- The keyword as it is written. -/
def name : Keyword → String
  | ifKw => "if"
  | rangeKw => "range"
  | blockKw => "block"
  | withKw => "with"
  | defineKw => "define"
  | elseKw => "else"
  | endKw => "end"
  | ignoreStartKw => "prettier-ignore-start"
  | ignoreEndKw => "prettier-ignore-end"

/-- The characters of the keyword. -/
def text (k : Keyword) : Text := k.name.toList

/-- The keyword written `word`. -/
def ofText? (word : Text) : Option Keyword := all.find? fun k => k.text == word

/-- The keyword closes the innermost open block. -/
def isCloser : Keyword → Bool
  | endKw | ignoreEndKw => true
  | _ => false

/-- `t` begins with the keyword as a whole word. -/
def leads (k : Keyword) (t : Text) : Bool :=
  match Text.dropStart? k.text t with
  | some rest => atWordEnd rest
  | none => false

/-- The keyword that a statement begins with. -/
def leading? (statement : Text) : Option Keyword := all.find? fun k => k.leads statement

theorem ofText?_text (k : Keyword) : ofText? k.text = some k := by
  cases k <;> decide

end Keyword

end TemplateFormat
