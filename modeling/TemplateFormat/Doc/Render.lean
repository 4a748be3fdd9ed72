import TemplateFormat.Doc.Transform
import TemplateFormat.Word64

/-!
# Laying out documents

The renderer keeps a stack of documents, each with its indentation and mode. In flat mode soft and
normal breaks stay on the line; in broken mode they are new lines. A group met in broken mode becomes
flat if it is not marked as broken and fits: what it prints, and what the stack prints up to the next
new line, leaves the line within the page's width.

Before a new line the spaces and tabs at the end of the line are dropped; the output starts with no new
line; and a run of new lines leaves one blank line at most, verbatim and literal ones apart.

`Render.step` takes one document off the stack; `Render.run` repeats it. Every step makes the stack
lighter (`Render.weight_step`).
-/

namespace TemplateFormat

/-- How the output is laid out. -/
structure Page where
  /-- The preferred greatest width of a line, as a 64-bit number. -/
  printWidth : Nat := 80
  /-- The width of one level of indentation. -/
  tabWidth : Nat := 2
  /-- Indent with tabs and not with spaces. -/
  useTabs : Bool := false
deriving DecidableEq, Repr, Inhabited

/-- The characters of `levels` levels of indentation. -/
def Page.indentation (page : Page) (levels : Nat) : Text :=
  if page.useTabs then List.replicate levels '\t'
  else List.replicate (levels * page.tabWidth) ' '

/-- The columns left on a line. Widths are signed 64-bit numbers: one from 2^63 on is negative. -/
def Page.room (page : Page) (column : Nat) : Int :=
  Word64.signed ((page.printWidth : Int) - column)

namespace Render

/-- How the line breaks of a document are printed. -/
inductive Mode where
  | flat
  | broken
deriving DecidableEq, Repr, Inhabited

/-- A document to be printed. -/
structure Command where
  indent : Nat
  mode : Mode
  doc : Doc
deriving Repr, Inhabited

/-- What has been printed. -/
structure Output where
  /-- The characters, the latest first. -/
  chars : Text
  /-- The width of the current line. -/
  column : Nat
deriving DecidableEq, Repr, Inhabited

namespace Output

/-- Adds text to the line. -/
def write (t : Text) (o : Output) : Output := ⟨t.reverse ++ o.chars, o.column + t.length⟩

/-- The output ends with a blank line. -/
def endsBlank : Text → Bool
  | '\n' :: '\n' :: _ => true
  | _ => false

/-- Starts a new line. With `collapse`, none is added after a blank line. -/
def newline (page : Page) (indent : Nat) (collapse : Bool) (o : Output) : Output :=
  match o.chars.dropWhile isSpace with
  | [] => ⟨[], 0⟩
  | c :: cs =>
    let chars := if collapse && endsBlank (c :: cs) then c :: cs else '\n' :: c :: cs
    ⟨page.indentation indent ++ chars, indent * page.tabWidth⟩

end Output

/-- The commands for documents that share indentation and mode. -/
def commands (indent : Nat) (mode : Mode) (docs : List Doc) : List Command :=
  docs.map (Command.mk indent mode)

mutual

/-- The number of steps that a document takes. -/
def weight : Doc → Nat
  | .empty => 1
  | .text _ => 1
  | .concat docs => 1 + weightAll docs
  | .indent doc => 1 + weight doc
  | .group doc _ => 1 + weight doc
  | .line _ => 1

/-- The number of steps that documents take. -/
def weightAll : List Doc → Nat
  | [] => 0
  | d :: ds => weight d + weightAll ds

end

/-- The number of steps that a stack takes. -/
def stackWeight : List Command → Nat
  | [] => 0
  | c :: cs => weight c.doc + stackWeight cs

theorem weight_pos (d : Doc) : 0 < weight d := by
  cases d <;> unfold weight <;> omega

theorem stackWeight_commands_append (indent : Nat) (mode : Mode) (docs : List Doc)
    (rest : List Command) :
    stackWeight (commands indent mode docs ++ rest) = weightAll docs + stackWeight rest := by
  induction docs with
  | nil => simp [commands, weightAll]
  | cons d ds ih =>
    simp only [commands, List.map_cons, List.cons_append, stackWeight, weightAll] at ih ⊢
    omega

/-- The commands print within `room` columns up to the next new line, the first of them flat or not as
its mode says. -/
def fits (room : Int) (stack : List Command) : Bool :=
  if room < 0 then false
  else
    match stack with
    | [] => true
    | ⟨indent, mode, doc⟩ :: rest =>
      match doc with
      | .empty => fits room rest
      | .text t => fits (room - t.length) rest
      | .concat docs => fits room (commands indent mode docs ++ rest)
      | .indent doc => fits room (⟨indent, mode, doc⟩ :: rest)
      | .group doc broken => fits room (⟨indent, if broken then .broken else mode, doc⟩ :: rest)
      | .line kind =>
        if mode = .broken || kind.isForced then true
        else fits (if kind = .normal then room - 1 else room) rest
termination_by stackWeight stack
decreasing_by
  all_goals simp only [stackWeight_commands_append, stackWeight, weight]
  all_goals omega

/-- The mode for the contents of a group. -/
def groupMode (page : Page) (column indent : Nat) (mode : Mode) (doc : Doc) (broken : Bool)
    (rest : List Command) : Mode :=
  if broken then .broken
  else
    match mode with
    | .flat => .flat
    | .broken => if fits (page.room column) (⟨indent, .flat, doc⟩ :: rest) then .flat else .broken

/-- The output after a line break. -/
def lineBreak (page : Page) (indent : Nat) (mode : Mode) (kind : Line) (out : Output) : Output :=
  match mode, kind with
  | .flat, .soft => out
  | .flat, .normal => out.write [' ']
  | _, .literal => out.newline page 0 false
  | _, .verbatim => out.newline page indent false
  | _, _ => out.newline page indent true

/-- Takes one document off the stack: the new stack and output. -/
def step (page : Page) (c : Command) (rest : List Command) (out : Output) :
    List Command × Output :=
  match c.doc with
  | .empty => (rest, out)
  | .text t => (rest, out.write t)
  | .concat docs => (commands c.indent c.mode docs ++ rest, out)
  | .indent doc => (⟨c.indent + 1, c.mode, doc⟩ :: rest, out)
  | .group doc broken =>
    (⟨c.indent, groupMode page out.column c.indent c.mode doc broken rest, doc⟩ :: rest, out)
  | .line kind => (rest, lineBreak page c.indent c.mode kind out)

theorem weight_step (page : Page) (c : Command) (rest : List Command) (out : Output) :
    stackWeight (step page c rest out).1 < stackWeight (c :: rest) := by
  obtain ⟨indent, mode, doc⟩ := c
  cases doc <;>
    simp only [step, stackWeight, weight, stackWeight_commands_append] <;> omega

/-- Prints a stack. -/
def run (page : Page) (stack : List Command) (out : Output) : Output :=
  match stack with
  | [] => out
  | c :: rest =>
    let next := step page c rest out
    run page next.1 next.2
termination_by stackWeight stack
decreasing_by exact weight_step page c rest out

end Render

/-- The document as text. -/
def Doc.render (page : Page) (doc : Doc) : Text :=
  let out := Render.run page [⟨0, .broken, doc.propagate⟩] ⟨[], 0⟩
  (out.chars.dropWhile isSpace).reverse

end TemplateFormat
