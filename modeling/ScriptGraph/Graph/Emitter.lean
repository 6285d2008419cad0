import ScriptGraph.Text

namespace ScriptGraph

/-- Written lines, and the closers of the blocks that are open, innermost first. -/
structure Emitter where
  unit : String
  lines : List String := []
  closers : List String := []
  deriving DecidableEq, Repr

namespace Emitter

/-- A line at an indentation. Blanks at its end are cut, and a blank line is left empty. -/
def indented (indent line : String) : String :=
  let line := Text.trimEnd line
  if line.isEmpty then "" else indent ++ line

/-- Writes a text line by line, indented once for each open block. -/
def write (out : Emitter) (text : String) : Emitter :=
  let indent := Text.repeated out.unit out.closers.length
  { out with lines := out.lines ++ (Text.lines text).map (indented indent) }

def openBlock (out : Emitter) (opener closer : String) : Emitter :=
  let out := out.write opener
  { out with closers := closer :: out.closers }

def closeBlock (out : Emitter) : Emitter :=
  match out.closers with
  | [] => out
  | closer :: rest => { out with closers := rest }.write closer

/-- Writes a text at the level of the opener of the innermost block. -/
def reopen (out : Emitter) (text : String) : Emitter :=
  match out.closers with
  | [] => out.write text
  | closer :: rest =>
    let out := { out with closers := rest }.write text
    { out with closers := closer :: rest }

/-- The text with all blocks closed. -/
def finish (out : Emitter) : String :=
  "\n".intercalate (out.closers.foldl (fun out _ => out.closeBlock) out).lines

end Emitter

end ScriptGraph
