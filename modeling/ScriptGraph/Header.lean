import ScriptGraph.Balance
import ScriptGraph.Catalogue

namespace ScriptGraph

/-- A script in two parts: the lines before its first action, which are kept as they are, and the rest
with the line it starts on. -/
structure SourceParts where
  header : String
  body : String
  bodyLine : Nat
  deriving DecidableEq, Repr

namespace Header

/-- How deep in blocks and brackets the text is behind a token. -/
def nest (depth : Nat) (t : Token) : Nat :=
  if Balance.isOpener t then depth + 1
  else if Balance.isCloser t then depth - 1
  else if t.kind == .punctuation then
    if ["(", "\x7b", "["].contains t.text then depth + 1
    else if [")", "\x7d", "]"].contains t.text then depth - 1
    else depth
  else depth

/-- The callees of actions, as tokens. -/
def callees : List (List Token) :=
  Catalogue.rootCallees.map fun callee => (tokenize callee).filter (!·.isEof)

/-- Do the tokens start with `callee` and an opening parenthesis? -/
def startsCall : List Token → List Token → Bool
  | [], t :: _ => t.is "("
  | c :: callee, t :: tokens => c.kind == t.kind && c.text == t.text && startsCall callee tokens
  | _, [] => false

/-- What is known before a token: whether it is accessed from the token before it, the depth, the
line at hand and the depth at its start. -/
structure State where
  accessed : Bool := false
  depth : Nat := 0
  line : Nat := 0
  lineDepth : Nat := 0

def State.atToken (s : State) (t : Token) : State :=
  if t.line = s.line then s else { s with line := t.line, lineDepth := s.depth }

/-- The first line that starts outside every block and bracket and calls an action there. -/
def firstRootLine : State → List Token → Option Nat
  | _, [] => none
  | s, t :: tokens =>
    let s := s.atToken t
    if s.depth = 0 && s.lineDepth = 0 && !s.accessed && callees.any (startsCall · (t :: tokens)) then
      some t.line
    else firstRootLine { s with accessed := t.is "." || t.is ":", depth := nest s.depth t } tokens

end Header

/-- Splits a script before its first action. Without an action all of it is body. -/
def SourceParts.ofText (text : String) : SourceParts :=
  match Header.firstRootLine {} (tokenize text) with
  | none => ⟨"", text, 1⟩
  | some line =>
    let (header, body) := Text.splitAfterLines (line - 1) text.toList
    ⟨String.ofList header, String.ofList body, line⟩

end ScriptGraph
