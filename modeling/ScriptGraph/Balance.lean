import ScriptGraph.Token.Scan

namespace ScriptGraph

/-- How many keywords of a text open a block, and how many close one. -/
structure Balance where
  openers : Nat
  closers : Nat
  deriving DecidableEq, Repr

namespace Balance

def opening : List String := ["function", "if", "do", "repeat"]

def closing : List String := ["end", "until"]

def isOpener (t : Token) : Bool := t.kind == .keyword && opening.contains t.text

def isCloser (t : Token) : Bool := t.kind == .keyword && closing.contains t.text

/-- Counts tokens, so that nothing in a string or comment counts. -/
def ofText (source : String) : Balance :=
  let tokens := rawTokens source
  ⟨tokens.countP isOpener, tokens.countP isCloser⟩

def isBalanced (b : Balance) : Bool := b.openers == b.closers

/-- Closers that are needed. -/
def missing (b : Balance) : Nat := b.openers - b.closers

/-- Closers that close nothing. -/
def surplus (b : Balance) : Nat := b.closers - b.openers

def describe? (b : Balance) : Option String :=
  if 0 < b.missing then some s!"{b.missing} block(s) not closed with 'end'"
  else if 0 < b.surplus then some s!"{b.surplus} 'end' without an opening block"
  else none

/-- Appends a line `end` for every block that is left open. -/
def close (source : String) : String :=
  match (ofText source).missing with
  | 0 => source
  | n => Text.trimEnd source ++ Text.repeated "\nend" n

end Balance

end ScriptGraph
