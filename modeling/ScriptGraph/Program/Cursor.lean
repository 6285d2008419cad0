import ScriptGraph.Program.ParseError

namespace ScriptGraph

/-- Blocks, parentheses and operator chains may nest this deep. -/
def maxDepth : Nat := 100

/-- A place in a token list: the tokens to come, the end of input behind them, and how many nested
constructs are open. -/
structure Cursor where
  pending : List Token
  stop : Token
  depth : Nat
  deriving DecidableEq, Repr

namespace Cursor

/-- The start of a token list. If the list has no end of input, one is put behind its last token. -/
def ofTokens (tokens : List Token) : Cursor :=
  match tokens.getLast? with
  | none => ⟨[], .endOfInput 1 1, 0⟩
  | some t =>
    if t.isEof then ⟨tokens.dropLast, t, 0⟩
    else ⟨tokens, .endOfInput t.line (t.column + t.text.utf8ByteSize), 0⟩

def peek (s : Cursor) : Token := s.pending.headD s.stop

def peekNext (s : Cursor) : Token := s.pending.tail.headD s.stop

def atEof (s : Cursor) : Bool := s.peek.isEof

def check (s : Cursor) (text : String) : Bool := s.peek.is text

def checkAny (s : Cursor) (texts : List String) : Bool := texts.any s.check

/-- Steps over one token; an end of input is never passed. -/
def advance (s : Cursor) : Cursor :=
  match s.pending with
  | [] => s
  | t :: ts => if t.isEof then s else { s with pending := ts }

/-- The tokens that a loop can still step over, and one more. -/
def budget (s : Cursor) : List Token := s.stop :: s.pending

end Cursor

/-- What a parser makes of a cursor. An error, too, leaves the cursor somewhere. -/
inductive Outcome (α : Type) where
  | ok (value : α) (next : Cursor)
  | error (error : ParseError) (next : Cursor)

def Parser (α : Type) : Type := Cursor → Outcome α

namespace Parser

variable {α β σ : Type}

def pure (a : α) : Parser α := fun s => .ok a s

def bind (p : Parser α) (f : α → Parser β) : Parser β := fun s =>
  match p s with
  | .ok a t => f a t
  | .error e t => .error e t

instance : Monad Parser where
  pure := Parser.pure
  bind := Parser.bind

def look (f : Cursor → α) : Parser α := fun s => .ok (f s) s

def peek : Parser Token := look Cursor.peek

def check (text : String) : Parser Bool := look (·.check text)

def fail (e : ParseError) : Parser α := fun s => .error e s

/-- Fails on the token ahead. -/
def refuse : Parser α := fun s => .error (.unexpectedToken s.peek) s

/-- Takes the token ahead. -/
def next : Parser Token := fun s => .ok s.peek s.advance

/-- Takes the token ahead if it is spelled `text`, and says whether it did. -/
def eat (text : String) : Parser Bool := fun s =>
  if s.check text then .ok true s.advance else .ok false s

def expect (text : String) : Parser Unit := fun s =>
  if s.check text then .ok () s.advance else .error (.expectedAt text s.peek) s

def identifier : Parser String := fun s =>
  if s.peek.kind = .identifier then .ok s.peek.text s.advance
  else .error (.expectedAt "identifier" s.peek) s

/-- Opens a nested construct. -/
def enter : Parser Unit := fun s =>
  let t := { s with depth := s.depth + 1 }
  if t.depth > maxDepth then .error (.tooDeep maxDepth s.peek.line) t else .ok () t

/-- Fails as `enter` does when no level is left. -/
def tooDeep : Parser α := fun s =>
  .error (.tooDeep maxDepth s.peek.line) { s with depth := s.depth + 1 }

/-- Closes a nested construct. -/
def leave : Parser Unit := fun s => .ok () { s with depth := s.depth - 1 }

/-- Runs `p` one level down. The level is closed also when `p` fails. -/
def within (p : Parser α) : Parser α := fun s =>
  match enter s with
  | .error e t => .error e t
  | .ok _ t =>
    match p t with
    | .ok a u => .ok a { u with depth := u.depth - 1 }
    | .error e u => .error e { u with depth := u.depth - 1 }

/-- Runs `p` and closes whatever it opened, also when it fails. -/
def chained (p : Parser α) : Parser α := fun s =>
  match p s with
  | .ok a t => .ok a { t with depth := s.depth }
  | .error e t => .error e { t with depth := s.depth }

def iterateWithin (step : α → Parser (Option α)) : List Token → α → Parser α
  | [], a => pure a
  | _ :: budget, a =>
    bind (step a) fun
      | none => pure a
      | some b => iterateWithin step budget b

/-- Repeats `step` from `a` on until it has no next value. Every step takes a token. -/
def iterate (a : α) (step : α → Parser (Option α)) : Parser α := fun s =>
  iterateWithin step s.budget a s

def unfoldWithin (step : σ → Parser (Option (α × σ))) : List Token → σ → Parser (List α)
  | [], _ => pure []
  | _ :: budget, x =>
    bind (step x) fun
      | none => pure []
      | some (a, y) => bind (unfoldWithin step budget y) fun rest => pure (a :: rest)

/-- The items that `step` yields, one after the other, until there is none. Every step takes a
token. -/
def unfold (x : σ) (step : σ → Parser (Option (α × σ))) : Parser (List α) := fun s =>
  unfoldWithin step s.budget x s

/-- Items as long as `item` yields one. -/
def many (item : Parser (Option α)) : Parser (List α) :=
  unfold () fun _ => bind item fun a => pure (a.map fun a => (a, ()))

/-- At least one item; after each, `more` takes the separator if another item is due. -/
def separated (item : Parser α) (more : Parser Bool) : Parser (List α) :=
  unfold true fun due => if due then do return some (← item, ← more) else pure none

end Parser

end ScriptGraph
