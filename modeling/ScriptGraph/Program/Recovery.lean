import ScriptGraph.Program.Parser

namespace ScriptGraph

/-- A program without the statements that could not be read, and the errors in their place. -/
structure Recovered where
  program : Program
  errors : List ParseError

namespace Recovered

/-- Reading goes on at one of these after an error. -/
def syncTokens : List String := [";", "end", "local", "function"]

/-- Steps to the next synchronisation token or the end of input. -/
def seek (s : Cursor) : List Token → Cursor
  | [] => s
  | _ :: budget => if s.atEof || s.checkAny syncTokens then s else seek s.advance budget

/-- Where to go on after a statement that started at `start` failed at `s`. A statement that failed
on its first token loses just this token. -/
def resume (start s : Cursor) : Cursor :=
  let s := { s with depth := 0 }
  if s.pending.length = start.pending.length then s.advance
  else
    let t := seek s s.budget
    if t.check "end" || t.check ";" then t.advance else t

/-- The top statements from a cursor on. `dropped` holds the errors so far, of which at most `limit`
are accepted. -/
def scan (limit : Nat) : List Token → List ParseError → Cursor → Except ParseError Recovered
  | [], dropped, _ => .ok ⟨[], dropped⟩
  | _ :: budget, dropped, s =>
    if s.atEof then .ok ⟨[], dropped⟩
    else
      match Parser.statement Nested.top s with
      | .ok none t => scan limit budget dropped t
      | .ok (some stmt) t =>
        (scan limit budget dropped t).map fun r => { r with program := stmt :: r.program }
      | .error e t =>
        if dropped.length < limit then scan limit budget (dropped ++ [e]) (resume s t)
        else .error (.recoveryLimit limit (dropped.headD e))

end Recovered

/-- Reads a token list and drops the top statements that fail, at most `limit` of them. -/
def Program.parseRecovering (tokens : List Token) (limit : Nat) : Except ParseError Recovered :=
  let s := Cursor.ofTokens tokens
  Recovered.scan limit s.budget [] s

end ScriptGraph
