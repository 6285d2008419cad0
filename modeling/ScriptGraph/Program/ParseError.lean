import ScriptGraph.Token

namespace ScriptGraph

/-- Why a token list is no program. -/
inductive ParseError where
  | unexpected (found : String) (line column : Nat)
  | expected (wanted found : String) (line column : Nat)
  | tooDeep (limit line : Nat)
  | recoveryLimit (steps : Nat) (first : ParseError)
  deriving DecidableEq, Repr

namespace ParseError

def unexpectedToken (t : Token) : ParseError := .unexpected t.describe t.line t.column

def expectedAt (wanted : String) (t : Token) : ParseError :=
  .expected wanted t.describe t.line t.column

def message : ParseError → String
  | unexpected found line column => s!"unexpected {found} at line {line}, column {column}"
  | expected wanted found line column =>
    s!"expected '{wanted}' but found {found} at line {line}, column {column}"
  | tooDeep limit line => s!"nesting deeper than {limit} levels at line {line}"
  | recoveryLimit steps first =>
    s!"gave up after {steps} recovery attempts; first error: " ++ first.message

/-- The line the error points to. -/
def line : ParseError → Nat
  | unexpected _ line _ | expected _ _ line _ | tooDeep _ line => line
  | recoveryLimit _ first => first.line

end ParseError

end ScriptGraph
