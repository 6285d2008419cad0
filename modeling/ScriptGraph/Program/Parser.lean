import ScriptGraph.Program
import ScriptGraph.Program.Cursor

namespace ScriptGraph

/-- The parsers of one nesting level: what may stand inside the construct at hand. Each opens its
level itself. -/
structure Nested where
  expression : Parser Expr
  concat : Parser Expr
  operand : Parser Expr
  block : List String → Parser (List Stmt)

namespace Parser

/-- The operator ahead, if it is one of `ops`. -/
def operatorAhead (ops : List BinaryOp) : Parser (Option BinaryOp) :=
  look fun s => ops.find? fun op => s.check op.symbol

/-- Operands joined by operators of one precedence, grouped to the left. Each operator counts as a
level, since the tree gets as deep as the chain is long. -/
def leftChain (ops : List BinaryOp) (item : Parser Expr) : Parser Expr :=
  chained do
    let first ← item
    iterate first fun left => do
      match ← operatorAhead ops with
      | none => return none
      | some op =>
        enter
        let _ ← next
        return some (.binary op left (← item))

/-- The arguments of a call, parentheses included. -/
def arguments (inner : Nested) : Parser (List Expr) := do
  expect "("
  let args ← if ← check ")" then pure [] else separated inner.expression (eat ",")
  expect ")"
  return args

/-- One parameter, and whether another is due. An ellipsis is always the last. -/
def parameter : Parser (String × Bool) := do
  if ← eat "..." then return ("...", false)
  let name ← identifier
  return (name, ← eat ",")

def parameters : Parser (List String) := do
  expect "("
  let names ← if ← check ")" then pure []
    else unfold true fun due => if due then some <$> parameter else pure none
  expect ")"
  return names

/-- A body up to its `end`, which may be missing. -/
def body (inner : Nested) : Parser (List Stmt) := do
  let stmts ← inner.block ["end"]
  let _ ← eat "end"
  return stmts

def tableField (inner : Nested) : Parser TableField := do
  if ← eat "[" then
    let key ← inner.expression
    expect "]"
    expect "="
    return .keyed key (← inner.expression)
  if ← look fun s => s.peek.kind = .identifier && s.peekNext.is "=" then
    let name ← next
    let _ ← next
    return .named name.text (← inner.expression)
  return .positional (← inner.expression)

def tableFields (inner : Nested) : Parser (List TableField) :=
  unfold true fun due => do
    if !due || (← look fun s => s.check "\x7d" || s.atEof) then return none
    let field ← tableField inner
    if ← eat "," then return some (field, true)
    return some (field, ← eat ";")

def primary (inner : Nested) : Parser Expr := do
  let t ← peek
  match t.kind with
  | .string => let _ ← next; return .string t.text (t.quote.getD '"')
  | .number => let _ ← next; return .number t.text
  | .identifier => let _ ← next; return .identifier t.text
  | .keyword =>
    match t.text with
    | "true" => let _ ← next; return .bool true
    | "false" => let _ ← next; return .bool false
    | "nil" => let _ ← next; return .nil
    | "function" =>
      let _ ← next
      let names ← parameters
      return .function names (← body inner)
    | _ => refuse
  | .operator =>
    if t.text = "..." then
      let _ ← next
      return .vararg
    refuse
  | .punctuation =>
    match t.text with
    | "(" =>
      let _ ← next
      let e ← inner.expression
      expect ")"
      return e
    | "\x7b" =>
      let _ ← next
      let fields ← tableFields inner
      expect "\x7d"
      return .table fields
    | _ => refuse
  | .comment | .eof => refuse

/-- One call or access on `e`, if one is ahead. -/
def trailer (inner : Nested) (e : Expr) : Parser (Option Expr) := do
  if !(← look (·.checkAny ["(", ":", ".", "["])) then return none
  enter
  if ← check "(" then return some (.call e (← arguments inner))
  if ← eat ":" then
    let method ← identifier
    return some (.methodCall e method (← arguments inner))
  if ← eat "." then return some (.member e (← identifier))
  expect "["
  let key ← inner.expression
  expect "]"
  return some (.index e key)

/-- A primary expression with its calls and accesses, each of which counts as a level. -/
def access (inner : Nested) : Parser Expr :=
  chained do iterate (← primary inner) (trailer inner)

def power (inner : Nested) : Parser Expr := do
  let base ← access inner
  if ← eat "^" then return .binary .pow base (← inner.operand)
  return base

def unaryAhead : Parser (Option UnaryOp) :=
  look fun s =>
    match s.peek.kind, s.peek.text with
    | .keyword, "not" => some .not
    | .operator, "-" => some .neg
    | .operator, "#" => some .len
    | _, _ => none

def unary (inner : Nested) : Parser Expr := do
  match ← unaryAhead with
  | some op =>
    let _ ← next
    return .unary op (← inner.operand)
  | none => power inner

def sum (inner : Nested) : Parser Expr :=
  leftChain [.add, .sub] (leftChain [.mul, .div, .floorDiv, .mod] (unary inner))

/-- Concatenation groups to the right. -/
def concatenation (inner : Nested) : Parser Expr := do
  let left ← sum inner
  if ← eat ".." then return .binary .concat left (← inner.concat)
  return left

def disjunction (inner : Nested) : Parser Expr :=
  leftChain [.or] (leftChain [.and] (leftChain [.eq, .ne, .lt, .gt, .le, .ge] (concatenation inner)))

/-- The name of a function: names joined by dots, the last perhaps by a colon, which makes it a
method. -/
def functionName : Parser (String × Bool) := do
  let first ← identifier
  iterate (first, false) fun (name, isMethod) => do
    if isMethod then return none
    if ← eat "." then return some (name ++ "." ++ (← identifier), false)
    if ← eat ":" then return some (name ++ ":" ++ (← identifier), true)
    return none

/-- A function definition behind its keyword. -/
def definition (inner : Nested) (isLocal : Bool) : Parser Action := do
  let (name, isMethod) ← if isLocal then (·, false) <$> identifier else functionName
  let names ← parameters
  return .define name names (← body inner) isLocal isMethod

def localDeclaration (inner : Nested) : Parser Action := do
  if ← eat "function" then return ← definition inner true
  let name ← identifier
  if ← eat "=" then return .declare name (some (← inner.expression))
  return .declare name none

/-- A conditional from its `if` or `elseif` on; a chain of them shares one `end`. -/
def conditionalWithin (inner : Nested) : List Token → Parser Stmt
  | [] => refuse
  | _ :: budget => do
    let keyword ← next
    let condition ← inner.expression
    let _ ← eat "then"
    let consequent ← inner.block ["else", "elseif", "end"]
    if ← check "elseif" then
      let rest ← conditionalWithin inner budget
      return .mk keyword.line (.conditional condition consequent (some [rest]))
    if ← eat "else" then
      let alternate ← body inner
      return .mk keyword.line (.conditional condition consequent (some alternate))
    let _ ← eat "end"
    return .mk keyword.line (.conditional condition consequent none)

def conditional (inner : Nested) : Parser Stmt := fun s => conditionalWithin inner s.budget s

def whileLoop (inner : Nested) : Parser Action := do
  let condition ← inner.expression
  let _ ← eat "do"
  return .whileLoop condition (← body inner)

/-- A loop over numbers or over an iterator, behind its keyword. -/
def forLoop (inner : Nested) : Parser Action := do
  let name ← identifier
  if ← eat "=" then
    let first ← inner.expression
    expect ","
    let last ← inner.expression
    let step ← if ← eat "," then some <$> inner.expression else pure none
    let _ ← eat "do"
    return .forLoop name first last step (← body inner)
  let names ← many do if ← eat "," then some <$> identifier else pure none
  expect "in"
  let iterable ← inner.expression
  let _ ← eat "do"
  return .forEach (name :: names) iterable (← body inner)

/-- The values of a return, if its block goes on, and the semicolon that may end it. -/
def returnValues (inner : Nested) : Parser (List Expr) := do
  let bare ← look fun s => s.atEof || s.checkAny ["end", "else", "elseif", "until", ";"]
  let values ← if bare then pure [] else separated inner.expression (eat ",")
  let _ ← eat ";"
  return values

/-- An assignment or an expression on its own. -/
def expressionStatement (inner : Nested) : Parser Action := do
  let e ← inner.expression
  match ← look fun s => AssignOp.all.find? fun op => s.check op.symbol with
  | none => return .evaluate e
  | some op =>
    if !e.isAssignable then refuse
    let _ ← next
    return .assign e op (← inner.expression)

/-- The keyword a statement starts with. -/
def statementKeyword : Parser (Option String) :=
  look fun s => if s.peek.kind = .keyword then some s.peek.text else none

/-- One statement, or none for a semicolon. -/
def statement (inner : Nested) : Parser (Option Stmt) := do
  let line := (← peek).line
  match ← statementKeyword with
  | some "local" => let _ ← next; return some (.mk line (← localDeclaration inner))
  | some "function" => let _ ← next; return some (.mk line (← definition inner false))
  | some "if" => some <$> conditional inner
  | some "while" => let _ ← next; return some (.mk line (← whileLoop inner))
  | some "for" => let _ ← next; return some (.mk line (← forLoop inner))
  | some "return" => let _ ← next; return some (.mk line (.giveBack (← returnValues inner)))
  | some "break" => let _ ← next; return some (.mk line .leaveLoop)
  | _ =>
    if ← eat ";" then return none
    return some (.mk line (← expressionStatement inner))

/-- The statements up to one of `stops` or the end of input, neither of which is taken. -/
def statements (inner : Nested) (stops : List String) : Parser (List Stmt) := do
  let stmts ← many do
    if ← look fun s => s.atEof || s.checkAny stops then return none
    some <$> statement inner
  return stmts.filterMap id

/-- A block is a level of its own, which stays open if a statement fails. -/
def block (inner : Nested) (stops : List String) : Parser (List Stmt) := do
  enter
  let stmts ← statements inner stops
  leave
  return stmts

end Parser

namespace Nested

/-- No further level fits in. -/
def full : Nested := ⟨.tooDeep, .tooDeep, .tooDeep, fun _ => .tooDeep⟩

/-- The parsers with room for `n` levels. -/
def ofRoom : Nat → Nested
  | 0 => full
  | n + 1 =>
    let inner := ofRoom n
    { expression := .within (.disjunction inner)
      concat := .within (.concatenation inner)
      operand := .within (.unary inner)
      block := .block inner }

/-- The parsers for the insides of top statements. -/
def top : Nested := ofRoom maxDepth

end Nested

namespace Program

/-- Reads a whole token list; the first error ends the reading. -/
def parse (tokens : List Token) : Except ParseError Program :=
  match Parser.statements Nested.top [] (.ofTokens tokens) with
  | .ok stmts _ => .ok stmts
  | .error e _ => .error e

end Program

end ScriptGraph
