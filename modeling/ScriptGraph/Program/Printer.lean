import ScriptGraph.Program
import ScriptGraph.Text

namespace ScriptGraph

def defaultIndent : String := "    "

namespace Expr

/-- Anything but an operator expression holds together in every operand position. -/
def precedence : Expr → Nat
  | binary op .. => op.precedence
  | unary .. => UnaryOp.precedence
  | _ => 255

/-- Names, accesses and calls can be called or accessed further without parentheses. -/
def isBarePrefix : Expr → Bool
  | identifier _ | member .. | index .. | call .. | methodCall .. => true
  | _ => false

end Expr

namespace Printer

def parens (p : Bool) (text : String) : String := if p then "(" ++ text ++ ")" else text

def lineBreak (unit : String) (level : Nat) : String := "\n" ++ Text.repeated unit level

def params (names : List String) : String := "(" ++ ", ".intercalate names ++ ")"

/-- The least precedence an operator asks of its left and right operands. -/
def operandBounds (op : BinaryOp) : Nat × Nat :=
  if op.isRightAssoc then (op.precedence + 1, op.precedence)
  else (op.precedence, op.precedence + 1)

/-- Two minus signs in a row would start a comment. -/
def unaryText (op : UnaryOp) (operand : String) : String :=
  match op with
  | .not => "not " ++ operand
  | .neg => if operand.toList.head? = some '-' then "- " ++ operand else "-" ++ operand
  | .len => "#" ++ operand

mutual

/-- An expression at block level `level`, with the fewest parentheses that keep its structure. -/
def expr (unit : String) (level : Nat) : Expr → String
  | .identifier name => name
  | .string value quote => String.singleton quote ++ value ++ String.singleton quote
  | .number text => text
  | .bool value => if value then "true" else "false"
  | .nil => "nil"
  | .vararg => "..."
  | .binary op left right =>
    let (leftBound, rightBound) := operandBounds op
    parens (left.precedence < leftBound) (expr unit level left) ++ " " ++ op.symbol ++ " " ++
      parens (right.precedence < rightBound) (expr unit level right)
  | .unary op operand =>
    unaryText op (parens (operand.precedence < UnaryOp.precedence) (expr unit level operand))
  | .call callee args =>
    parens (!callee.isBarePrefix) (expr unit level callee) ++ "(" ++ exprs unit level args ++ ")"
  | .methodCall object method args =>
    parens (!object.isBarePrefix) (expr unit level object) ++ ":" ++ method ++ "(" ++
      exprs unit level args ++ ")"
  | .member object property =>
    parens (!object.isBarePrefix) (expr unit level object) ++ "." ++ property
  | .index object key =>
    parens (!object.isBarePrefix) (expr unit level object) ++ "[" ++ expr unit level key ++ "]"
  | .table fields => "\x7b" ++ tableFields unit level fields ++ "\x7d"
  | .function names [] => "function" ++ params names ++ " end"
  | .function names body => "function" ++ params names ++ block unit level body ++ "end"

/-- Expressions with commas between them. -/
def exprs (unit : String) (level : Nat) : List Expr → String
  | [] => ""
  | [e] => expr unit level e
  | e :: es => expr unit level e ++ ", " ++ exprs unit level es

def tableFields (unit : String) (level : Nat) : List TableField → String
  | [] => ""
  | [f] => tableField unit level f
  | f :: fs => tableField unit level f ++ ", " ++ tableFields unit level fs

def tableField (unit : String) (level : Nat) : TableField → String
  | .named name value => name ++ " = " ++ expr unit level value
  | .keyed key value => "[" ++ expr unit level key ++ "] = " ++ expr unit level value
  | .positional value => expr unit level value

/-- A block: its statements on lines of their own, one level in, and the start of the line after. -/
def block (unit : String) (level : Nat) : List Stmt → String
  | [] => lineBreak unit level
  | s :: ss => lineBreak unit (level + 1) ++ stmt unit (level + 1) s ++ block unit level ss

def stmt (unit : String) (level : Nat) : Stmt → String
  | .mk _ action => actionText unit level action

def actionText (unit : String) (level : Nat) : Action → String
  | .declare name none => "local " ++ name
  | .declare name (some value) => "local " ++ name ++ " = " ++ expr unit level value
  | .assign target op value =>
    expr unit level target ++ " " ++ op.symbol ++ " " ++ expr unit level value
  | .define name names body isLocal _ =>
    (if isLocal then "local function " else "function ") ++ name ++ params names ++
      block unit level body ++ "end"
  | .conditional condition consequent rest =>
    "if " ++ expr unit level condition ++ " then" ++ block unit level consequent ++
      alternate unit level rest
  | .whileLoop condition body =>
    "while " ++ expr unit level condition ++ " do" ++ block unit level body ++ "end"
  | .forLoop counter first last none body =>
    "for " ++ counter ++ " = " ++ expr unit level first ++ ", " ++ expr unit level last ++ " do" ++
      block unit level body ++ "end"
  | .forLoop counter first last (some step) body =>
    "for " ++ counter ++ " = " ++ expr unit level first ++ ", " ++ expr unit level last ++ ", " ++
      expr unit level step ++ " do" ++ block unit level body ++ "end"
  | .forEach names iterable body =>
    "for " ++ ", ".intercalate names ++ " in " ++ expr unit level iterable ++ " do" ++
      block unit level body ++ "end"
  | .giveBack [] => "return"
  | .giveBack values => "return " ++ exprs unit level values
  | .leaveLoop => "break"
  | .evaluate e => expr unit level e

/-- What follows the first branch of a conditional. An alternate that is just another conditional
is written as `elseif`. -/
def alternate (unit : String) (level : Nat) : Option (List Stmt) → String
  | none => "end"
  | some [.mk _ (.conditional condition consequent rest)] =>
    "elseif " ++ expr unit level condition ++ " then" ++ block unit level consequent ++
      alternate unit level rest
  | some body => "else" ++ block unit level body ++ "end"

end

def program (unit : String) (p : Program) : String :=
  "\n".intercalate (p.map (stmt unit 0))

end Printer

/-- The text of an expression that starts its own line. -/
def Expr.text (e : Expr) : String := Printer.expr defaultIndent 0 e

def Stmt.text (s : Stmt) : String := Printer.stmt defaultIndent 0 s

end ScriptGraph
