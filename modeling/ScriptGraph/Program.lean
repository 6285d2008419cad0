namespace ScriptGraph

inductive BinaryOp where
  | or | and | eq | ne | lt | gt | le | ge | concat | add | sub | mul | div | floorDiv | mod | pow
  deriving DecidableEq, Repr

namespace BinaryOp

def all : List BinaryOp :=
  [.or, .and, .eq, .ne, .lt, .gt, .le, .ge, .concat, .add, .sub, .mul, .div, .floorDiv, .mod, .pow]

def symbol : BinaryOp → String
  | or => "or" | and => "and" | eq => "==" | ne => "~=" | lt => "<" | gt => ">" | le => "<="
  | ge => ">=" | concat => ".." | add => "+" | sub => "-" | mul => "*" | div => "/"
  | floorDiv => "//" | mod => "%" | pow => "^"

def ofSymbol? (symbol : String) : Option BinaryOp := all.find? (·.symbol == symbol)

/-- How tightly the operator binds its operands. -/
def precedence : BinaryOp → Nat
  | or => 1
  | and => 2
  | eq | ne | lt | gt | le | ge => 3
  | concat => 4
  | add | sub => 5
  | mul | div | floorDiv | mod => 6
  | pow => 8

def isRightAssoc : BinaryOp → Bool
  | concat | pow => true
  | _ => false

end BinaryOp

inductive UnaryOp where
  | not | neg | len
  deriving DecidableEq, Repr

namespace UnaryOp

def all : List UnaryOp := [.not, .neg, .len]

def symbol : UnaryOp → String
  | not => "not" | neg => "-" | len => "#"

/-- Unary operators bind tighter than all binary ones but the power. -/
def precedence : Nat := 7

end UnaryOp

/-- Plain assignment, or one that combines the old value with the new one. -/
inductive AssignOp where
  | set | add | sub | mul | div
  deriving DecidableEq, Repr

namespace AssignOp

def all : List AssignOp := [.set, .add, .sub, .mul, .div]

def symbol : AssignOp → String
  | set => "=" | add => "+=" | sub => "-=" | mul => "*=" | div => "/="

end AssignOp

mutual

/-- An expression. Literals keep the text they were written with. -/
inductive Expr where
  | identifier (name : String)
  | string (value : String) (quote : Char)
  | number (text : String)
  | bool (value : Bool)
  | nil
  | vararg
  | binary (op : BinaryOp) (left right : Expr)
  | unary (op : UnaryOp) (operand : Expr)
  | call (callee : Expr) (args : List Expr)
  | methodCall (object : Expr) (method : String) (args : List Expr)
  | member (object : Expr) (property : String)
  | index (object key : Expr)
  | table (fields : List TableField)
  | function (params : List String) (body : List Stmt)

inductive TableField where
  | named (name : String) (value : Expr)
  | keyed (key value : Expr)
  | positional (value : Expr)

/-- What a statement does. The name of a defined function is written with its dots and colon. An
`elseif` is an alternate that holds just the next conditional. -/
inductive Action where
  | declare (name : String) (value : Option Expr)
  | assign (target : Expr) (op : AssignOp) (value : Expr)
  | define (name : String) (params : List String) (body : List Stmt) (isLocal isMethod : Bool)
  | conditional (condition : Expr) (consequent : List Stmt) (alternate : Option (List Stmt))
  | whileLoop (condition : Expr) (body : List Stmt)
  | forLoop (counter : String) (first last : Expr) (step : Option Expr) (body : List Stmt)
  | forEach (names : List String) (iterable : Expr) (body : List Stmt)
  | giveBack (values : List Expr)
  | leaveLoop
  | evaluate (expr : Expr)

/-- A statement and the line it starts on. -/
inductive Stmt where
  | mk (line : Nat) (action : Action)

end

namespace Stmt

def line : Stmt → Nat
  | mk line _ => line

def action : Stmt → Action
  | mk _ action => action

end Stmt

namespace Expr

def isFunction : Expr → Bool
  | function .. => true
  | _ => false

/-- The content of a string literal. -/
def literal? : Expr → Option String
  | string value _ => some value
  | _ => none

/-- Can the expression stand to the left of an assignment? -/
def isAssignable : Expr → Bool
  | identifier _ | member .. | index .. => true
  | _ => false

end Expr

abbrev Program := List Stmt

end ScriptGraph
