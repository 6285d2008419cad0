import ScriptGraph.Program.Printer
import ScriptGraph.Proofs.Everywhere
import ScriptGraph.Proofs.Induction
import ScriptGraph.Proofs.Pieces

namespace ScriptGraph

namespace Lexeme

/-- Lexemes in parentheses if `p` holds. -/
def enclosed (p : Bool) (ls : List Lexeme) : List Lexeme :=
  if p then mark "(" :: (ls ++ [mark ")"]) else ls

/-- Lists of lexemes with commas between them. -/
def commas : List (List Lexeme) → List Lexeme
  | [] => []
  | [ls] => ls
  | ls :: more => ls ++ mark "," :: commas more

/-- A parameter is a name or an ellipsis. -/
def param (s : String) : Lexeme := if s = "..." then operator s else name s

def params (names : List String) : List Lexeme :=
  mark "(" :: (commas (names.map fun s => [param s]) ++ [mark ")"])

/-- The parts of a dotted name. -/
def path (s : String) : List Lexeme := lexemesOf (pieces s.toList)

end Lexeme

open Lexeme

def BinaryOp.lexeme : BinaryOp → Lexeme
  | or => keyword "or"
  | and => keyword "and"
  | op => operator op.symbol

def UnaryOp.lexeme : UnaryOp → Lexeme
  | not => keyword "not"
  | op => operator op.symbol

mutual

/-- The lexemes of an expression as it is printed. -/
def Expr.lexemes : Expr → List Lexeme
  | .identifier s => [name s]
  | .string value quote => [literal value quote]
  | .number text => [numeral text]
  | .bool value => [keyword (if value then "true" else "false")]
  | .nil => [keyword "nil"]
  | .vararg => [operator "..."]
  | .binary op left right =>
    enclosed (left.precedence < (Printer.operandBounds op).1) left.lexemes ++ op.lexeme ::
      enclosed (right.precedence < (Printer.operandBounds op).2) right.lexemes
  | .unary op operand =>
    op.lexeme :: enclosed (operand.precedence < UnaryOp.precedence) operand.lexemes
  | .call callee args =>
    enclosed (!callee.isBarePrefix) callee.lexemes ++ mark "(" :: (commas (Expr.lexemesAll args) ++ [mark ")"])
  | .methodCall object method args =>
    enclosed (!object.isBarePrefix) object.lexemes ++ mark ":" :: name method :: mark "(" ::
      (commas (Expr.lexemesAll args) ++ [mark ")"])
  | .member object property =>
    enclosed (!object.isBarePrefix) object.lexemes ++ [operator ".", name property]
  | .index object key =>
    enclosed (!object.isBarePrefix) object.lexemes ++ mark "[" :: (key.lexemes ++ [mark "]"])
  | .table fields => mark "\x7b" :: (commas (TableField.lexemesAll fields) ++ [mark "\x7d"])
  | .function names body =>
    keyword "function" :: (params names ++ Stmt.lexemesAll body ++ [keyword "end"])

def Expr.lexemesAll : List Expr → List (List Lexeme)
  | [] => []
  | e :: es => e.lexemes :: Expr.lexemesAll es

def TableField.lexemes : TableField → List Lexeme
  | .named s value => name s :: operator "=" :: value.lexemes
  | .keyed key value => mark "[" :: (key.lexemes ++ mark "]" :: operator "=" :: value.lexemes)
  | .positional value => value.lexemes

def TableField.lexemesAll : List TableField → List (List Lexeme)
  | [] => []
  | f :: fs => f.lexemes :: TableField.lexemesAll fs

def Action.lexemes : Action → List Lexeme
  | .declare s none => [keyword "local", name s]
  | .declare s (some value) => keyword "local" :: name s :: operator "=" :: value.lexemes
  | .assign target op value => target.lexemes ++ operator op.symbol :: value.lexemes
  | .define s names body isLocal _ =>
    (if isLocal then [keyword "local"] else []) ++ keyword "function" ::
      (path s ++ params names ++ Stmt.lexemesAll body ++ [keyword "end"])
  | .conditional condition consequent rest =>
    keyword "if" :: (condition.lexemes ++ keyword "then" :: (Stmt.lexemesAll consequent ++
      Action.alternateLexemes rest))
  | .whileLoop condition body =>
    keyword "while" :: (condition.lexemes ++ keyword "do" :: (Stmt.lexemesAll body ++ [keyword "end"]))
  | .forLoop counter first last none body =>
    keyword "for" :: name counter :: operator "=" :: (first.lexemes ++ mark "," :: (last.lexemes ++
      keyword "do" :: (Stmt.lexemesAll body ++ [keyword "end"])))
  | .forLoop counter first last (some step) body =>
    keyword "for" :: name counter :: operator "=" :: (first.lexemes ++ mark "," :: (last.lexemes ++
      mark "," :: (step.lexemes ++ keyword "do" :: (Stmt.lexemesAll body ++ [keyword "end"]))))
  | .forEach names iterable body =>
    keyword "for" :: (commas (names.map fun s => [name s]) ++ keyword "in" :: (iterable.lexemes ++
      keyword "do" :: (Stmt.lexemesAll body ++ [keyword "end"])))
  | .giveBack values => keyword "return" :: commas (Expr.lexemesAll values)
  | .leaveLoop => [keyword "break"]
  | .evaluate e => e.lexemes

/-- What follows the first branch of a conditional. -/
def Action.alternateLexemes : Option (List Stmt) → List Lexeme
  | none => [keyword "end"]
  | some [.mk _ (.conditional condition consequent rest)] =>
    keyword "elseif" :: (condition.lexemes ++ keyword "then" :: (Stmt.lexemesAll consequent ++
      Action.alternateLexemes rest))
  | some body => keyword "else" :: (Stmt.lexemesAll body ++ [keyword "end"])

def Stmt.lexemes : Stmt → List Lexeme
  | .mk _ action => action.lexemes

def Stmt.lexemesAll : List Stmt → List Lexeme
  | [] => []
  | s :: ss => s.lexemes ++ Stmt.lexemesAll ss

end

/-- What follows the first branch of a conditional is an `end`, an `elseif` or an `else`. -/
theorem Action.alternateLexemes_cases (rest : Option (List Stmt)) :
    (rest = none ∧ alternateLexemes rest = [keyword "end"]) ∨
    (∃ line condition consequent more, rest = some [.mk line (.conditional condition consequent more)] ∧
      alternateLexemes rest = keyword "elseif" :: (condition.lexemes ++ keyword "then" ::
        (Stmt.lexemesAll consequent ++ alternateLexemes more))) ∨
    ∃ body, rest = some body ∧ alternateLexemes rest = keyword "else" :: (Stmt.lexemesAll body ++ [keyword "end"]) := by
  generalize hls : alternateLexemes rest = ls
  unfold alternateLexemes at hls
  split at hls
  · exact .inl ⟨rfl, hls.symm⟩
  · exact .inr (.inl ⟨_, _, _, _, rfl, hls.symm⟩)
  · exact .inr (.inr ⟨_, rfl, hls.symm⟩)

theorem Expr.lexemesAll_eq (es : List Expr) : Expr.lexemesAll es = es.map Expr.lexemes := by
  induction es with
  | nil => rfl
  | cons e es ih => simp [Expr.lexemesAll, ih]

theorem TableField.lexemesAll_eq (fs : List TableField) :
    TableField.lexemesAll fs = fs.map TableField.lexemes := by
  induction fs with
  | nil => rfl
  | cons f fs ih => simp [TableField.lexemesAll, ih]

theorem Stmt.lexemesAll_eq (ss : List Stmt) : Stmt.lexemesAll ss = ss.flatMap Stmt.lexemes := by
  induction ss with
  | nil => rfl
  | cons s ss ih => simp [Stmt.lexemesAll, ih]

end ScriptGraph
