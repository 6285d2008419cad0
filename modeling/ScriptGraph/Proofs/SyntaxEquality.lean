import ScriptGraph.Program.Recovery
import ScriptGraph.Proofs.Induction

/-!
Equality of programs is decidable, so what a parser reads can be compared with what is expected. The syntax is
nested through lists, which leaves nothing to derive: programs are compared side by side, and by induction on the
syntax the comparison decides equality.
-/

namespace ScriptGraph

mutual

def Expr.beq : Expr → Expr → Bool
  | .identifier name, .identifier name' => name == name'
  | .string value quote, .string value' quote' => value == value' && quote == quote'
  | .number text, .number text' => text == text'
  | .bool value, .bool value' => value == value'
  | .nil, .nil => true
  | .vararg, .vararg => true
  | .binary op left right, .binary op' left' right' => op == op' && left.beq left' && right.beq right'
  | .unary op operand, .unary op' operand' => op == op' && operand.beq operand'
  | .call callee args, .call callee' args' => callee.beq callee' && Expr.beqAll args args'
  | .methodCall object method args, .methodCall object' method' args' =>
    object.beq object' && method == method' && Expr.beqAll args args'
  | .member object property, .member object' property' => object.beq object' && property == property'
  | .index object key, .index object' key' => object.beq object' && key.beq key'
  | .table fields, .table fields' => TableField.beqAll fields fields'
  | .function params body, .function params' body' => params == params' && Stmt.beqAll body body'
  | _, _ => false

def Expr.beqAll : List Expr → List Expr → Bool
  | [], [] => true
  | e :: es, e' :: es' => e.beq e' && Expr.beqAll es es'
  | [], _ :: _ | _ :: _, [] => false

def Expr.beqOption : Option Expr → Option Expr → Bool
  | none, none => true
  | some e, some e' => e.beq e'
  | none, some _ | some _, none => false

def TableField.beq : TableField → TableField → Bool
  | .named name value, .named name' value' => name == name' && value.beq value'
  | .keyed key value, .keyed key' value' => key.beq key' && value.beq value'
  | .positional value, .positional value' => value.beq value'
  | _, _ => false

def TableField.beqAll : List TableField → List TableField → Bool
  | [], [] => true
  | f :: fs, f' :: fs' => f.beq f' && TableField.beqAll fs fs'
  | [], _ :: _ | _ :: _, [] => false

def Action.beq : Action → Action → Bool
  | .declare name value, .declare name' value' => name == name' && Expr.beqOption value value'
  | .assign target op value, .assign target' op' value' => target.beq target' && op == op' && value.beq value'
  | .define name params body isLocal isMethod, .define name' params' body' isLocal' isMethod' =>
    name == name' && params == params' && Stmt.beqAll body body' && isLocal == isLocal' && isMethod == isMethod'
  | .conditional condition consequent alternate, .conditional condition' consequent' alternate' =>
    condition.beq condition' && Stmt.beqAll consequent consequent' && Stmt.beqOption alternate alternate'
  | .whileLoop condition body, .whileLoop condition' body' => condition.beq condition' && Stmt.beqAll body body'
  | .forLoop counter first last step body, .forLoop counter' first' last' step' body' =>
    counter == counter' && first.beq first' && last.beq last' && Expr.beqOption step step' && Stmt.beqAll body body'
  | .forEach names iterable body, .forEach names' iterable' body' =>
    names == names' && iterable.beq iterable' && Stmt.beqAll body body'
  | .giveBack values, .giveBack values' => Expr.beqAll values values'
  | .leaveLoop, .leaveLoop => true
  | .evaluate e, .evaluate e' => e.beq e'
  | _, _ => false

def Stmt.beq : Stmt → Stmt → Bool
  | .mk line action, .mk line' action' => line == line' && action.beq action'

def Stmt.beqAll : List Stmt → List Stmt → Bool
  | [], [] => true
  | s :: ss, s' :: ss' => s.beq s' && Stmt.beqAll ss ss'
  | [], _ :: _ | _ :: _, [] => false

def Stmt.beqOption : Option (List Stmt) → Option (List Stmt) → Bool
  | none, none => true
  | some ss, some ss' => Stmt.beqAll ss ss'
  | none, some _ | some _, none => false

end

/-- Comparing with `beq` tells what is equal to `a`. -/
def Decides {α : Type} (beq : α → α → Bool) (a : α) : Prop := ∀ b, beq a b = true ↔ a = b

theorem Decides.isEqv {α : Type} {beq : α → α → Bool} {as : List α} (h : ∀ a ∈ as, Decides beq a) (bs : List α) :
    as.isEqv bs beq = true ↔ as = bs := by
  induction as generalizing bs with
  | nil => cases bs <;> simp [List.isEqv]
  | cons a as ih =>
    rw [List.forall_mem_cons] at h
    cases bs with
    | nil => simp [List.isEqv]
    | cons b bs => simp [List.isEqv, h.1 b, ih h.2 bs]

@[simp] theorem Expr.beqAll_eq_isEqv (es es' : List Expr) : Expr.beqAll es es' = es.isEqv es' Expr.beq := by
  induction es generalizing es' with
  | nil => cases es' <;> simp [Expr.beqAll, List.isEqv]
  | cons e es ih => cases es' <;> simp [Expr.beqAll, List.isEqv, ih]

@[simp] theorem TableField.beqAll_eq_isEqv (fs fs' : List TableField) :
    TableField.beqAll fs fs' = fs.isEqv fs' TableField.beq := by
  induction fs generalizing fs' with
  | nil => cases fs' <;> simp [TableField.beqAll, List.isEqv]
  | cons f fs ih => cases fs' <;> simp [TableField.beqAll, List.isEqv, ih]

@[simp] theorem Stmt.beqAll_eq_isEqv (ss ss' : List Stmt) : Stmt.beqAll ss ss' = ss.isEqv ss' Stmt.beq := by
  induction ss generalizing ss' with
  | nil => cases ss' <;> simp [Stmt.beqAll, List.isEqv]
  | cons s ss ih => cases ss' <;> simp [Stmt.beqAll, List.isEqv, ih]

theorem Expr.decides_beqOption {o : Option Expr} (h : ∀ e ∈ o, Decides Expr.beq e) : Decides Expr.beqOption o := by
  rintro (_ | e') <;> cases o with
  | none => simp [Expr.beqOption]
  | some e => simp [Expr.beqOption, h e rfl _]

theorem Stmt.decides_beqOption {o : Option (List Stmt)} (h : ∀ ss ∈ o, ∀ s ∈ ss, Decides Stmt.beq s) :
    Decides Stmt.beqOption o := by
  rintro (_ | ss') <;> cases o with
  | none => simp [Stmt.beqOption]
  | some ss => simp [Stmt.beqOption, Decides.isEqv (h ss rfl)]

theorem decides_beq :
    SyntaxCases (Decides Expr.beq) (Decides TableField.beq) (Decides Action.beq) (Decides Stmt.beq) where
  identifier name b := by cases b <;> simp [Expr.beq]
  string value quote b := by cases b <;> simp [Expr.beq]
  number text b := by cases b <;> simp [Expr.beq]
  bool value b := by cases b <;> simp [Expr.beq]
  nil b := by cases b <;> simp [Expr.beq]
  vararg b := by cases b <;> simp [Expr.beq]
  binary op left right hl hr b := by cases b <;> simp [Expr.beq, hl _, hr _, and_assoc]
  unary op operand ho b := by cases b <;> simp [Expr.beq, ho _]
  call callee args hc ha b := by cases b <;> simp [Expr.beq, hc _, Decides.isEqv ha]
  methodCall object method args ho ha b := by
    cases b <;> simp [Expr.beq, ho _, Decides.isEqv ha, and_assoc]
  member object property ho b := by cases b <;> simp [Expr.beq, ho _]
  index object key ho hk b := by cases b <;> simp [Expr.beq, ho _, hk _]
  table fields hf b := by cases b <;> simp [Expr.beq, Decides.isEqv hf]
  function params body hb b := by cases b <;> simp [Expr.beq, Decides.isEqv hb]
  named name value hv b := by cases b <;> simp [TableField.beq, hv _]
  keyed key value hk hv b := by cases b <;> simp [TableField.beq, hk _, hv _]
  positional value hv b := by cases b <;> simp [TableField.beq, hv _]
  declare name value hv b := by cases b <;> simp [Action.beq, Expr.decides_beqOption hv _]
  assign target op value ht hv b := by cases b <;> simp [Action.beq, ht _, hv _, and_assoc]
  define name params body isLocal isMethod hb b := by
    cases b <;> simp [Action.beq, Decides.isEqv hb, and_assoc]
  conditional condition consequent alternate hc ht ha b := by
    cases b <;> simp [Action.beq, hc _, Decides.isEqv ht, Stmt.decides_beqOption ha _, and_assoc]
  whileLoop condition body hc hb b := by cases b <;> simp [Action.beq, hc _, Decides.isEqv hb]
  forLoop counter first last step body hf hl hs hb b := by
    cases b <;> simp [Action.beq, hf _, hl _, Expr.decides_beqOption hs _, Decides.isEqv hb, and_assoc]
  forEach names iterable body hi hb b := by
    cases b <;> simp [Action.beq, hi _, Decides.isEqv hb, and_assoc]
  giveBack values hv b := by cases b <;> simp [Action.beq, Decides.isEqv hv]
  leaveLoop b := by cases b <;> simp [Action.beq]
  evaluate e he b := by cases b <;> simp [Action.beq, he _]
  stmt line action ha b := by cases b; simp [Stmt.beq, ha _]

instance : DecidableEq Stmt := fun s s' => decidable_of_iff (s.beq s' = true) (decides_beq.statement s s')

deriving instance DecidableEq for Recovered

end ScriptGraph
