import ScriptGraph.Proofs.Induction

namespace ScriptGraph

/-- Conditions on single nodes of a program. A block is the program itself or any statement list
inside it, the bodies of anonymous functions included. -/
structure Rules where
  expr : Expr → Prop := fun _ => True
  field : TableField → Prop := fun _ => True
  action : Action → Prop := fun _ => True
  block : List Stmt → Prop := fun _ => True

mutual

/-- The rules hold at every node inside an expression. -/
def Expr.Every (P : Rules) : Expr → Prop
  | .identifier name => P.expr (.identifier name)
  | .string value quote => P.expr (.string value quote)
  | .number text => P.expr (.number text)
  | .bool value => P.expr (.bool value)
  | .nil => P.expr .nil
  | .vararg => P.expr .vararg
  | .binary op left right => P.expr (.binary op left right) ∧ left.Every P ∧ right.Every P
  | .unary op operand => P.expr (.unary op operand) ∧ operand.Every P
  | .call callee args => P.expr (.call callee args) ∧ callee.Every P ∧ Expr.EveryAll P args
  | .methodCall object method args =>
    P.expr (.methodCall object method args) ∧ object.Every P ∧ Expr.EveryAll P args
  | .member object property => P.expr (.member object property) ∧ object.Every P
  | .index object key => P.expr (.index object key) ∧ object.Every P ∧ key.Every P
  | .table fields => P.expr (.table fields) ∧ TableField.EveryAll P fields
  | .function params body =>
    P.expr (.function params body) ∧ P.block body ∧ Stmt.EveryAll P body

def Expr.EveryAll (P : Rules) : List Expr → Prop
  | [] => True
  | e :: es => e.Every P ∧ Expr.EveryAll P es

def Expr.EveryOption (P : Rules) : Option Expr → Prop
  | none => True
  | some e => e.Every P

def TableField.Every (P : Rules) : TableField → Prop
  | .named name value => P.field (.named name value) ∧ value.Every P
  | .keyed key value => P.field (.keyed key value) ∧ key.Every P ∧ value.Every P
  | .positional value => P.field (.positional value) ∧ value.Every P

def TableField.EveryAll (P : Rules) : List TableField → Prop
  | [] => True
  | f :: fs => f.Every P ∧ TableField.EveryAll P fs

def Action.Every (P : Rules) : Action → Prop
  | .declare name value => P.action (.declare name value) ∧ Expr.EveryOption P value
  | .assign target op value => P.action (.assign target op value) ∧ target.Every P ∧ value.Every P
  | .define name params body isLocal isMethod =>
    P.action (.define name params body isLocal isMethod) ∧ P.block body ∧ Stmt.EveryAll P body
  | .conditional condition consequent alternate =>
    P.action (.conditional condition consequent alternate) ∧ condition.Every P ∧
      (P.block consequent ∧ Stmt.EveryAll P consequent) ∧ Stmt.EveryOption P alternate
  | .whileLoop condition body =>
    P.action (.whileLoop condition body) ∧ condition.Every P ∧ P.block body ∧ Stmt.EveryAll P body
  | .forLoop counter first last step body =>
    P.action (.forLoop counter first last step body) ∧ first.Every P ∧ last.Every P ∧
      Expr.EveryOption P step ∧ P.block body ∧ Stmt.EveryAll P body
  | .forEach names iterable body =>
    P.action (.forEach names iterable body) ∧ iterable.Every P ∧ P.block body ∧ Stmt.EveryAll P body
  | .giveBack values => P.action (.giveBack values) ∧ Expr.EveryAll P values
  | .leaveLoop => P.action .leaveLoop
  | .evaluate e => P.action (.evaluate e) ∧ e.Every P

def Stmt.Every (P : Rules) : Stmt → Prop
  | .mk _ action => action.Every P

def Stmt.EveryAll (P : Rules) : List Stmt → Prop
  | [] => True
  | s :: ss => s.Every P ∧ Stmt.EveryAll P ss

def Stmt.EveryOption (P : Rules) : Option (List Stmt) → Prop
  | none => True
  | some body => P.block body ∧ Stmt.EveryAll P body

end

/-- The rules hold at every node of a program. -/
def Program.Every (P : Rules) (p : Program) : Prop := P.block p ∧ Stmt.EveryAll P p

variable {P : Rules}

theorem Expr.everyAll_iff {es : List Expr} : Expr.EveryAll P es ↔ ∀ e ∈ es, e.Every P := by
  induction es with
  | nil => simp [Expr.EveryAll]
  | cons e es ih => simp [Expr.EveryAll, ih]

theorem Expr.everyOption_iff {o : Option Expr} : Expr.EveryOption P o ↔ ∀ e ∈ o, e.Every P := by
  cases o <;> simp [Expr.EveryOption]

theorem TableField.everyAll_iff {fs : List TableField} :
    TableField.EveryAll P fs ↔ ∀ f ∈ fs, f.Every P := by
  induction fs with
  | nil => simp [TableField.EveryAll]
  | cons f fs ih => simp [TableField.EveryAll, ih]

theorem Stmt.everyAll_iff {ss : List Stmt} : Stmt.EveryAll P ss ↔ ∀ s ∈ ss, s.Every P := by
  induction ss with
  | nil => simp [Stmt.EveryAll]
  | cons s ss ih => simp [Stmt.EveryAll, ih]

theorem Stmt.everyOption_iff {o : Option (List Stmt)} :
    Stmt.EveryOption P o ↔ ∀ body ∈ o, P.block body ∧ ∀ s ∈ body, s.Every P := by
  cases o <;> simp [Stmt.EveryOption, Stmt.everyAll_iff]

theorem Action.Every.self {a : Action} (h : a.Every P) : P.action a := by
  cases a with
  | leaveLoop => exact h
  | _ => exact h.1

theorem Stmt.Every.action_every {s : Stmt} (h : s.Every P) : s.action.Every P := by
  cases s
  exact h

/-- Where `P` and `Q` hold, `R` does. -/
structure Rules.Imply (P Q R : Rules) : Prop where
  expr : ∀ e, P.expr e → Q.expr e → R.expr e
  field : ∀ f, P.field f → Q.field f → R.field f
  action : ∀ a, P.action a → Q.action a → R.action a
  block : ∀ ss, P.block ss → Q.block ss → R.block ss

theorem Rules.Imply.cases {P Q R : Rules} (h : Rules.Imply P Q R) :
    SyntaxCases (fun e => e.Every P → e.Every Q → e.Every R) (fun f => f.Every P → f.Every Q → f.Every R)
      (fun a => a.Every P → a.Every Q → a.Every R) (fun s => s.Every P → s.Every Q → s.Every R) where
  identifier _ := h.expr _
  string _ _ := h.expr _
  number _ := h.expr _
  bool _ := h.expr _
  nil := h.expr _
  vararg := h.expr _
  binary _ _ _ ihl ihr hp hq := ⟨h.expr _ hp.1 hq.1, ihl hp.2.1 hq.2.1, ihr hp.2.2 hq.2.2⟩
  unary _ _ ih hp hq := ⟨h.expr _ hp.1 hq.1, ih hp.2 hq.2⟩
  call _ _ ihc iha hp hq := ⟨h.expr _ hp.1 hq.1, ihc hp.2.1 hq.2.1, Expr.everyAll_iff.mpr fun e he =>
    iha e he (Expr.everyAll_iff.mp hp.2.2 e he) (Expr.everyAll_iff.mp hq.2.2 e he)⟩
  methodCall _ _ _ iho iha hp hq := ⟨h.expr _ hp.1 hq.1, iho hp.2.1 hq.2.1, Expr.everyAll_iff.mpr fun e he =>
    iha e he (Expr.everyAll_iff.mp hp.2.2 e he) (Expr.everyAll_iff.mp hq.2.2 e he)⟩
  member _ _ ih hp hq := ⟨h.expr _ hp.1 hq.1, ih hp.2 hq.2⟩
  index _ _ iho ihk hp hq := ⟨h.expr _ hp.1 hq.1, iho hp.2.1 hq.2.1, ihk hp.2.2 hq.2.2⟩
  table _ ih hp hq := ⟨h.expr _ hp.1 hq.1, TableField.everyAll_iff.mpr fun f hf =>
    ih f hf (TableField.everyAll_iff.mp hp.2 f hf) (TableField.everyAll_iff.mp hq.2 f hf)⟩
  function _ _ ih hp hq := ⟨h.expr _ hp.1 hq.1, h.block _ hp.2.1 hq.2.1, Stmt.everyAll_iff.mpr fun s hs =>
    ih s hs (Stmt.everyAll_iff.mp hp.2.2 s hs) (Stmt.everyAll_iff.mp hq.2.2 s hs)⟩
  named _ _ ih hp hq := ⟨h.field _ hp.1 hq.1, ih hp.2 hq.2⟩
  keyed _ _ ihk ihv hp hq := ⟨h.field _ hp.1 hq.1, ihk hp.2.1 hq.2.1, ihv hp.2.2 hq.2.2⟩
  positional _ ih hp hq := ⟨h.field _ hp.1 hq.1, ih hp.2 hq.2⟩
  declare _ _ ih hp hq := ⟨h.action _ hp.1 hq.1, Expr.everyOption_iff.mpr fun e he =>
    ih e he (Expr.everyOption_iff.mp hp.2 e he) (Expr.everyOption_iff.mp hq.2 e he)⟩
  assign _ _ _ iht ihv hp hq := ⟨h.action _ hp.1 hq.1, iht hp.2.1 hq.2.1, ihv hp.2.2 hq.2.2⟩
  define _ _ _ _ _ ih hp hq := ⟨h.action _ hp.1 hq.1, h.block _ hp.2.1 hq.2.1, Stmt.everyAll_iff.mpr fun s hs =>
    ih s hs (Stmt.everyAll_iff.mp hp.2.2 s hs) (Stmt.everyAll_iff.mp hq.2.2 s hs)⟩
  conditional _ _ _ ihc iht ihr hp hq := by
    refine ⟨h.action _ hp.1 hq.1, ihc hp.2.1 hq.2.1, ⟨h.block _ hp.2.2.1.1 hq.2.2.1.1, Stmt.everyAll_iff.mpr fun s hs =>
      iht s hs (Stmt.everyAll_iff.mp hp.2.2.1.2 s hs) (Stmt.everyAll_iff.mp hq.2.2.1.2 s hs)⟩,
      Stmt.everyOption_iff.mpr fun body hb => ?_⟩
    have hp := Stmt.everyOption_iff.mp hp.2.2.2 body hb
    have hq := Stmt.everyOption_iff.mp hq.2.2.2 body hb
    exact ⟨h.block _ hp.1 hq.1, fun s hs => ihr body hb s hs (hp.2 s hs) (hq.2 s hs)⟩
  whileLoop _ _ ihc ihb hp hq := ⟨h.action _ hp.1 hq.1, ihc hp.2.1 hq.2.1, h.block _ hp.2.2.1 hq.2.2.1,
    Stmt.everyAll_iff.mpr fun s hs =>
      ihb s hs (Stmt.everyAll_iff.mp hp.2.2.2 s hs) (Stmt.everyAll_iff.mp hq.2.2.2 s hs)⟩
  forLoop _ _ _ _ _ ihf ihl ihs ihb hp hq := ⟨h.action _ hp.1 hq.1, ihf hp.2.1 hq.2.1, ihl hp.2.2.1 hq.2.2.1,
    Expr.everyOption_iff.mpr fun e he =>
      ihs e he (Expr.everyOption_iff.mp hp.2.2.2.1 e he) (Expr.everyOption_iff.mp hq.2.2.2.1 e he),
    h.block _ hp.2.2.2.2.1 hq.2.2.2.2.1, Stmt.everyAll_iff.mpr fun s hs =>
      ihb s hs (Stmt.everyAll_iff.mp hp.2.2.2.2.2 s hs) (Stmt.everyAll_iff.mp hq.2.2.2.2.2 s hs)⟩
  forEach _ _ _ ihi ihb hp hq := ⟨h.action _ hp.1 hq.1, ihi hp.2.1 hq.2.1, h.block _ hp.2.2.1 hq.2.2.1,
    Stmt.everyAll_iff.mpr fun s hs =>
      ihb s hs (Stmt.everyAll_iff.mp hp.2.2.2 s hs) (Stmt.everyAll_iff.mp hq.2.2.2 s hs)⟩
  giveBack _ ih hp hq := ⟨h.action _ hp.1 hq.1, Expr.everyAll_iff.mpr fun e he =>
    ih e he (Expr.everyAll_iff.mp hp.2 e he) (Expr.everyAll_iff.mp hq.2 e he)⟩
  leaveLoop hp hq := h.action _ hp hq
  evaluate _ ih hp hq := ⟨h.action _ hp.1 hq.1, ih hp.2 hq.2⟩
  stmt _ _ ih hp hq := ih hp hq

theorem Rules.Imply.program {P Q R : Rules} (h : Rules.Imply P Q R) {p : Program} (hp : Program.Every P p)
    (hq : Program.Every Q p) : Program.Every R p :=
  ⟨h.block _ hp.1 hq.1, Stmt.everyAll_iff.mpr fun s hs =>
    h.cases.statement s (Stmt.everyAll_iff.mp hp.2 s hs) (Stmt.everyAll_iff.mp hq.2 s hs)⟩

end ScriptGraph
