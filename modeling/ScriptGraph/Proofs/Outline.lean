import ScriptGraph.Graph.OfProgram
import ScriptGraph.Proofs.Induction

namespace ScriptGraph

/-- A statement as the node it becomes, with the statements it encloses. -/
inductive Outline where
  | leaf (kind : String) (data : Fields)
  | block (kind : String) (data : Fields) (body : List Outline)
  | branch (kind : String) (data : Fields) (consequent alternate : List Outline)

namespace Outline

/-- A call: a node of the catalogue around the body of its handler, or text. -/
def ofCall (callee : String) (args : List Expr) (text : String) (body : List Outline) : Outline :=
  match CallMatch.ofCall? callee args with
  | none => .leaf NodeKind.code.tag (Builder.labelled callee [("codeBlock", text)])
  | some m =>
    let data := (Builder.labelled m.entry.title []).insertAll m.fields
    if m.body.isSome then .block m.entry.kind data body else .leaf m.entry.kind data

end Outline

mutual

def Stmt.outlines : List Stmt → List Outline
  | [] => []
  | s :: ss => s.outline :: Stmt.outlines ss

def Stmt.outline : Stmt → Outline
  | .mk line action => action.outline (Stmt.mk line action).text

def Action.outline (text : String) : Action → Outline
  | .declare name value =>
    .leaf NodeKind.declaration.tag (Builder.titled .declaration
      [("varName", name), ("varValue", (value.map Expr.text).getD "nil"), ("codeBlock", text)])
  | .assign target _ value =>
    .leaf NodeKind.declaration.tag (Builder.titled .declaration
      [("varName", target.text), ("varValue", value.text), ("codeBlock", text)])
  | .define name params body isLocal _ =>
    .block NodeKind.function.tag (Builder.functionData name params isLocal) (Stmt.outlines body)
  | .conditional condition consequent alternate =>
    .branch NodeKind.conditional.tag (Builder.titled .conditional [("condition", condition.text)])
      (Stmt.outlines consequent) (Stmt.alternateOutlines alternate)
  | .whileLoop condition body =>
    .block NodeKind.whileLoop.tag (Builder.titled .whileLoop [("condition", condition.text)]) (Stmt.outlines body)
  | .forLoop counter first last step body =>
    .block NodeKind.forLoop.tag (Builder.forData counter first last step) (Stmt.outlines body)
  | .forEach names iterable body =>
    .block NodeKind.forEach.tag (Builder.titled .forEach
      [("variables", ", ".intercalate names), ("iterable", iterable.text)]) (Stmt.outlines body)
  | .giveBack values =>
    .leaf NodeKind.giveBack.tag (Builder.titled .giveBack
      [("returnValue", ", ".intercalate (values.map Expr.text))])
  | .leaveLoop => .leaf NodeKind.code.tag (Builder.labelled "break" [("codeBlock", text)])
  | .evaluate e => e.outline text

def Stmt.alternateOutlines : Option (List Stmt) → List Outline
  | none => []
  | some body => Stmt.outlines body

/-- The outline of an expression that is a statement. -/
def Expr.outline (text : String) : Expr → Outline
  | .call callee args => .ofCall callee.text args text (Expr.handlerOutlines args)
  | .methodCall object method args =>
    .ofCall (object.text ++ ":" ++ method) args text (Expr.handlerOutlines args)
  | _ => .leaf NodeKind.code.tag (Builder.labelled NodeKind.code.title [("codeBlock", text)])

def Expr.handlerOutlines : List Expr → List Outline
  | [] => []
  | .function _ body :: _ => Stmt.outlines body
  | _ :: args => Expr.handlerOutlines args

end

namespace Builder

mutual

def addOutlines (layout : Layout) (depth : Nat) : List Outline → Builder → Builder
  | [], b => b
  | o :: os, b => addOutlines layout depth os (addOutline layout depth o b)

def addOutline (layout : Layout) (depth : Nat) : Outline → Builder → Builder
  | .leaf kind data => leaf layout depth kind data
  | .block kind data body => block layout depth kind data (addOutlines layout (depth + 1) body)
  | .branch kind data consequent alternate =>
    branch layout depth kind data (addOutlines layout (depth + 1) consequent)
      (addOutlines layout (depth + 1) alternate)

end

theorem call_eq (layout : Layout) (depth : Nat) (callee : String) (args : List Expr) (text : String)
    (body : List Outline) : call layout depth callee args text (addOutlines layout (depth + 1) body) =
      addOutline layout depth (.ofCall callee args text body) := by
  unfold call Outline.ofCall
  cases CallMatch.ofCall? callee args with
  | none => rfl
  | some m =>
    obtain ⟨entry, fields, body⟩ := m
    cases body <;> rfl

mutual

theorem addStmts_eq (layout : Layout) (depth : Nat) : ∀ ss : List Stmt,
    addStmts layout depth ss = addOutlines layout depth (Stmt.outlines ss)
  | [] => by
    funext b
    rw [addStmts, Stmt.outlines, addOutlines]
  | s :: ss => by
    funext b
    rw [addStmts, Stmt.outlines, addOutlines, addStmts_eq layout depth ss, addStmt_eq layout depth s]

theorem addStmt_eq (layout : Layout) (depth : Nat) : ∀ s : Stmt,
    addStmt layout depth s = addOutline layout depth s.outline
  | .mk line action => by rw [addStmt, Stmt.outline, addAction_eq layout depth _ action]

theorem addAction_eq (layout : Layout) (depth : Nat) (text : String) : ∀ a : Action,
    addAction layout depth text a = addOutline layout depth (a.outline text)
  | .declare name value => by rw [addAction, Action.outline, addOutline, declaration]
  | .assign target op value => by rw [addAction, Action.outline, addOutline, declaration]
  | .define name params body isLocal isMethod => by
    rw [addAction, Action.outline, addOutline, addStmts_eq layout (depth + 1) body]
  | .conditional condition consequent alternate => by
    rw [addAction, Action.outline, addOutline, addStmts_eq layout (depth + 1) consequent,
      addAlternate_eq layout (depth + 1) alternate]
  | .whileLoop condition body => by
    rw [addAction, Action.outline, addOutline, addStmts_eq layout (depth + 1) body]
  | .forLoop counter first last step body => by
    rw [addAction, Action.outline, addOutline, addStmts_eq layout (depth + 1) body]
  | .forEach names iterable body => by
    rw [addAction, Action.outline, addOutline, addStmts_eq layout (depth + 1) body]
  | .giveBack values => by rw [addAction, Action.outline, addOutline]
  | .leaveLoop => by rw [addAction, Action.outline, addOutline, code]
  | .evaluate e => by rw [addAction, Action.outline, addExpr_eq layout depth text e]

theorem addAlternate_eq (layout : Layout) (depth : Nat) : ∀ o : Option (List Stmt),
    addAlternate layout depth o = addOutlines layout depth (Stmt.alternateOutlines o)
  | none => by
    funext b
    rw [addAlternate, Stmt.alternateOutlines, addOutlines]
  | some body => by
    funext b
    rw [addAlternate, Stmt.alternateOutlines, addStmts_eq layout depth body]

theorem addExpr_eq (layout : Layout) (depth : Nat) (text : String) : ∀ e : Expr,
    addExpr layout depth text e = addOutline layout depth (e.outline text)
  | .call callee args => by
    rw [addExpr, Expr.outline, addHandler_eq layout (depth + 1) args, call_eq]
  | .methodCall object method args => by
    rw [addExpr, Expr.outline, addHandler_eq layout (depth + 1) args, call_eq]
  | .identifier _ | .string .. | .number _ | .bool _ | .nil | .vararg | .binary .. | .unary .. | .member .. | .index ..
  | .table _ | .function .. => by rw [addExpr, Expr.outline, addOutline, code] <;> simp

theorem addHandler_eq (layout : Layout) (depth : Nat) : ∀ args : List Expr,
    addHandler layout depth args = addOutlines layout depth (Expr.handlerOutlines args)
  | [] => by
    funext b
    rw [addHandler, Expr.handlerOutlines, addOutlines]
  | e :: args => by
    funext b
    cases e with
    | function params body => rw [addHandler, Expr.handlerOutlines, addStmts_eq layout depth body]
    | _ => rw [addHandler, Expr.handlerOutlines, addHandler_eq layout depth args] <;> simp

end

end Builder

/-- The body of the first function among the arguments of a call. -/
def Expr.handler : List Expr → List Stmt
  | [] => []
  | .function _ body :: _ => body
  | _ :: args => Expr.handler args

/-- The statement lists that become nodes below the node of a statement. -/
def Action.bodies : Action → List (List Stmt)
  | .define _ _ body _ _ | .whileLoop _ body | .forLoop _ _ _ _ body | .forEach _ _ body => [body]
  | .conditional _ consequent alternate => [consequent, alternate.getD []]
  | .evaluate (.call _ args) | .evaluate (.methodCall _ _ args) => [Expr.handler args]
  | _ => []

theorem Expr.handlerOutlines_eq (args : List Expr) : Expr.handlerOutlines args = Stmt.outlines (Expr.handler args) := by
  induction args with
  | nil => rw [Expr.handlerOutlines, Expr.handler, Stmt.outlines]
  | cons e args ih =>
    cases e with
    | function params body => rw [Expr.handlerOutlines, Expr.handler]
    | _ => rw [Expr.handlerOutlines, Expr.handler, ih] <;> simp

theorem Stmt.alternateOutlines_eq (o : Option (List Stmt)) : Stmt.alternateOutlines o = Stmt.outlines (o.getD []) := by
  cases o with
  | none => rw [Stmt.alternateOutlines, Option.getD_none, Stmt.outlines]
  | some body => rw [Stmt.alternateOutlines, Option.getD_some]

/-- Statement by statement, with the property known of the bodies. -/
theorem Stmt.bodyInduction {P : List Stmt → Prop} (nil : P [])
    (cons : ∀ line action ss, (∀ body ∈ Action.bodies action, P body) → P ss → P (.mk line action :: ss)) :
    ∀ ss, P ss := by
  have hlist {ss : List Stmt} (h : ∀ s ∈ ss, ∀ body ∈ s.action.bodies, P body) : P ss := by
    induction ss with
    | nil => exact nil
    | cons s ss ih =>
      obtain ⟨hs, hss⟩ := List.forall_mem_cons.mp h
      obtain ⟨line, action⟩ := s
      exact cons line action ss hs (ih hss)
  have hhandler {args : List Expr} (h : ∀ e ∈ args, P (Expr.handler [e])) : P (Expr.handler args) := by
    induction args with
    | nil => exact nil
    | cons e args ih =>
      obtain ⟨he, hargs⟩ := List.forall_mem_cons.mp h
      cases e with
      | function params body => exact he
      | _ => exact ih hargs
  -- an expression carries the property of its own body, and of the handler if it is a call
  have hcases : SyntaxCases (fun e => P (Expr.handler [e]) ∧ ∀ body ∈ (Action.evaluate e).bodies, P body)
      (fun _ => True) (fun a => ∀ body ∈ a.bodies, P body) (fun s => ∀ body ∈ s.action.bodies, P body) := {
    identifier _ := ⟨nil, by simp [Action.bodies]⟩
    string _ _ := ⟨nil, by simp [Action.bodies]⟩
    number _ := ⟨nil, by simp [Action.bodies]⟩
    bool _ := ⟨nil, by simp [Action.bodies]⟩
    nil := ⟨nil, by simp [Action.bodies]⟩
    vararg := ⟨nil, by simp [Action.bodies]⟩
    binary _ _ _ _ _ := ⟨nil, by simp [Action.bodies]⟩
    unary _ _ _ := ⟨nil, by simp [Action.bodies]⟩
    call _ _ _ iha := ⟨nil, by simpa [Action.bodies] using hhandler fun e he => (iha e he).1⟩
    methodCall _ _ _ _ iha := ⟨nil, by simpa [Action.bodies] using hhandler fun e he => (iha e he).1⟩
    member _ _ _ := ⟨nil, by simp [Action.bodies]⟩
    index _ _ _ _ := ⟨nil, by simp [Action.bodies]⟩
    table _ _ := ⟨nil, by simp [Action.bodies]⟩
    function _ _ ih := ⟨hlist ih, by simp [Action.bodies]⟩
    named _ _ _ := trivial
    keyed _ _ _ _ := trivial
    positional _ _ := trivial
    declare _ _ _ := by simp [Action.bodies]
    assign _ _ _ _ _ := by simp [Action.bodies]
    define _ _ _ _ _ ih := by simpa [Action.bodies] using hlist ih
    conditional _ _ alternate _ iht ihr := by
      refine List.forall_mem_cons.mpr ⟨hlist iht, List.forall_mem_singleton.mpr ?_⟩
      cases alternate with
      | none => exact nil
      | some body => exact hlist (ihr body rfl)
    whileLoop _ _ _ ihb := by simpa [Action.bodies] using hlist ihb
    forLoop _ _ _ _ _ _ _ _ ihb := by simpa [Action.bodies] using hlist ihb
    forEach _ _ _ _ ihb := by simpa [Action.bodies] using hlist ihb
    giveBack _ _ := by simp [Action.bodies]
    leaveLoop := by simp [Action.bodies]
    evaluate _ ih := ih.2
    stmt _ _ ih := ih }
  exact fun ss => hlist (hcases.block ss)

/-- The graph of a program is grown from its outline. -/
theorem Graph.ofProgram_eq (layout : Layout) (p : Program) (mark : String) :
    Graph.ofProgram layout p mark = (Builder.addOutlines layout 0 (Stmt.outlines p) { mark }).graph := by
  rw [Graph.ofProgram, Builder.addStmts_eq]

end ScriptGraph
