import ScriptGraph.Catalogue.Call
import ScriptGraph.Graph.Kind
import ScriptGraph.Graph.Layout

namespace ScriptGraph

/-- A graph under construction: the next node is attached to the output `handle` of `parent`, if
there is one. All ids end in `mark`, which tells one conversion from another. -/
structure Builder where
  mark : String := ""
  graph : Graph := {}
  parent : Option String := none
  handle : Handle := .flowOut

namespace Builder

/-- The id of the next node. -/
def nextId (b : Builder) : String := s!"node-{b.graph.nodes.length + 1}{b.mark}"

/-- Adds a node in the next row, linked to the parent. -/
def add (layout : Layout) (depth : Nat) (kind : String) (data : Fields) (b : Builder) : Builder :=
  let position := layout.place depth b.graph.nodes.length
  let graph := { b.graph with nodes := b.graph.nodes ++ [{ id := b.nextId, kind, data, position }] }
  match b.parent with
  | none => { b with graph }
  | some parent => { b with graph := graph.connect parent b.nextId b.handle b.mark }

/-- Adds a node to which the next one will be attached. -/
def leaf (layout : Layout) (depth : Nat) (kind : String) (data : Fields) (b : Builder) : Builder :=
  { b.add layout depth kind data with parent := some b.nextId, handle := .flowOut }

/-- Adds a node with a body. What follows is attached where the node was. -/
def block (layout : Layout) (depth : Nat) (kind : String) (data : Fields)
    (body : Builder → Builder) (b : Builder) : Builder :=
  let filled := body (b.leaf layout depth kind data)
  { filled with parent := b.parent, handle := b.handle }

/-- Adds a node with a body for each outcome of its condition. -/
def branch (layout : Layout) (depth : Nat) (kind : String) (data : Fields)
    (consequent alternate : Builder → Builder) (b : Builder) : Builder :=
  let start := { b.add layout depth kind data with parent := some b.nextId, handle := .onTrue }
  let middle := { consequent start with parent := some b.nextId, handle := .onFalse }
  { alternate middle with parent := b.parent, handle := b.handle }

def labelled (label : String) (fields : List (String × String)) : Fields :=
  Fields.insertAll [("label", .string label)] (fields.map fun (key, value) => (key, .string value))

def titled (kind : NodeKind) (fields : List (String × String)) : Fields := labelled kind.title fields

def declaration (layout : Layout) (depth : Nat) (name value code : String) : Builder → Builder :=
  leaf layout depth NodeKind.declaration.tag
    (titled .declaration [("varName", name), ("varValue", value), ("codeBlock", code)])

/-- A statement that is kept as text. -/
def code (layout : Layout) (depth : Nat) (label text : String) : Builder → Builder :=
  leaf layout depth NodeKind.code.tag (labelled label [("codeBlock", text)])

/-- A call: a node of the catalogue if it fits an entry, else text. `body` adds the body of the
handler. -/
def call (layout : Layout) (depth : Nat) (callee : String) (args : List Expr) (text : String)
    (body : Builder → Builder) : Builder → Builder :=
  match CallMatch.ofCall? callee args with
  | none => code layout depth callee text
  | some m =>
    let data := (labelled m.entry.title []).insertAll m.fields
    if m.body.isSome then block layout depth m.entry.kind data body
    else leaf layout depth m.entry.kind data

def functionData (name : String) (params : List String) (isLocal : Bool) : Fields :=
  (labelled name [("functionName", name), ("parameters", ", ".intercalate params)]).insert "isLocal"
    (.bool isLocal)

def forData (counter : String) (first last : Expr) (step : Option Expr) : Fields :=
  titled .forLoop ([("loopVar", counter), ("startVal", first.text), ("endVal", last.text)] ++
    (step.map fun e => ("step", e.text)).toList)

mutual

def addStmts (layout : Layout) (depth : Nat) : List Stmt → Builder → Builder
  | [], b => b
  | s :: ss, b => addStmts layout depth ss (addStmt layout depth s b)

def addStmt (layout : Layout) (depth : Nat) : Stmt → Builder → Builder
  | .mk line action => addAction layout depth (Stmt.mk line action).text action

/-- Adds a statement that is written `text`. -/
def addAction (layout : Layout) (depth : Nat) (text : String) : Action → Builder → Builder
  | .declare name value =>
    declaration layout depth name ((value.map Expr.text).getD "nil") text
  | .assign target _ value => declaration layout depth target.text value.text text
  | .define name params body isLocal _ =>
    block layout depth NodeKind.function.tag (functionData name params isLocal)
      (addStmts layout (depth + 1) body)
  | .conditional condition consequent alternate =>
    branch layout depth NodeKind.conditional.tag (titled .conditional [("condition", condition.text)])
      (addStmts layout (depth + 1) consequent) (addAlternate layout (depth + 1) alternate)
  | .whileLoop condition body =>
    block layout depth NodeKind.whileLoop.tag (titled .whileLoop [("condition", condition.text)])
      (addStmts layout (depth + 1) body)
  | .forLoop counter first last step body =>
    block layout depth NodeKind.forLoop.tag (forData counter first last step)
      (addStmts layout (depth + 1) body)
  | .forEach names iterable body =>
    block layout depth NodeKind.forEach.tag
      (titled .forEach [("variables", ", ".intercalate names), ("iterable", iterable.text)])
      (addStmts layout (depth + 1) body)
  | .giveBack values =>
    leaf layout depth NodeKind.giveBack.tag
      (titled .giveBack [("returnValue", ", ".intercalate (values.map Expr.text))])
  | .leaveLoop => code layout depth "break" text
  | .evaluate e => addExpr layout depth text e

def addAlternate (layout : Layout) (depth : Nat) : Option (List Stmt) → Builder → Builder
  | none, b => b
  | some body, b => addStmts layout depth body b

/-- Adds an expression statement. -/
def addExpr (layout : Layout) (depth : Nat) (text : String) : Expr → Builder → Builder
  | .call callee args =>
    call layout depth callee.text args text (addHandler layout (depth + 1) args)
  | .methodCall object method args =>
    call layout depth (object.text ++ ":" ++ method) args text (addHandler layout (depth + 1) args)
  | _ => code layout depth NodeKind.code.title text

/-- Adds the body of the first function among the arguments of a call. If the call fits an entry with
a handler, this is the handler: nothing else in an entry takes a function. -/
def addHandler (layout : Layout) (depth : Nat) : List Expr → Builder → Builder
  | [], b => b
  | .function _ body :: _, b => addStmts layout depth body b
  | _ :: args, b => addHandler layout depth args b

end

end Builder

/-- The graph of a program: a node for each statement, in the order of the statements. -/
def Graph.ofProgram (layout : Layout) (p : Program) (mark : String := "") : Graph :=
  (Builder.addStmts layout 0 p { mark }).graph

end ScriptGraph
