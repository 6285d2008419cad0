import ScriptGraph.Catalogue
import ScriptGraph.Graph
import ScriptGraph.Program.Printer
import ScriptGraph.Text.Quoted

namespace ScriptGraph

/-- The field that holds the parameters of a handler. -/
def handlerParams : String := "params"

/-- The spelling of a call's callee, and the arguments. -/
def Expr.call? : Expr → Option (String × List Expr)
  | .call callee args => some (callee.text, args)
  | .methodCall object method args => some (object.text ++ ":" ++ method, args)
  | _ => none

/-- A call that fits an entry: its fields and the body of its handler. -/
structure CallMatch where
  entry : Entry
  fields : Fields
  body : Option (List Stmt)

namespace CallMatch

/-- The fields and the body found so far, and the arguments not yet looked at. -/
structure Progress where
  fields : Fields := []
  body : Option (List Stmt) := none
  remaining : List Expr

namespace Progress

def takeHandler (p : Progress) (optional : Bool) : Option Progress :=
  match p.remaining with
  | .function params body :: rest =>
    some ⟨p.fields.insert handlerParams (.string (", ".intercalate params)), some body, rest⟩
  | [] => if optional then some p else none
  | _ => none

/-- A quoted field takes a string literal only. -/
def takeQuoted (p : Progress) (f : FieldSpec) : Option Progress :=
  match p.remaining with
  | e :: rest => e.literal?.map fun s =>
    { p with fields := p.fields.insert f.name (.string s), remaining := rest }
  | [] => if f.optional then some p else none

def takeRaw (p : Progress) (f : FieldSpec) : Option Progress :=
  match p.remaining with
  | e :: rest =>
    if e.isFunction then none
    else some { p with fields := p.fields.insert f.name (.string e.text), remaining := rest }
  | [] => if f.optional then some p else none

def takeRest (p : Progress) (f : FieldSpec) : Option Progress :=
  if p.remaining.any Expr.isFunction then none
  else
    let text := ", ".intercalate (p.remaining.map Expr.text)
    let fields := if text.isEmpty then p.fields else p.fields.insert f.name (.string text)
    some { p with fields, remaining := [] }

def take (p : Progress) : Arg → Option Progress
  | .handler _ optional => p.takeHandler optional
  | .field f =>
    match f.style with
    | .quoted => p.takeQuoted f
    | .raw => p.takeRaw f
    | .rest => p.takeRest f

end Progress

/-- Matches a call with the entry of its callee. Every argument has to fit, and none may be left. -/
def ofCall? (callee : String) (args : List Expr) : Option CallMatch := do
  let entry ← Catalogue.lookup? callee
  let p ← entry.args.foldlM Progress.take { remaining := args }
  if !p.remaining.isEmpty then none
  let fixed := entry.fixed.map fun (key, value) => (key, Json.string value)
  return ⟨entry, p.fields.insertAll fixed, p.body⟩

end CallMatch

/-- The entry by which a node is written: the first of its kind whose fixed data agree with the
node's, or else the first. -/
def Node.catalogued? (n : Node) : Option Entry :=
  let candidates := Catalogue.ofKind n.kind
  (candidates.find? fun e => e.fixed.all fun (key, value) => n.text? key == some value).or
    candidates.head?

/-- A call as text, either complete or around the body of its handler. -/
inductive CallText where
  | line (text : String)
  | block (opener closer : String)
  deriving DecidableEq, Repr

namespace CallText

/-- The arguments before and behind the handler, and the handler's parameters if it is written. -/
structure Parts where
  before : List String := []
  params : Option String := none
  behind : List String := []

def fieldText? (n : Node) (f : FieldSpec) : Option String :=
  match f.style with
  | .quoted =>
    match n.text? f.name with
    | some v => some (Text.quoted v)
    | none => if f.optional then none else some (Text.quoted f.default)
  | .raw | .rest =>
    match n.filled? f.name with
    | some v => some v
    | none => if f.optional then none else some f.default

/-- An optional handler is written only if the node records its parameters. -/
def Parts.add (n : Node) (p : Parts) : Arg → Parts
  | .handler params optional =>
    match n.text? handlerParams with
    | some recorded => { p with params := some recorded }
    | none => if optional then p else { p with params := some params }
  | .field f =>
    match fieldText? n f with
    | none => p
    | some text =>
      if p.params.isSome then { p with behind := p.behind ++ [text] }
      else { p with before := p.before ++ [text] }

def ofNode (e : Entry) (n : Node) : CallText :=
  let p := e.args.foldl (Parts.add n) {}
  match p.params with
  | none => .line (e.callee ++ "(" ++ ", ".intercalate p.before ++ ")")
  | some params =>
    .block
      (e.callee ++ "(" ++ String.join (p.before.map (· ++ ", ")) ++ "function(" ++ params ++ ")")
      ("end" ++ String.join (p.behind.map (", " ++ ·)) ++ ")")

end CallText

end ScriptGraph
