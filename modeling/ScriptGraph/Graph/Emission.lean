import ScriptGraph.Catalogue.Call
import ScriptGraph.Graph.Kind

namespace ScriptGraph

/-- How a node is written: as a statement after which its children go on, as one that ends its block,
around its children, as a conditional, or not at all. -/
inductive Emission where
  | line (text : String)
  | terminal (text : String)
  | block (opener closer : String)
  | conditional
  | skip
  deriving DecidableEq, Repr

namespace Emission

def ofCallText : CallText → Emission
  | .line text => line text
  | .block opener closer => block opener closer

/-- A node without code of its own, by its kind. -/
def ofKind (n : Node) : NodeKind → Emission
  | .function =>
    block ((if n.isTrue "isLocal" then "local " else "") ++ "function " ++
      n.textOr "functionName" "myFunction" ++ "(" ++ Text.trim ((n.text? "parameters").getD "") ++ ")")
      "end"
  | .conditional => conditional
  | .whileLoop => block ("while " ++ n.textOr "condition" "true" ++ " do") "end"
  | .forLoop =>
    block ("for " ++ n.textOr "loopVar" "i" ++ " = " ++ n.textOr "startVal" "1" ++ ", " ++
      n.textOr "endVal" "10" ++ ((n.filled? "step").map (", " ++ ·)).getD "" ++ " do") "end"
  | .forEach =>
    block ("for " ++ n.textOr "variables" "_, value" ++ " in " ++
      n.textOr "iterable" "pairs(\x7b\x7d)" ++ " do") "end"
  | .giveBack =>
    match n.filled? "returnValue" with
    | some value => terminal ("return " ++ value)
    | none => terminal "return"
  | .declaration => line ("local " ++ n.textOr "varName" "myVar" ++ " = " ++ n.textOr "varValue" "nil")
  | .code => skip
  | .call first => ofCallText (.ofNode (n.catalogued?.getD first) n)

/-- Code that a node carries goes before its kind; a node of an unknown kind is skipped. -/
def ofNode (n : Node) : Emission :=
  match n.codeBlock? with
  | some code => line code
  | none =>
    match NodeKind.ofTag? n.kind with
    | some kind => ofKind n kind
    | none => skip

end Emission

end ScriptGraph
