import ScriptGraph.Catalogue

namespace ScriptGraph

/-- What a node is: a statement of its own kind, a piece of code, or a call of the catalogue. -/
inductive NodeKind where
  | function | conditional | whileLoop | forLoop | forEach | giveBack | declaration | code
  | call (entry : Entry)
  deriving DecidableEq, Repr

namespace NodeKind

def tag : NodeKind → String
  | function => "function-def"
  | conditional => "logic-if"
  | whileLoop => "logic-loop"
  | forLoop => "logic-for"
  | forEach => "logic-for-in"
  | giveBack => "logic-return"
  | declaration => "variable"
  | code => "custom-code"
  | call entry => entry.kind

/-- The title that new nodes of the kind get as their label. -/
def title : NodeKind → String
  | function => "Function"
  | conditional => "If"
  | whileLoop => "While Loop"
  | forLoop => "For Loop"
  | forEach => "For Each"
  | giveBack => "Return"
  | declaration => "Variable"
  | code => "Code"
  | call entry => entry.title

/-- The kinds that are not in the catalogue. -/
def structural : List NodeKind :=
  [function, conditional, whileLoop, forLoop, forEach, giveBack, declaration, code]

/-- The kind with a tag. A tag of the catalogue stands for its first entry. -/
def ofTag? (tag : String) : Option NodeKind :=
  (structural.find? fun k => k.tag == tag).or ((Catalogue.ofKind tag).head?.map call)

end NodeKind

end ScriptGraph
