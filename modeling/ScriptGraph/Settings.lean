import ScriptGraph.Graph.Layout
import ScriptGraph.Program.Printer

namespace ScriptGraph

/-- How scripts are written: the indentation of a block, how deep blocks may nest, whether missing
closers are added, and the header of a script that comes without one. -/
structure RenderSettings where
  indent : String := defaultIndent
  maxDepth : Nat := 256
  balanceClosers : Bool := true
  defaultHeader : Option String := none
  deriving DecidableEq, Repr

/-- How scripts are read: whether malformed statements are dropped, and how many. -/
structure ReadSettings where
  recover : Bool := false
  maxRecoverySteps : Nat := 1000
  deriving DecidableEq, Repr

structure Settings where
  layout : Spacing := {}
  generator : RenderSettings := {}
  parser : ReadSettings := {}

end ScriptGraph
