import ScriptGraph.Graph

namespace ScriptGraph

/-- Where new nodes go: the abscissa by block depth, the ordinate by row. -/
structure Layout where
  x : Nat → Float
  y : Nat → Float

/-- The distances of a regular layout. -/
structure Spacing where
  startX : Float := 100
  startY : Float := 100
  vertical : Float := 120
  indent : Float := 100

namespace Layout

def place (layout : Layout) (depth row : Nat) : Point := ⟨layout.x depth, layout.y row⟩

/-- Equal steps to the right per level and down per row. -/
def ofSpacing (s : Spacing) : Layout where
  x depth := s.startX + Float.ofNat depth * s.indent
  y row := s.startY + Float.ofNat row * s.vertical

end Layout

end ScriptGraph
