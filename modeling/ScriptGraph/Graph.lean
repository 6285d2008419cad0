import ScriptGraph.Json.Writer
import ScriptGraph.Order

namespace ScriptGraph

/-- A place on the editor's canvas; `y` grows downwards. -/
structure Point where
  x : Float
  y : Float

/-- The output of a node that an edge leaves from. -/
inductive Handle where
  | flowOut | onTrue | onFalse
  deriving DecidableEq, Repr

namespace Handle

def text : Handle → String
  | flowOut => "flow-out" | onTrue => "true" | onFalse => "false"

/-- Any spelling but those of the two branches means the plain output. -/
def ofText : String → Handle
  | "true" => onTrue | "false" => onFalse | _ => flowOut

end Handle

structure Node where
  id : String
  kind : String
  data : Fields := []
  position : Point := ⟨0, 0⟩

def defaultTargetHandle : String := "flow-in"

structure Edge where
  id : String
  source : String
  target : String
  handle : Handle := .flowOut
  targetHandle : String := defaultTargetHandle
  deriving DecidableEq, Repr

structure Graph where
  nodes : List Node := []
  edges : List Edge := []

namespace Node

/-- A data field as text: strings as they are, other values as JSON, null as nothing. -/
def text? (n : Node) (key : String) : Option String :=
  match n.data.get? key with
  | none | some .null => none
  | some (.string s) => some s
  | some v => some v.compact

/-- The text of a field unless it is blank. -/
def filled? (n : Node) (key : String) : Option String :=
  (n.text? key).filter fun s => !Text.isBlankText s

def textOr (n : Node) (key fallback : String) : String := (n.filled? key).getD fallback

/-- The source text that a node stands for, whatever its kind. -/
def codeBlock? (n : Node) : Option String := n.filled? "codeBlock"

def isTrue (n : Node) (key : String) : Bool := n.text? key == some "true"

end Node

namespace Point

/-- Left to right, then top to bottom. -/
def columnsFirst (p q : Point) : Bool :=
  Order.key p.x < Order.key q.x || (Order.key p.x = Order.key q.x && Order.key p.y ≤ Order.key q.y)

/-- Top to bottom, then left to right. -/
def rowsFirst (p q : Point) : Bool :=
  Order.key p.y < Order.key q.y || (Order.key p.y = Order.key q.y && Order.key p.x ≤ Order.key q.x)

end Point

namespace Graph

def isEmpty (g : Graph) : Bool := g.nodes.isEmpty

def hasNode (g : Graph) (id : String) : Bool := g.nodes.any (·.id == id)

/-- The node with an id; of several, the last. -/
def node? (g : Graph) (id : String) : Option Node := (g.nodes.filter (·.id == id)).getLast?

/-- The edges both of whose ends are nodes. Others are disregarded. -/
def links (g : Graph) : List Edge := g.edges.filter fun e => g.hasNode e.source && g.hasNode e.target

/-- All nodes, top to bottom. -/
def inOrder (g : Graph) : List Node :=
  Order.sort (fun a b => a.position.rowsFirst b.position) g.nodes

/-- The nodes that nothing leads to, top to bottom. -/
def roots (g : Graph) : List Node :=
  let targets := g.links.map (·.target)
  Order.sort (fun a b => a.position.rowsFirst b.position)
    (g.nodes.filter fun n => !targets.contains n.id)

/-- The edges that leave a node by the given handle, or by any, with the nodes they lead to, from
left to right. -/
def children (g : Graph) (id : String) (handle : Option Handle := none) : List (Edge × Node) :=
  let leaving := g.edges.filter fun e => e.source == id && handle.all (· == e.handle) && g.hasNode id
  Order.sort (fun a b => a.2.position.columnsFirst b.2.position)
    (leaving.filterMap fun e => (g.node? e.target).map (e, ·))

def childNodes (g : Graph) (id : String) (handle : Option Handle := none) : List Node :=
  (g.children id handle).map (·.2)

/-- Adds an edge, numbered after the edges there are. -/
def connect (g : Graph) (source target : String) (handle : Handle) (mark : String := "") : Graph :=
  { g with edges := g.edges ++ [{ id := s!"edge-{g.edges.length + 1}{mark}", source, target, handle }] }

end Graph

end ScriptGraph
