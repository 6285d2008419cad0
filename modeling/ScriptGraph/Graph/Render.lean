import ScriptGraph.Balance
import ScriptGraph.Graph.Emission
import ScriptGraph.Graph.Emitter
import ScriptGraph.Settings

namespace ScriptGraph

/-- A problem that was worked around; it leaves a comment in the text. -/
inductive Warning where
  | depthExceeded (node : String) (limit : Nat)
  | unreachable (node : String)
  deriving DecidableEq, Repr

namespace Warning

def message : Warning → String
  | depthExceeded node limit =>
    s!"block nesting deeper than {limit} levels at node {node}, subtree omitted"
  | unreachable node => s!"node {node} is not reachable from any root"

def comment (w : Warning) : String := "-- luavisual: " ++ w.message

end Warning

/-- The state of a walk: the ids that are done, the warnings so far, and the block being written. -/
structure Walk where
  visited : List String := []
  warnings : List Warning := []
  out : Emitter

namespace Walk

def mark (w : Walk) (id : String) : Walk := { w with visited := id :: w.visited }

def write (w : Walk) (text : String) : Walk := { w with out := w.out.write text }

def warn (w : Walk) (warning : Warning) : Walk :=
  { w with warnings := w.warnings ++ [warning], out := w.out.write warning.comment }

end Walk

namespace Graph

/-- Marks a node and all it leads to as done, as far as `fuel` nodes on a path. -/
def skipNode (g : Graph) : Nat → List String → Node → List String
  | 0, visited, _ => visited
  | fuel + 1, visited, n =>
    if visited.contains n.id then visited
    else (g.childNodes n.id).foldl (g.skipNode fuel) (n.id :: visited)

def skipAll (g : Graph) (w : Walk) (nodes : List Node) : Walk :=
  { w with visited := nodes.foldl (g.skipNode g.nodes.length) w.visited }

/-- The children in the first branch of a conditional and those that follow it. If none is tagged for
the branch, the plain children are the branch. -/
def branchBody (g : Graph) (id : String) : List Node × List Node :=
  let plain := g.childNodes id (some .flowOut)
  match g.childNodes id (some .onTrue) with
  | [] => (plain, [])
  | consequent => (consequent, plain)

/-- Leaves out a node that is nested too deep, with all it leads to. -/
def cutOff (g : Graph) (limit : Nat) (w : Walk) (n : Node) : Walk :=
  g.skipAll (w.warn (.depthExceeded n.id limit)) (g.childNodes n.id)

def conditionText (n : Node) : String := n.textOr "condition" "true"

/-- Can a conditional that is all of an alternate be written as `elseif`? -/
def isElseif (g : Graph) (w : Walk) (n : Node) : Bool :=
  n.kind == NodeKind.conditional.tag && n.codeBlock?.isNone && !w.visited.contains n.id &&
    (g.childNodes n.id (some .flowOut)).isEmpty

/-- The `elseif` and `else` branches of a conditional, at most `fuel` of them. -/
def alternates (g : Graph) (visit : Walk → Node → Walk) : Nat → Walk → String → Walk
  | 0, w, _ => w
  | fuel + 1, w, id =>
    match g.childNodes id (some .onFalse) with
    | [] => w
    | first :: rest =>
      if rest.isEmpty && g.isElseif w first then
        let w := w.mark first.id
        let w := { w with out := w.out.reopen ("elseif " ++ conditionText first ++ " then") }
        g.alternates visit fuel ((g.branchBody first.id).1.foldl visit w) first.id
      else (first :: rest).foldl visit { w with out := w.out.reopen "else" }

/-- Writes a node and what follows from it, unless it is done. At most `fuel` nodes lie on one path,
and `depth` blocks are open. -/
def visit (g : Graph) (settings : RenderSettings) : Nat → Nat → Walk → Node → Walk
  | 0, _, w, _ => w
  | fuel + 1, depth, w, n =>
    if w.visited.contains n.id then w
    else
      let w := w.mark n.id
      let children := g.childNodes n.id
      match Emission.ofNode n with
      | .line text => children.foldl (g.visit settings fuel depth) (w.write text)
      | .skip => children.foldl (g.visit settings fuel depth) w
      | .terminal text => g.skipAll (w.write text) children
      | .block opener closer =>
        if depth < settings.maxDepth then
          let w := { w with out := w.out.openBlock opener closer }
          let w := children.foldl (g.visit settings fuel (depth + 1)) w
          { w with out := w.out.closeBlock }
        else g.cutOff settings.maxDepth w n
      | .conditional =>
        if depth < settings.maxDepth then
          let (body, after) := g.branchBody n.id
          let w := { w with out := w.out.openBlock ("if " ++ conditionText n ++ " then") "end" }
          let w := body.foldl (g.visit settings fuel (depth + 1)) w
          let w := g.alternates (g.visit settings fuel (depth + 1)) (g.nodes.length + 1) w n.id
          after.foldl (g.visit settings fuel depth) { w with out := w.out.closeBlock }
        else g.cutOff settings.maxDepth w n

end Graph

/-- The blocks written so far. -/
structure Draft where
  visited : List String := []
  warnings : List Warning := []
  blocks : List String := []

namespace Draft

/-- Writes the block that starts with a node, unless the node is done. A block that no root leads to
starts with a warning. -/
def addBlock (g : Graph) (settings : RenderSettings) (isRoot : Bool) (d : Draft) (n : Node) : Draft :=
  if d.visited.contains n.id then d
  else
    let w : Walk := { visited := d.visited, warnings := d.warnings, out := { unit := settings.indent } }
    let w := if isRoot then w else w.warn (.unreachable n.id)
    let w := g.visit settings g.nodes.length 0 w n
    ⟨w.visited, w.warnings, d.blocks ++ [w.out.finish]⟩

/-- All blocks of a graph: one for each root, and one for each cycle that no root leads to. -/
def ofGraph (g : Graph) (settings : RenderSettings) : Draft :=
  let d := g.roots.foldl (addBlock g settings true) {}
  g.inOrder.foldl (addBlock g settings false) d

end Draft

structure Rendered where
  text : String
  warnings : List Warning
  deriving DecidableEq, Repr

namespace Rendered

/-- The header and the blocks that are not blank, with empty lines between them. -/
def join (header : String) (blocks : List String) : String :=
  let parts := (if Text.isBlankText header then [] else [Text.trimEnd header]) ++
    blocks.filter fun b => !Text.isBlankText b
  Text.trimEnd (String.join (parts.map (· ++ "\n\n")))

/-- The script of a graph. Every graph has one. -/
def ofGraph (settings : RenderSettings) (g : Graph) (header : String) : Rendered :=
  let header := if Text.isBlankText header then settings.defaultHeader.getD header else header
  let d := Draft.ofGraph g settings
  let text := join header d.blocks
  ⟨if settings.balanceClosers then Balance.close text else text, d.warnings⟩

end Rendered

end ScriptGraph
