import ScriptGraph.Graph

namespace ScriptGraph

/-- A node as it is met on a tour: by which handle it was reached, if not as a start. -/
structure Step where
  kind : String
  data : Fields
  handle : Option Handle

namespace Step

def same (a b : Step) : Bool := a.kind == b.kind && a.data.same b.data && a.handle == b.handle

def sameAll : List Step → List Step → Bool
  | [], [] => true
  | a :: as, b :: bs => a.same b && sameAll as bs
  | _, _ => false

end Step

/-- A walk over a graph that meets every id once. -/
structure Tour where
  seen : List String := []
  steps : List Step := []

namespace Tour

/-- Meets a node and then, depth first, what it leads to. At most `fuel` nodes lie on one path. -/
def visit (g : Graph) : Nat → Tour → Option Handle × Node → Tour
  | 0, t, _ => t
  | fuel + 1, t, (handle, n) =>
    if t.seen.contains n.id then t
    else
      (g.children n.id).foldl (fun t (e, child) => visit g fuel t (some e.handle, child))
        ⟨n.id :: t.seen, t.steps ++ [⟨n.kind, n.data, handle⟩]⟩

end Tour

namespace Graph

/-- All nodes in the order of a tour from the roots, top to bottom; what no root leads to comes
last. -/
def sequence (g : Graph) : List Step :=
  ((g.roots ++ g.inOrder).foldl (fun t n => Tour.visit g g.nodes.length t (none, n)) {}).steps

/-- Equality up to ids and positions. -/
def sameStructure (g h : Graph) : Bool :=
  g.nodes.length == h.nodes.length && g.edges.length == h.edges.length &&
    Step.sameAll g.sequence h.sequence

end Graph

end ScriptGraph
