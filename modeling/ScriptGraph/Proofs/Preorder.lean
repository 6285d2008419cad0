import ScriptGraph.Proofs.Hosting

namespace ScriptGraph

namespace Tree

mutual

/-- The nodes of a tree as they are met from its root, which is reached by `handle`. -/
def steps (handle : Option Handle) : Tree → List Step
  | mk _ n cs => ⟨n.kind, n.data, handle⟩ :: stepsAll cs

def stepsAll : List Tree → List Step
  | [] => []
  | t :: ts => steps (some t.handle) t ++ stepsAll ts

end

theorem stepsAll_eq (ts : List Tree) : stepsAll ts = ts.flatMap fun t => t.steps (some t.handle) := by
  induction ts with
  | nil => rfl
  | cons t ts ih => rw [stepsAll, ih, List.flatMap_cons]

theorem stepsAll_append (ts us : List Tree) : stepsAll (ts ++ us) = stepsAll ts ++ stepsAll us := by
  simp only [stepsAll_eq, List.flatMap_append]

end Tree

namespace Tour

variable {g : Graph} {ts : List Tree}

theorem visit_seen {n : Node} {t : Tour} (h : n.id ∈ t.seen) (fuel : Nat) (handle : Option Handle) :
    visit g fuel t (handle, n) = t := by
  cases fuel with
  | zero => rfl
  | succ fuel => simp [visit, h]

/-- A node that is new is met, and then the trees on it. -/
theorem visit_new (h : g.Hosts ts) {u : Tree} (hu : u ∈ Tree.subtrees ts) {t : Tour} (hnew : u.node.id ∉ t.seen)
    (fuel : Nat) (handle : Option Handle) : visit g (fuel + 1) t (handle, u.node) =
      u.children.foldl (fun t c => visit g fuel t (some c.handle, c.node))
        ⟨u.node.id :: t.seen, t.steps ++ [⟨u.node.kind, u.node.data, handle⟩]⟩ := by
  have hchildren := h.children_eq hu none
  simp only [Option.all_none, List.filter_true] at hchildren
  have hfold (s : Tour) : (g.children u.node.id).foldl (fun t x => visit g fuel t (some x.1.handle, x.2)) s =
      u.children.foldl (fun t c => visit g fuel t (some c.handle, c.node)) s := by
    rw [← List.foldl_map (g := fun t (x : Handle × Node) => visit g fuel t (some x.1, x.2))
      (f := fun x : Edge × Node => (x.1.handle, x.2)), hchildren, List.foldl_map]
  have hseen : t.seen.contains u.node.id = false := by simpa using hnew
  simp only [visit, hseen, Bool.false_eq_true, if_false]
  exact hfold _

/-- A tour goes through new trees one after the other. -/
theorem foldl_visit (h : g.Hosts ts) (us : List Tree) : ∀ (via : Tree → Option Handle) fuel t,
    (Tree.nodesAll us).length ≤ fuel → (∀ u ∈ us, u ∈ Tree.subtrees ts) → Tree.Fresh t.seen us →
    us.foldl (fun t u => visit g fuel t (via u, u.node)) t =
      ⟨(Tree.idsAll us).reverse ++ t.seen, t.steps ++ us.flatMap fun u => u.steps (via u)⟩ := by
  induction us using Tree.listInduction with
  | nil => simp [Tree.idsAll, Tree.nodesAll]
  | cons handle n cs us ihc ihu =>
    intro via fuel t hfuel hmem hfresh
    simp only [Tree.nodesAll, Tree.nodes, List.length_append, List.length_cons] at hfuel
    obtain ⟨hroot, hmem⟩ := List.forall_mem_cons.mp hmem
    obtain ⟨hn, hcs, hus⟩ := hfresh.cons
    obtain ⟨fuel, rfl⟩ : ∃ m, fuel = m + 1 := ⟨fuel - 1, by omega⟩
    have hnode := visit_new h hroot hn fuel (via (.mk handle n cs))
    simp only [Tree.node_mk, Tree.children_mk] at hnode
    rw [ihc (fun c => some c.handle) fuel _ (by omega) (fun c => Tree.mem_subtrees_of_mem_children hroot) hcs] at hnode
    rw [List.foldl_cons]
    simp only [Tree.node_mk]
    rw [hnode, ihu via (fuel + 1) _ (by omega) hmem hus]
    simp [Tree.idsAll, Tree.nodesAll, Tree.nodes, Tree.steps, Tree.stepsAll_eq]

end Tour

/-- The tour that the sequence of a graph is taken from. -/
def Graph.tour (g : Graph) : Tour :=
  (g.roots ++ g.inOrder).foldl (fun t n => Tour.visit g g.nodes.length t (none, n)) {}

/-- A tour of a forest goes through its trees from the top. -/
theorem Graph.Hosts.tour_eq {g : Graph} {ts : List Tree} (h : g.Hosts ts) :
    g.tour = ⟨(Tree.idsAll ts).reverse, ts.flatMap (Tree.steps none)⟩ := by
  have hroots := Tour.foldl_visit h ts (fun _ => none) g.nodes.length {} (by simp [h.nodes])
    (fun _ => Tree.mem_subtrees_of_mem) ⟨h.nodup, by simp⟩
  have hrest (l : List Node) (hl : ∀ n ∈ l, n.id ∈ Tree.idsAll ts) (steps : List Step) :
      l.foldl (fun t n => Tour.visit g g.nodes.length t (none, n)) ⟨(Tree.idsAll ts).reverse, steps⟩ =
        ⟨(Tree.idsAll ts).reverse, steps⟩ := by
    induction l with
    | nil => rfl
    | cons n l ih =>
      obtain ⟨hn, hl⟩ := List.forall_mem_cons.mp hl
      rw [List.foldl_cons, Tour.visit_seen (by simpa using hn), ih hl]
  have hinOrder : ∀ n ∈ g.inOrder, n.id ∈ Tree.idsAll ts := fun n hn => h.mem_ids_of_mem_inOrder hn
  simp only [List.append_nil, List.nil_append] at hroots
  rw [tour, List.foldl_append, h.roots_eq, List.foldl_map, hroots, hrest _ hinOrder]

theorem Graph.Hosts.sequence_eq {g : Graph} {ts : List Tree} (h : g.Hosts ts) :
    g.sequence = ts.flatMap (Tree.steps none) :=
  congrArg Tour.steps h.tour_eq

end ScriptGraph
