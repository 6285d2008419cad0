import Mathlib.Data.List.Nodup
import ScriptGraph.Proofs.Renaming

namespace ScriptGraph

theorem Node.rename_self (n : Node) : n.rename (fun name => name) = n := rfl

theorem Warning.rename_self (w : Warning) : w.rename (fun name => name) = w := by
  cases w <;> rfl

namespace Graph

/-- The lists of the second graph are those of the first in another order. Ids and places tell nodes apart. -/
structure Shuffled (g h : Graph) : Prop where
  nodes : g.nodes.Perm h.nodes
  edges : g.edges.Perm h.edges
  ids : (g.nodes.map (·.id)).Nodup
  places : (g.nodes.map (·.position)).Nodup

namespace Shuffled

variable {g h : Graph} (s : g.Shuffled h)
include s

theorem hasNode (id : String) : h.hasNode id = g.hasNode id := s.nodes.any_eq.symm

theorem node? (id : String) : h.node? id = g.node? id := by
  have hperm := s.nodes.filter (·.id == id)
  rw [Graph.node?, Graph.node?]
  cases hg : g.nodes.filter (·.id == id) with
  | nil => rw [hg] at hperm; rw [hperm.nil_eq]
  | cons n ns =>
    cases ns with
    | nil =>
      rw [hg] at hperm
      rw [List.singleton_perm.mp hperm]
    | cons m ns =>
      -- two nodes would share the id
      have hsub : ((n :: m :: ns).map (·.id)).Sublist (g.nodes.map (·.id)) := (hg ▸ List.filter_sublist).map _
      have hmem (k : Node) (hk : k ∈ n :: m :: ns) : k.id = id := by
        rw [← hg] at hk
        exact beq_iff_eq.mp (List.mem_filter.mp hk).2
      have hnodup := s.ids.sublist hsub
      rw [List.map_cons, List.map_cons, hmem n (by simp), hmem m (by simp)] at hnodup
      simp at hnodup

theorem targets_contains (id : String) :
    (h.links.map (·.target)).contains id = (g.links.map (·.target)).contains id := by
  have hlinks : g.links.Perm h.links := by
    rw [links, links, funext fun e : Edge => congrArg₂ and (s.hasNode e.source) (s.hasNode e.target)]
    exact s.edges.filter _
  rw [List.contains_eq_mem, List.contains_eq_mem]
  exact decide_eq_decide.mpr (hlinks.map _).mem_iff.symm

theorem eq_of_places {a b : Node} (ha : a ∈ g.nodes) (hb : b ∈ g.nodes) (hab : a.position = b.position) : a = b :=
  List.inj_on_of_nodup_map s.places ha hb hab

theorem sort_eq {ns ms : List Node} (hperm : ns.Perm ms) (hns : ∀ n ∈ ns, n ∈ g.nodes) :
    Order.sort (fun a b => a.position.rowsFirst b.position) ns =
      Order.sort (fun a b => a.position.rowsFirst b.position) ms := by
  have hmap := Order.map_sort_eq_of_perm (f := id) (Point.isPreorder_rowsFirst.comap Node.position) hperm
    fun a ha b hb hab hba => s.eq_of_places (hns a ha) (hns b hb) (Point.eq_of_rowsFirst hab hba)
  simpa using hmap

theorem childNodes (id : String) (handle : Option Handle) : h.childNodes id handle = g.childNodes id handle := by
  let leaving (e : Edge) : Bool := e.source == id && handle.all (· == e.handle) && g.hasNode id
  have hpairs : ((g.edges.filter leaving).filterMap fun e => (g.node? e.target).map (e, ·)).Perm
      ((h.edges.filter leaving).filterMap fun e => (g.node? e.target).map (e, ·)) :=
    (s.edges.filter leaving).filterMap _
  have hmap := Order.map_sort_eq_of_perm (f := Prod.snd) (Point.isPreorder_columnsFirst.comap Node.position) hpairs
    fun a ha b hb hab hba => ?_
  · simp only [Graph.childNodes, children, s.hasNode, s.node?]
    exact hmap.symm
  · have hmem (c : Edge × Node) (hc : c ∈ (g.edges.filter leaving).filterMap fun e => (g.node? e.target).map (e, ·)) :
        c.2 ∈ g.nodes := by
      obtain ⟨e, -, hc⟩ := List.mem_filterMap.mp hc
      obtain ⟨n, hn, rfl⟩ := Option.map_eq_some_iff.mp hc
      exact List.mem_of_mem_filter (List.mem_of_getLast? hn)
    exact s.eq_of_places (hmem a ha) (hmem b hb) (Point.eq_of_columnsFirst hab hba)

theorem mirrors : g.Mirrors (fun name => name) h where
  injective := Function.injective_id
  roots := by
    have hperm := s.nodes.filter fun n => !(g.links.map (·.target)).contains n.id
    rw [List.map_id'' Node.rename_self, roots, roots]
    simp only [s.targets_contains]
    exact (s.sort_eq hperm fun n hn => List.mem_of_mem_filter hn).symm
  inOrder := by
    rw [List.map_id'' Node.rename_self]
    exact (s.sort_eq s.nodes fun n hn => hn).symm
  childNodes id handle := by
    rw [List.map_id'' Node.rename_self]
    exact s.childNodes id handle

end Shuffled

end Graph

/-- A graph whose nodes have ids and places of their own is written the same in whatever order its nodes and edges are
kept. -/
theorem Rendered.ofGraph_eq_of_perm {g h : Graph} (hids : (g.nodes.map (·.id)).Nodup)
    (hplaces : (g.nodes.map (·.position)).Nodup) (hnodes : g.nodes.Perm h.nodes) (hedges : g.edges.Perm h.edges)
    (settings : RenderSettings) (header : String) : ofGraph settings h header = ofGraph settings g header := by
  have hmirrors := Graph.Shuffled.mirrors ⟨hnodes, hedges, hids, hplaces⟩
  have htext := hmirrors.text_rendered settings header fun w _ => w.rename_self
  have hwarnings := hmirrors.warnings_draft settings
  rw [List.map_id'' Warning.rename_self] at hwarnings
  exact congrArg₂ mk htext hwarnings

/-- The branches of a conditional are told by their handles and the statements of a branch by their places, though all
edges are kept in the other order. -/
theorem Rendered.ofGraph_eq_of_perm_reverse :
    let g : Graph :=
      ⟨[{ id := "a", kind := "logic-if", position := ⟨0, 0⟩ }, { id := "b", kind := "wait", position := ⟨1, 0⟩ },
          { id := "c", kind := "logic-print", position := ⟨2, 0⟩ },
          { id := "d", kind := "logic-if", position := ⟨3, 0⟩ }],
        [{ id := "1", source := "a", target := "b", handle := .onTrue },
          { id := "2", source := "a", target := "c", handle := .onTrue },
          { id := "3", source := "a", target := "d", handle := .onFalse },
          { id := "4", source := "d", target := "b", handle := .onTrue }, { id := "5", source := "d", target := "z" }]⟩
    (g.nodes.map (·.id)).Nodup ∧ (g.nodes.map (·.position)).Nodup ∧
    ofGraph {} ⟨g.nodes.reverse, g.edges.reverse⟩ "" =
      ⟨"if true then\n    Wait(0)\n    print('Hello')\nelseif true then\nend", []⟩ := by
  intro g
  have hids : (g.nodes.map (·.id)).Nodup := by decide
  have hplaces : (g.nodes.map (·.position)).Nodup := by
    have hkeys : ((g.nodes.map (·.position)).map fun p => Order.key p.x).Nodup := by decide +kernel
    exact hkeys.of_map
  refine ⟨hids, hplaces, ?_⟩
  rw [ofGraph_eq_of_perm hids hplaces (List.reverse_perm _).symm (List.reverse_perm _).symm]
  decide +kernel

end ScriptGraph
