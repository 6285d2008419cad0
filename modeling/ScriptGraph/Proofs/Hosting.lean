import ScriptGraph.Graph.Sequence
import ScriptGraph.Proofs.Forest
import ScriptGraph.Proofs.Sorting

namespace ScriptGraph

/-- Later rows lie no higher. -/
def Layout.Descends (layout : Layout) : Prop :=
  ∀ ⦃i j⦄, i ≤ j → Order.key (layout.y i) ≤ Order.key (layout.y j)

theorem Layout.Descends.columnsFirst {layout : Layout} (h : layout.Descends) (depth : Nat) {i j : Nat} (hij : i ≤ j) :
    (layout.place depth i).columnsFirst (layout.place depth j) = true := by
  simp [Point.columnsFirst, place, h hij]

theorem Layout.Descends.rowsFirst {layout : Layout} (h : layout.Descends) (depth : Nat) {i j : Nat} (hij : i ≤ j) :
    (layout.place depth i).rowsFirst (layout.place depth j) = true := by
  rcases Int.lt_or_eq_of_le (h hij) with hlt | heq
  · simp [Point.rowsFirst, place, hlt]
  · simp [Point.rowsFirst, place, heq]

namespace Outline

theorem rowId_injective (mark : String) : Function.Injective (rowId mark) := by
  intro i j h
  have hdigits : Nat.toDigits 10 (i + 1) = Nat.toDigits 10 (j + 1) := by
    have hlist := congrArg String.toList h
    simpa [rowId, Nat.toString_eq_ofList_toDigits] using hlist
  have hnat := congrArg (Nat.ofDigitChars 10 · 0) hdigits
  simpa [Nat.ofDigitChars_ten_toDigits] using hnat

theorem nodup_ids_plant (layout : Layout) (mark : String) (depth : Nat) (handle : Handle) (row : Nat)
    (os : List Outline) :
    (Tree.idsAll (plant layout mark depth handle row os)).Nodup := by
  rw [ids_plant]
  exact List.Nodup.map (rowId_injective mark) List.nodup_range'

/-- The tree stands at this depth in one of the rows from `first` up to `last`. -/
def Stands (layout : Layout) (depth first last : Nat) (t : Tree) : Prop :=
  ∃ row, first ≤ row ∧ row < last ∧ t.node.position = layout.place depth row

/-- The first tree stands in the row of the second or before it, at this depth. -/
def Precedes (layout : Layout) (depth : Nat) (t u : Tree) : Prop :=
  ∃ i j, i ≤ j ∧ t.node.position = layout.place depth i ∧ u.node.position = layout.place depth j

theorem Stands.precedes {layout : Layout} {depth first middle last : Nat} {t u : Tree}
    (ht : Stands layout depth first middle t) (hu : Stands layout depth middle last u) :
    Precedes layout depth t u := by
  obtain ⟨i, _, hi, hti⟩ := ht
  obtain ⟨j, hj, _, huj⟩ := hu
  exact ⟨i, j, by omega, hti, huj⟩

theorem Stands.weaken {layout : Layout} {depth first last first' last' : Nat} {t : Tree}
    (h : Stands layout depth first last t) (hf : first' ≤ first) (hl : last ≤ last') :
    Stands layout depth first' last' t := by
  obtain ⟨row, hfirst, hlast, hpos⟩ := h
  exact ⟨row, by omega, by omega, hpos⟩

theorem stands_plant (layout : Layout) (mark : String) (os : List Outline) : ∀ depth handle row,
    ∀ t ∈ plant layout mark depth handle row os, Stands layout depth row (row + sizeAll os) t := by
  induction os using listInduction with
  | nil => simp [plant]
  | leaf kind data os ih =>
    intro depth handle row t ht
    simp only [plant, List.mem_singleton] at ht
    subst ht
    exact ⟨row, Nat.le_refl row, by simp only [sizeAll, size]; omega, rfl⟩
  | block kind data body os ihb iho =>
    intro depth handle row t ht
    simp only [plant, List.mem_cons] at ht
    simp only [sizeAll, size]
    rcases ht with rfl | ht
    · exact ⟨row, Nat.le_refl row, by omega, rfl⟩
    · exact (iho _ _ _ t ht).weaken (by omega) (by omega)
  | branch kind data consequent alternate os ihc iha iho =>
    intro depth handle row t ht
    simp only [plant, List.mem_cons] at ht
    simp only [sizeAll, size]
    rcases ht with rfl | ht
    · exact ⟨row, Nat.le_refl row, by omega, rfl⟩
    · exact (iho _ _ _ t ht).weaken (by omega) (by omega)

theorem precedes_plant (layout : Layout) (mark : String) (os : List Outline) : ∀ depth handle row,
    (plant layout mark depth handle row os).Pairwise (Precedes layout depth) := by
  induction os using listInduction with
  | nil => simp [plant]
  | leaf kind data os ih => simp [plant]
  | block kind data body os ihb iho =>
    intro depth handle row
    rw [plant]
    refine List.pairwise_cons.mpr ⟨fun u hu => ?_, iho _ _ _⟩
    obtain ⟨j, hj, _, huj⟩ := stands_plant layout mark os _ _ _ u hu
    exact ⟨row, j, by omega, rfl, huj⟩
  | branch kind data consequent alternate os ihc iha iho =>
    intro depth handle row
    rw [plant]
    refine List.pairwise_cons.mpr ⟨fun u hu => ?_, iho _ _ _⟩
    obtain ⟨j, hj, _, huj⟩ := stands_plant layout mark os _ _ _ u hu
    exact ⟨row, j, by omega, rfl, huj⟩

/-- The trees on one node are in the order of their rows. -/
theorem precedes_children (layout : Layout) (mark : String) (os : List Outline) : ∀ depth handle row,
    ∀ t ∈ Tree.subtrees (plant layout mark depth handle row os),
      ∃ below, t.children.Pairwise (Precedes layout below) := by
  induction os using listInduction with
  | nil => simp [plant, Tree.subtrees]
  | leaf kind data os ih =>
    intro depth handle row t ht
    simp only [plant] at ht
    rcases Tree.mem_subtrees_cons.mp ht with rfl | ht | ht
    · exact ⟨depth, precedes_plant ..⟩
    · exact ih _ _ _ t ht
    · exact absurd ht Tree.not_mem_subtrees_nil
  | block kind data body os ihb iho =>
    intro depth handle row t ht
    simp only [plant] at ht
    rcases Tree.mem_subtrees_cons.mp ht with rfl | ht | ht
    · exact ⟨depth + 1, precedes_plant ..⟩
    · exact ihb _ _ _ t ht
    · exact iho _ _ _ t ht
  | branch kind data consequent alternate os ihc iha iho =>
    intro depth handle row t ht
    simp only [plant] at ht
    rcases Tree.mem_subtrees_cons.mp ht with rfl | ht | ht
    · refine ⟨depth + 1, List.pairwise_append.mpr ⟨precedes_plant .., precedes_plant .., ?_⟩⟩
      intro t ht u hu
      exact (stands_plant layout mark _ _ _ _ t ht).precedes (stands_plant layout mark _ _ _ _ u hu)
    · rw [Tree.subtrees_append] at ht
      rcases List.mem_append.mp ht with ht | ht
      · exact ihc _ _ _ t ht
      · exact iha _ _ _ t ht
    · exact iho _ _ _ t ht

end Outline

/-- The nodes and links of the graph are those of the forest. -/
structure Graph.Grows (g : Graph) (ts : List Tree) : Prop where
  nodes : g.nodes = Tree.nodesAll ts
  links : g.edges.map Edge.link = Tree.linksAll none ts
  nodup : (Tree.idsAll ts).Nodup

/-- Moreover, the trees on every node stand in the order in which the graph lists them. -/
structure Graph.Hosts (g : Graph) (ts : List Tree) : Prop extends g.Grows ts where
  roots : ts.Pairwise fun t u => t.node.position.rowsFirst u.node.position = true
  below : ∀ t ∈ Tree.subtrees ts,
    t.children.Pairwise fun t u => t.node.position.columnsFirst u.node.position = true

/-- The graph of a program is the forest that its outline grows into. -/
theorem Graph.grows_ofProgram (layout : Layout) (p : Program) (mark : String) :
    (Graph.ofProgram layout p mark).Grows (Outline.plant layout mark 0 .flowOut 0 (Stmt.outlines p)) := by
  obtain ⟨es, hgraph, hes⟩ := Builder.graph_addOutlines layout (Stmt.outlines p) 0 { mark }
  simp only [List.nil_append, List.length_nil] at hgraph hes
  rw [ofProgram_eq, hgraph]
  exact ⟨rfl, hes, Outline.nodup_ids_plant ..⟩

/-- In rows that descend, the forest stands in order. -/
theorem Graph.hosts_ofProgram {layout : Layout} (h : layout.Descends) (p : Program) (mark : String) :
    (Graph.ofProgram layout p mark).Hosts (Outline.plant layout mark 0 .flowOut 0 (Stmt.outlines p)) := by
  refine ⟨grows_ofProgram layout p mark, ?_, fun t ht => ?_⟩
  · refine (Outline.precedes_plant layout mark _ 0 .flowOut 0).imp ?_
    intro t u ⟨i, j, hij, ht, hu⟩
    rw [ht, hu]
    exact h.rowsFirst 0 hij
  · obtain ⟨below, hbelow⟩ := Outline.precedes_children layout mark _ _ _ _ t ht
    refine hbelow.imp ?_
    intro t u ⟨i, j, hij, ht, hu⟩
    rw [ht, hu]
    exact h.columnsFirst below hij

theorem Node.filter_id_eq {n : Node} {ns : List Node} (hn : (ns.map (·.id)).Nodup) (hm : n ∈ ns) :
    ns.filter (·.id == n.id) = [n] := by
  induction ns with
  | nil => cases hm
  | cons m ns ih =>
    simp only [List.map_cons, List.nodup_cons] at hn
    rcases List.mem_cons.mp hm with rfl | hm
    · have hrest : ∀ m ∈ ns, m.id ≠ n.id := fun m hm he => hn.1 (List.mem_map.mpr ⟨m, hm, he⟩)
      simpa using hrest
    · have hne : m.id ≠ n.id := fun he => hn.1 (List.mem_map.mpr ⟨n, hm, he.symm⟩)
      simp [hne, ih hn.2 hm]

namespace Graph.Grows

variable {g : Graph} {ts : List Tree}

theorem hasNode_iff (h : g.Grows ts) {id : String} : g.hasNode id = true ↔ id ∈ Tree.idsAll ts := by
  simp [hasNode, h.nodes, Tree.idsAll]

theorem node?_eq (h : g.Grows ts) {t : Tree} (ht : t ∈ Tree.subtrees ts) : g.node? t.node.id = some t.node := by
  have hmem : t.node ∈ g.nodes := by
    rw [h.nodes, Tree.nodesAll_eq_subtrees]
    exact List.mem_map_of_mem ht
  have hnodup : (g.nodes.map (·.id)).Nodup := by
    have hids := h.nodup
    rwa [Tree.idsAll, ← h.nodes] at hids
  rw [node?, Node.filter_id_eq hnodup hmem, List.getLast?_singleton]

theorem filterMap_node? (handle : Option Handle) {id : String} {cs : List Tree} {es : List Edge}
    (hc : ∀ c ∈ cs, g.node? c.node.id = some c.node) (he : es.map Edge.link = cs.map (Tree.linkTo id)) :
    ((es.filter fun e => handle.all (· == e.handle)).filterMap fun e => (g.node? e.target).map (e, ·)).map
        (fun x => (x.1.handle, x.2)) =
      (cs.filter fun c => handle.all (· == c.handle)).map fun c => (c.handle, c.node) := by
  induction cs generalizing es with
  | nil =>
    have hes : es = [] := by simpa using he
    subst hes
    rfl
  | cons c cs ih =>
    obtain ⟨e, es, rfl, hlink, hrest⟩ := List.map_eq_cons_iff.mp he
    have htarget : e.target = c.node.id := congrArg (·.2.1) hlink
    have hhandle : e.handle = c.handle := congrArg (·.2.2) hlink
    have hnode := hc c List.mem_cons_self
    have htail := ih (fun c hm => hc c (List.mem_cons_of_mem _ hm)) hrest
    simp only [List.filter_cons, hhandle]
    split
    · simp only [List.filterMap_cons, htarget, hnode, Option.map_some, List.map_cons, hhandle, htail]
    · exact htail

/-- The edges that leave a node lead to the trees on it; only their order is up to the layout. -/
theorem exists_children (h : g.Grows ts) {t : Tree} (ht : t ∈ Tree.subtrees ts) (handle : Option Handle) :
    ∃ l, g.children t.node.id handle = Order.sort (fun a b => a.2.position.columnsFirst b.2.position) l ∧
      l.map (fun x => (x.1.handle, x.2)) =
        (t.children.filter fun c => handle.all (· == c.handle)).map fun c => (c.handle, c.node) := by
  have hid : g.hasNode t.node.id = true := by
    rw [h.hasNode_iff, Tree.idsAll, Tree.nodesAll_eq_subtrees, List.map_map]
    exact List.mem_map.mpr ⟨t, ht, rfl⟩
  have hlinks : (g.edges.filter fun e => e.source == t.node.id).map Edge.link =
      t.children.map (Tree.linkTo t.node.id) := by
    rw [← Tree.filter_linksAll ht h.nodup none (by simp), ← h.links, List.filter_map]
    rfl
  have hleaving : g.edges.filter (fun e => e.source == t.node.id && handle.all (· == e.handle) && g.hasNode t.node.id) =
      (g.edges.filter fun e => e.source == t.node.id).filter fun e => handle.all (· == e.handle) := by
    simp only [hid, Bool.and_true, List.filter_filter]
    simp only [Bool.and_comm]
  refine ⟨_, ?_, filterMap_node? handle (fun c hc => h.node?_eq (Tree.mem_subtrees_of_mem_children ht hc)) hlinks⟩
  rw [children, hleaving]

theorem childNodes_perm (h : g.Grows ts) {t : Tree} (ht : t ∈ Tree.subtrees ts) (handle : Option Handle) :
    (g.childNodes t.node.id handle).Perm ((t.children.filter fun c => handle.all (· == c.handle)).map Tree.node) := by
  obtain ⟨l, hl, hpairs⟩ := h.exists_children ht handle
  have hnodes := congrArg (List.map Prod.snd) hpairs
  simp only [List.map_map, Function.comp_def] at hnodes
  rw [childNodes, hl, ← hnodes, Order.sort_eq_insertionSort]
  exact (List.perm_insertionSort _ l).map _

/-- Both ends of every edge are nodes. -/
theorem links_eq (h : g.Grows ts) : g.links = g.edges := by
  refine List.filter_eq_self.mpr fun e he => ?_
  have hlink : e.link ∈ Tree.linksAll none ts := h.links ▸ List.mem_map_of_mem he
  obtain ⟨htarget, hsource⟩ := Tree.mem_ids_of_mem_linksAll hlink
  simp only [Bool.and_eq_true, h.hasNode_iff]
  exact ⟨hsource.resolve_right (by simp), htarget⟩

/-- Nothing leads to the roots of the forest, and something to every other node. -/
theorem filter_targets (h : g.Grows ts) :
    (g.nodes.filter fun n => !(g.links.map (·.target)).contains n.id) = ts.map Tree.node := by
  have htargets : g.links.map (·.target) = ts.flatMap fun t => Tree.idsAll t.children := by
    rw [h.links_eq, ← Tree.targets_linksAll_none, ← h.links, List.map_map]
    rfl
  rw [h.nodes, htargets]
  exact Tree.filter_nodesAll h.nodup

theorem roots_perm (h : g.Grows ts) : g.roots.Perm (ts.map Tree.node) := by
  rw [Graph.roots, h.filter_targets, Order.sort_eq_insertionSort]
  exact List.perm_insertionSort _ _

theorem mem_ids_of_mem_inOrder (h : g.Grows ts) {n : Node} (hn : n ∈ g.inOrder) : n.id ∈ Tree.idsAll ts := by
  rw [inOrder, Order.mem_sort, h.nodes] at hn
  exact List.mem_map_of_mem hn

end Graph.Grows

namespace Graph.Hosts

variable {g : Graph} {ts : List Tree}

/-- What leaves a node leads to the trees on it. -/
theorem children_eq (h : g.Hosts ts) {t : Tree} (ht : t ∈ Tree.subtrees ts) (handle : Option Handle) :
    (g.children t.node.id handle).map (fun x => (x.1.handle, x.2)) =
      (t.children.filter fun c => handle.all (· == c.handle)).map fun c => (c.handle, c.node) := by
  obtain ⟨l, hl, hpairs⟩ := h.exists_children ht handle
  rw [hl, Order.sort_eq_insertionSort, List.Pairwise.insertionSort_eq, hpairs]
  have hnodes := congrArg (List.map Prod.snd) hpairs
  simp only [List.map_map, Function.comp_def] at hnodes
  rw [← List.pairwise_map (f := Prod.snd) (R := fun a b : Node => a.position.columnsFirst b.position = true), hnodes]
  exact ((h.below t ht).filter _).map _ fun _ _ hle => hle

theorem childNodes_eq (h : g.Hosts ts) {t : Tree} (ht : t ∈ Tree.subtrees ts) (handle : Option Handle) :
    g.childNodes t.node.id handle = (t.children.filter fun c => handle.all (· == c.handle)).map Tree.node := by
  have hmap := congrArg (List.map Prod.snd) (h.children_eq ht handle)
  simpa only [childNodes, List.map_map, Function.comp_def] using hmap

theorem roots_eq (h : g.Hosts ts) : g.roots = ts.map Tree.node := by
  rw [Graph.roots, h.filter_targets, Order.sort_eq_insertionSort, List.Pairwise.insertionSort_eq]
  exact h.roots.map _ fun _ _ hle => hle

end Graph.Hosts

end ScriptGraph
