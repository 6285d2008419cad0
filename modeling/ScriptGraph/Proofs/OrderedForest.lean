import ScriptGraph.Proofs.Structure

namespace ScriptGraph

namespace Tree

/-- The source of a link is listed before its target. -/
theorem exists_append_of_mem_linksAll {l : String × String × Handle} {ts : List Tree} : ∀ {parent},
    l ∈ linksAll parent ts → ∃ as bs, idsAll ts = as ++ l.2.1 :: bs ∧ (l.1 ∈ as ∨ parent = some l.1) := by
  induction ts using listInduction with
  | nil => simp [linksAll]
  | cons handle n cs ts ihc iht =>
    intro parent hl
    have hids : idsAll (mk handle n cs :: ts) = n.id :: (idsAll cs ++ idsAll ts) := by
      simp [idsAll, nodesAll, nodes]
    simp only [linksAll, links, List.mem_append] at hl
    rcases hl with (hl | hl) | hl
    · cases parent with
      | none => cases hl
      | some p =>
        obtain rfl : l = (p, n.id, handle) := by simpa using hl
        exact ⟨[], _, hids, .inr rfl⟩
    · obtain ⟨as, bs, hcs, hsource⟩ := ihc hl
      refine ⟨n.id :: as, bs ++ idsAll ts, by simp [hids, hcs], .inl ?_⟩
      rcases hsource with hsource | hsource
      · exact List.mem_cons_of_mem _ hsource
      · rw [Option.some.inj hsource]
        exact List.mem_cons_self
    · obtain ⟨as, bs, hts, hsource⟩ := iht hl
      refine ⟨n.id :: (idsAll cs ++ as), bs, by simp [hids, hts], hsource.imp_left fun hm => ?_⟩
      exact List.mem_cons_of_mem _ (List.mem_append_right _ hm)

theorem nodup_targets {ts : List Tree} (hn : (idsAll ts).Nodup) : ((linksAll none ts).map (·.2.1)).Nodup := by
  rw [targets_linksAll_none]
  refine hn.sublist ?_
  rw [idsAll, nodesAll_eq_flatMap, List.map_flatMap]
  clear hn
  induction ts with
  | nil => exact .refl _
  | cons t ts ih =>
    rw [List.flatMap_cons, List.flatMap_cons]
    exact (List.sublist_cons_self _ _).append ih

/-- The links of a forest lead from its trees to the trees on them. -/
theorem mem_linksAll_none_iff {l : String × String × Handle} {ts : List Tree} (hn : (idsAll ts).Nodup) :
    l ∈ linksAll none ts ↔ ∃ t ∈ subtrees ts, ∃ c ∈ t.children, l = linkTo t.node.id c := by
  constructor
  · intro hl
    have hsource := (mem_ids_of_mem_linksAll hl).2.resolve_right (by simp)
    rw [idsAll, nodesAll_eq_subtrees, List.map_map] at hsource
    obtain ⟨t, ht, hid⟩ := List.mem_map.mp hsource
    have hmem : l ∈ (linksAll none ts).filter (·.1 == t.node.id) := List.mem_filter.mpr ⟨hl, by simpa using hid.symm⟩
    rw [filter_linksAll ht hn none (by simp)] at hmem
    obtain ⟨c, hc, rfl⟩ := List.mem_map.mp hmem
    exact ⟨t, ht, c, hc, rfl⟩
  · rintro ⟨t, ht, c, hc, rfl⟩
    have hmem := List.mem_map_of_mem (f := linkTo t.node.id) hc
    rw [← filter_linksAll ht hn none (by simp)] at hmem
    exact (List.mem_filter.mp hmem).1

/-- The steps through a forest are those of its nodes, if each node is reached as its tree hangs. -/
theorem flatMap_steps_eq (reached : String → Option Handle) (ts : List Tree) : ∀ via : Tree → Option Handle,
    (∀ t ∈ ts, reached t.node.id = via t) →
    (∀ t ∈ subtrees ts, ∀ c ∈ t.children, reached c.node.id = some c.handle) →
    ts.flatMap (fun t => t.steps (via t)) = (nodesAll ts).map fun n => ⟨n.kind, n.data, reached n.id⟩ := by
  induction ts using listInduction with
  | nil => simp [nodesAll]
  | cons handle n cs ts ihc iht =>
    intro via hroots hbelow
    obtain ⟨hroot, hroots⟩ := List.forall_mem_cons.mp hroots
    have hchildren := ihc (fun c => some c.handle) (hbelow _ (mem_subtrees_cons.mpr (.inl rfl)))
      fun t ht => hbelow t (mem_subtrees_cons.mpr (.inr (.inl ht)))
    have hrest := iht via hroots fun t ht => hbelow t (mem_subtrees_cons.mpr (.inr (.inr ht)))
    rw [node_mk] at hroot
    rw [List.flatMap_cons, hrest, steps, stepsAll_eq, hchildren, nodesAll, nodes, List.map_append, List.map_cons, hroot]

end Tree

namespace Outline

theorem Apt.kind_iff {shape : Shape} {kind : String} {data : Fields} (h : Apt shape kind data) :
    kind = NodeKind.conditional.tag ↔ shape = .branch := by
  obtain ⟨k, rfl, hk, rfl⟩ := h
  constructor
  · intro htag
    rcases (NodeKind.keys_eq_of_tag_eq k hk.mem .conditional (by decide +kernel) htag).2 with rfl | ⟨-, hcall⟩
    · rfl
    · cases hcall
  · intro hshape
    cases k with
    | conditional => rfl
    | call entry =>
      simp only [NodeKind.shape] at hshape
      split at hshape <;> cases hshape
    | _ => cases hshape

/-- The trees on a conditional hang by its two branches, all others by the plain output. -/
theorem handle_children (layout : Layout) (mark : String) {os : List Outline} : ∀ depth handle row, EveryAll Apt os →
    ∀ t ∈ Tree.subtrees (plant layout mark depth handle row os), ∀ c ∈ t.children,
      (c.handle = .flowOut ↔ t.node.kind ≠ NodeKind.conditional.tag) := by
  induction os using listInduction with
  | nil => simp [plant, Tree.subtrees]
  | leaf kind data os ih =>
    intro depth handle row h t ht c hc
    rw [EveryAll] at h
    simp only [plant] at ht
    rcases Tree.mem_subtrees_cons.mp ht with rfl | ht | ht
    · have hkind : kind ≠ NodeKind.conditional.tag := by
        intro he
        cases h.1.kind_iff.mp he
      exact iff_of_true (handle_of_mem_plant layout mark os _ _ _ c hc) hkind
    · exact ih _ _ _ h.2 t ht c hc
    · exact absurd ht Tree.not_mem_subtrees_nil
  | block kind data body os ihb iho =>
    intro depth handle row h t ht c hc
    rw [EveryAll] at h
    simp only [plant] at ht
    rcases Tree.mem_subtrees_cons.mp ht with rfl | ht | ht
    · have hkind : kind ≠ NodeKind.conditional.tag := by
        intro he
        cases h.1.kind_iff.mp he
      exact iff_of_true (handle_of_mem_plant layout mark body _ _ _ c hc) hkind
    · exact ihb _ _ _ h.2.1 t ht c hc
    · exact iho _ _ _ h.2.2 t ht c hc
  | branch kind data consequent alternate os ihc iha iho =>
    intro depth handle row h t ht c hc
    rw [EveryAll] at h
    simp only [plant] at ht
    rcases Tree.mem_subtrees_cons.mp ht with rfl | ht | ht
    · refine iff_of_false ?_ (not_not_intro (h.1.kind_iff.mpr rfl))
      rcases List.mem_append.mp hc with hc | hc
      · rw [handle_of_mem_plant layout mark consequent _ _ _ c hc]
        decide
      · rw [handle_of_mem_plant layout mark alternate _ _ _ c hc]
        decide
    · rw [Tree.subtrees_append] at ht
      rcases List.mem_append.mp ht with ht | ht
      · exact ihc _ _ _ h.2.1 t ht c hc
      · exact iha _ _ _ h.2.2.1 t ht c hc
    · exact iho _ _ _ h.2.2.2 t ht c hc

end Outline

namespace Graph

/-- Nodes are numbered as they are listed, with the mark of their conversion, edges lead from a node to a later one,
at most one of them to each node, and only conditionals have branches, which is all they have. -/
structure Ordered (g : Graph) (mark : String) : Prop where
  ids : ∀ i n, g.nodes[i]? = some n → n.id = s!"node-{i + 1}{mark}"
  nodup : (g.nodes.map (·.id)).Nodup
  forward : ∀ e ∈ g.edges, ∃ (i j : Nat) (m n : Node), i < j ∧ g.nodes[i]? = some m ∧ g.nodes[j]? = some n ∧
    e.source = m.id ∧ e.target = n.id ∧ (e.handle = .flowOut ↔ m.kind ≠ NodeKind.conditional.tag)
  single : (g.edges.map (·.target)).Nodup

/-- The handle of the edge that leads to a node, if one does. -/
def reached (g : Graph) (id : String) : Option Handle := (g.edges.find? (·.target == id)).map (·.handle)

namespace Grows

variable {g : Graph} {ts : List Tree}

theorem targets_eq (h : g.Grows ts) : g.edges.map (·.target) = (Tree.linksAll none ts).map (·.2.1) := by
  rw [← h.links, List.map_map]
  rfl

theorem nodup_targets (h : g.Grows ts) : (g.edges.map (·.target)).Nodup := by
  rw [h.targets_eq]
  exact Tree.nodup_targets h.nodup

theorem reached_root (h : g.Grows ts) {t : Tree} (ht : t ∈ ts) : g.reached t.node.id = none := by
  have hnone : ∀ e ∈ g.edges, e.target ≠ t.node.id := by
    intro e he htarget
    have hmem : t.node.id ∈ g.edges.map (·.target) := List.mem_map.mpr ⟨e, he, htarget⟩
    rw [h.targets_eq, Tree.targets_linksAll_none] at hmem
    obtain ⟨u, hu, hmem⟩ := List.mem_flatMap.mp hmem
    exact Tree.root_not_below h.nodup ht hu hmem
  rw [reached, List.find?_eq_none.mpr (by simpa using hnone), Option.map_none]

theorem reached_child (h : g.Grows ts) {t c : Tree} (ht : t ∈ Tree.subtrees ts) (hc : c ∈ t.children) :
    g.reached c.node.id = some c.handle := by
  have hlink : Tree.linkTo t.node.id c ∈ g.edges.map Edge.link := by
    rw [h.links]
    exact (Tree.mem_linksAll_none_iff h.nodup).mpr ⟨t, ht, c, hc, rfl⟩
  obtain ⟨e, he, hlink⟩ := List.mem_map.mp hlink
  have htarget : e.target = c.node.id := congrArg (·.2.1) hlink
  have hhandle : e.handle = c.handle := congrArg (·.2.2) hlink
  -- no other edge has the target
  obtain ⟨f, hf⟩ : ∃ f, g.edges.find? (·.target == c.node.id) = some f :=
    Option.isSome_iff_exists.mp (List.find?_isSome.mpr ⟨e, he, by simpa using htarget⟩)
  have hft : f.target = c.node.id := by simpa using List.find?_some hf
  have hfe : f = e :=
    List.inj_on_of_nodup_map h.nodup_targets (List.mem_of_find?_eq_some hf) he (hft.trans htarget.symm)
  rw [reached, hf, hfe, Option.map_some, hhandle]

/-- Edges lead from nodes to later ones. -/
theorem exists_nodes_of_mem_edges (h : g.Grows ts) {e : Edge} (he : e ∈ g.edges) : ∃ (i j : Nat) (m n : Node),
    i < j ∧ g.nodes[i]? = some m ∧ g.nodes[j]? = some n ∧ e.source = m.id ∧ e.target = n.id := by
  have hlink : e.link ∈ Tree.linksAll none ts := h.links ▸ List.mem_map_of_mem he
  obtain ⟨as, bs, hids, hsource⟩ := Tree.exists_append_of_mem_linksAll hlink
  obtain ⟨i, hi, hsource⟩ := List.mem_iff_getElem.mp (hsource.resolve_right (by simp))
  have hat (k : Nat) : (g.nodes[k]?).map (·.id) = (as ++ e.target :: bs)[k]? := by
    rw [← List.getElem?_map, h.nodes]
    exact congrArg (·[k]?) hids
  have hi' := hat i
  rw [List.getElem?_append_left hi, List.getElem?_eq_getElem hi, hsource] at hi'
  have hj' := hat as.length
  rw [List.getElem?_append_right (Nat.le_refl _), Nat.sub_self] at hj'
  obtain ⟨m, hm, hmid⟩ := Option.map_eq_some_iff.mp hi'
  obtain ⟨n, hn, hnid⟩ := Option.map_eq_some_iff.mp hj'
  exact ⟨i, as.length, m, n, hi, hm, hn, hmid.symm, hnid.symm⟩

/-- In a tour of the forest every node is met as it hangs. -/
theorem flatMap_steps (h : g.Grows ts) :
    ts.flatMap (Tree.steps none) = g.nodes.map fun n => ⟨n.kind, n.data, g.reached n.id⟩ := by
  rw [h.nodes]
  exact Tree.flatMap_steps_eq g.reached ts (fun _ => none) (fun _ => h.reached_root) fun _ ht _ => h.reached_child ht

/-- Where all trees hang as their kinds ask for, all edges do. -/
theorem handle_of_mem_edges (h : g.Grows ts)
    (hk : ∀ t ∈ Tree.subtrees ts, ∀ c ∈ t.children, (c.handle = .flowOut ↔ t.node.kind ≠ NodeKind.conditional.tag))
    {e : Edge} (he : e ∈ g.edges) {m : Node} (hm : m ∈ g.nodes) (hsource : e.source = m.id) :
    e.handle = .flowOut ↔ m.kind ≠ NodeKind.conditional.tag := by
  have hlink : e.link ∈ Tree.linksAll none ts := h.links ▸ List.mem_map_of_mem he
  obtain ⟨t, ht, c, hc, hlink⟩ := (Tree.mem_linksAll_none_iff h.nodup).mp hlink
  have hid : e.source = t.node.id := congrArg (·.1) hlink
  have hhandle : e.handle = c.handle := congrArg (·.2.2) hlink
  have hnode : m = t.node := by
    have hnodup := h.nodup
    rw [Tree.idsAll, ← h.nodes] at hnodup
    refine List.inj_on_of_nodup_map hnodup hm ?_ (hsource.symm.trans hid)
    rw [h.nodes, Tree.nodesAll_eq_subtrees]
    exact List.mem_map_of_mem ht
  rw [hhandle, hnode]
  exact hk t ht c hc

end Grows

theorem ordered_ofProgram (layout : Layout) (p : Program) (mark : String) :
    (Graph.ofProgram layout p mark).Ordered mark := by
  have h := grows_ofProgram layout p mark
  have hids : (Graph.ofProgram layout p mark).nodes.map (·.id) =
      (List.range' 0 (Outline.sizeAll (Stmt.outlines p))).map (Outline.rowId mark) := by
    rw [h.nodes]
    exact Outline.ids_plant layout mark (Stmt.outlines p) 0 .flowOut 0
  refine ⟨?_, ?_, ?_, h.nodup_targets⟩
  · intro i n hi
    have hlt : i < Outline.sizeAll (Stmt.outlines p) := by
      have hlength := congrArg List.length hids
      simp only [List.length_map, List.length_range'] at hlength
      exact hlength ▸ (List.getElem?_eq_some_iff.mp hi).1
    have hat := congrArg (·[i]?) hids
    simp only [List.getElem?_map, hi, List.getElem?_range' hlt, Option.map_some, Nat.zero_add, Nat.one_mul] at hat
    exact Option.some.inj hat
  · rw [h.nodes]
    exact h.nodup
  · intro e he
    obtain ⟨i, j, m, n, hij, hi, hj, hsource, htarget⟩ := h.exists_nodes_of_mem_edges he
    have hhandle := h.handle_of_mem_edges (Outline.handle_children layout mark 0 .flowOut 0 (Outline.apt_outlines p)) he
      (List.mem_of_getElem? hi) hsource
    exact ⟨i, j, m, n, hij, hi, hj, hsource, htarget, hhandle⟩

/-- The graph of a program is a forest that lists the nodes in the order of the statements. If no row lies above the
one before it, the tour of the graph meets the nodes in that order, each by the edge that leads to it. -/
theorem orderedForest_ofProgram (layout : Layout) (p : Program) (mark : String) :
    (Graph.ofProgram layout p mark).Ordered mark ∧
    ((∀ row, Order.key (layout.y row) ≤ Order.key (layout.y (row + 1))) →
      (Graph.ofProgram layout p mark).tour.seen.reverse = (Graph.ofProgram layout p mark).nodes.map (·.id) ∧
      (Graph.ofProgram layout p mark).sequence = (Graph.ofProgram layout p mark).nodes.map
        fun n => ⟨n.kind, n.data, (Graph.ofProgram layout p mark).reached n.id⟩) := by
  refine ⟨ordered_ofProgram layout p mark, fun hrows => ?_⟩
  have hl : layout.Descends := fun _ _ hij => monotone_nat_of_le_succ hrows hij
  have h := hosts_ofProgram hl p mark
  refine ⟨?_, h.sequence_eq.trans h.toGrows.flatMap_steps⟩
  rw [h.tour_eq, List.reverse_reverse, h.nodes]
  rfl

theorem orderedForest_ofProgram_branches : (Graph.ofProgram (.ofSpacing {}) [⟨1, .conditional (.bool true)
    [⟨2, .leaveLoop⟩] (some [⟨3, .giveBack []⟩])⟩, ⟨4, .giveBack []⟩] "-0c7d41f2").sequence.map
      (fun s => (s.kind, s.handle)) =
    [("logic-if", none), ("custom-code", some .onTrue), ("logic-return", some .onFalse), ("logic-return", none)] := by
  rw [((orderedForest_ofProgram _ _ _).2 fun row => Layout.descends_ofSpacing (Nat.le_succ row)).2]
  decide +kernel

end Graph

end ScriptGraph
