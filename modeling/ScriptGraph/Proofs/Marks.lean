import Mathlib.Logic.Function.Basic
import ScriptGraph.Proofs.Doubles
import ScriptGraph.Proofs.Hosting
import ScriptGraph.Proofs.Renaming

/-!
Two conversions of one program differ in the marks of their ids only, and marks show in warnings only.
-/

namespace ScriptGraph

namespace Graph

theorem targets_links (g : Graph) : g.links.map (·.target) =
    ((g.edges.map Edge.link).filter fun l => g.hasNode l.1 && g.hasNode l.2.1).map (·.2.1) := by
  rw [links, List.filter_map, List.map_map]
  rfl

theorem childNodes_eq_links (g : Graph) (id : String) (handle : Option Handle) : g.childNodes id handle =
    Order.sort (fun a b => a.position.columnsFirst b.position) (((g.edges.map Edge.link).filter fun l =>
      l.1 == id && handle.all (· == l.2.2) && g.hasNode id).filterMap fun l => g.node? l.2.1) := by
  have hsort := Order.sort_map (Prod.snd : Edge × Node → Node) fun a b => a.position.columnsFirst b.position
  rw [childNodes, children, ← hsort, List.map_filterMap, List.filter_map, List.filterMap_map]
  simp only [Option.map_map, Function.comp_def, Option.map_id']
  rfl

/-- The ids of the edges are not looked at. -/
theorem Mirrors.congr {ρ : String → String} {g h h' : Graph} (m : g.Mirrors ρ h) (hnodes : h'.nodes = h.nodes)
    (hlinks : h'.edges.map Edge.link = h.edges.map Edge.link) : g.Mirrors ρ h' := by
  have hhas : h'.hasNode = h.hasNode := funext fun id => by rw [hasNode, hasNode, hnodes]
  have hnode : h'.node? = h.node? := funext fun id => by rw [node?, node?, hnodes]
  refine ⟨m.injective, ?_, ?_, fun id handle => ?_⟩
  · rw [← m.roots, Graph.roots, Graph.roots, targets_links, targets_links, hlinks, hhas, hnodes]
  · rw [← m.inOrder, Graph.inOrder, Graph.inOrder, hnodes]
  · rw [← m.childNodes, childNodes_eq_links, childNodes_eq_links, hlinks, hhas, hnode]

end Graph

namespace Outline

/-- Turns the ids of one conversion into those of another. -/
noncomputable def remark (mark mark' : String) : String → String := Function.extend (rowId mark) (rowId mark') id

variable (mark mark' : String)

@[simp] theorem remark_rowId (row : Nat) : remark mark mark' (rowId mark row) = rowId mark' row :=
  (rowId_injective mark).extend_apply _ _ row

theorem nodes_plant_remark (layout : Layout) (os : List Outline) : ∀ depth handle row,
    Tree.nodesAll (plant layout mark' depth handle row os) =
      (Tree.nodesAll (plant layout mark depth handle row os)).map (.rename (remark mark mark')) := by
  induction os using listInduction with
  | nil => simp [plant, Tree.nodesAll]
  | leaf kind data os ih => simp [plant, Tree.nodesAll, Tree.nodes, nodeAt, Node.rename, ih]
  | block kind data body os ihb iho => simp [plant, Tree.nodesAll, Tree.nodes, nodeAt, Node.rename, ihb, iho]
  | branch kind data consequent alternate os ihc iha iho =>
    simp [plant, Tree.nodesAll, Tree.nodes, Tree.nodesAll_append, nodeAt, Node.rename, ihc, iha, iho]

theorem links_plant_remark (layout : Layout) (os : List Outline) : ∀ depth handle row parent,
    Tree.linksAll (parent.map (remark mark mark')) (plant layout mark' depth handle row os) =
      (Tree.linksAll parent (plant layout mark depth handle row os)).map
        fun l => (remark mark mark' l.1, remark mark mark' l.2.1, l.2.2) := by
  have hparent (parent : Option String) (depth row : Nat) (handle : Handle) (kind : String) (data : Fields) :
      ((parent.map (remark mark mark')).map fun id =>
          (id, (nodeAt layout mark' depth row kind data).id, handle)).toList =
        (parent.map fun id => (id, (nodeAt layout mark depth row kind data).id, handle)).toList.map
          fun l => (remark mark mark' l.1, remark mark mark' l.2.1, l.2.2) := by
    cases parent <;> simp [nodeAt]
  have hsome (depth row : Nat) (kind : String) (data : Fields) : some (nodeAt layout mark' depth row kind data).id =
      (some (nodeAt layout mark depth row kind data).id).map (remark mark mark') := by
    simp [nodeAt]
  induction os using listInduction with
  | nil => simp [plant, Tree.linksAll]
  | leaf kind data os ih =>
    intro depth handle row parent
    simp only [plant, Tree.linksAll, Tree.links, hparent, hsome, ih, List.map_append, List.append_nil]
  | block kind data body os ihb iho =>
    intro depth handle row parent
    simp only [plant, Tree.linksAll, Tree.links, hparent, hsome, ihb, iho, List.map_append]
  | branch kind data consequent alternate os ihc iha iho =>
    intro depth handle row parent
    simp only [plant, Tree.linksAll, Tree.links, Tree.linksAll_append, hparent, hsome, ihc, iha, iho, List.map_append]

end Outline

namespace Graph

open Outline (remark rowId)

variable (layout : Layout) (p : Program) (mark mark' : String)

theorem exists_row_of_mem_names {a : String} (h : a ∈ (ofProgram layout p mark).names) : ∃ row, rowId mark row = a := by
  have hgrows := grows_ofProgram layout p mark
  have hid {id : String} (hid : id ∈ Tree.idsAll (Outline.plant layout mark 0 .flowOut 0 (Stmt.outlines p))) :
      ∃ row, rowId mark row = id := by
    rw [Outline.ids_plant] at hid
    obtain ⟨row, -, hrow⟩ := List.mem_map.mp hid
    exact ⟨row, hrow⟩
  rcases List.mem_append.mp h with h | h
  · rw [hgrows.nodes] at h
    exact hid h
  · obtain ⟨e, he, ha⟩ := List.mem_flatMap.mp h
    have hlink : e.link ∈ Tree.linksAll none _ := hgrows.links ▸ List.mem_map_of_mem he
    obtain ⟨htarget, hsource⟩ := Tree.mem_ids_of_mem_linksAll hlink
    simp only [List.mem_cons, List.not_mem_nil, or_false] at ha
    rcases ha with rfl | rfl
    · exact hid (hsource.resolve_right (by simp))
    · exact hid htarget

theorem nodes_remark :
    (ofProgram layout p mark').nodes = ((ofProgram layout p mark).rename (remark mark mark')).nodes := by
  rw [(grows_ofProgram layout p mark').nodes, Outline.nodes_plant_remark mark mark',
    ← (grows_ofProgram layout p mark).nodes]
  rfl

theorem links_remark : (ofProgram layout p mark').edges.map Edge.link =
    ((ofProgram layout p mark).rename (remark mark mark')).edges.map Edge.link := by
  have hlinks := Outline.links_plant_remark mark mark' layout (Stmt.outlines p) 0 .flowOut 0 none
  rw [(grows_ofProgram layout p mark').links, ← Option.map_none, hlinks, ← (grows_ofProgram layout p mark).links,
    rename, List.map_map, List.map_map]
  rfl

theorem length_nodes_remark : (ofProgram layout p mark').nodes.length = (ofProgram layout p mark).nodes.length := by
  rw [nodes_remark layout p mark mark']
  exact List.length_map _

theorem length_edges_remark : (ofProgram layout p mark').edges.length = (ofProgram layout p mark).edges.length := by
  have hlength := congrArg List.length (links_remark layout p mark mark')
  rw [List.length_map, List.length_map] at hlength
  exact hlength.trans (List.length_map _)

/-- Two conversions of a program give the same graph under other names. -/
theorem exists_mirrors_ofProgram : ∃ ρ, (∀ a ∈ (ofProgram layout p mark).names, ρ a = remark mark mark' a) ∧
    (ofProgram layout p mark).Mirrors ρ (ofProgram layout p mark') := by
  have hinj : Set.InjOn (remark mark mark') {a | a ∈ (ofProgram layout p mark).names} := by
    intro a ha b hb hab
    obtain ⟨i, rfl⟩ := exists_row_of_mem_names layout p mark ha
    obtain ⟨j, rfl⟩ := exists_row_of_mem_names layout p mark hb
    rw [Outline.remark_rowId, Outline.remark_rowId] at hab
    rw [Outline.rowId_injective mark' hab]
  obtain ⟨ρ, hρ, hsame⟩ := exists_injective hinj
  refine ⟨ρ, hsame, (mirrors_rename hρ _).congr ?_ ?_⟩
  · rw [rename_congr hsame, nodes_remark layout p mark mark']
  · rw [rename_congr hsame, links_remark layout p mark mark']

end Graph

namespace Rendered

variable (layout : Layout) (p : Program) (mark mark' : String) (settings : RenderSettings) (header : String)

theorem warnings_remark : (ofGraph settings (Graph.ofProgram layout p mark') header).warnings =
    (ofGraph settings (Graph.ofProgram layout p mark) header).warnings.map (.rename (Outline.remark mark mark')) := by
  obtain ⟨ρ, hsame, hmirrors⟩ := Graph.exists_mirrors_ofProgram layout p mark mark'
  have hwarnings := hmirrors.warnings_draft settings
  rw [List.map_congr_left fun w hw => Graph.rename_congr_of_warning hsame hw] at hwarnings
  exact hwarnings

/-- Where nothing is cut off, the mark of a conversion does not show. -/
theorem text_remark {mark} (h : (ofGraph settings (Graph.ofProgram layout p mark) header).warnings = []) :
    (ofGraph settings (Graph.ofProgram layout p mark') header).text =
      (ofGraph settings (Graph.ofProgram layout p mark) header).text := by
  obtain ⟨ρ, -, hmirrors⟩ := Graph.exists_mirrors_ofProgram layout p mark mark'
  have hnone : (Draft.ofGraph (Graph.ofProgram layout p mark) settings).warnings = [] := h
  exact hmirrors.text_rendered settings header (by simp [hnone])

end Rendered

/-- Programs whose graphs have the same structure are written alike if their nodes are nested alike: each warning for
the one tells of the node in the same row of the other, and if there is none, or the conversions have one mark, the
texts are equal. -/
theorem Rendered.text_eq_of_sameStructure {p q : Program} {mark other : String}
    (h : (Graph.ofProgram (.ofSpacing {}) p mark).sameStructure (Graph.ofProgram (.ofSpacing {}) q other) = true)
    (hd : Program.blockDepths p = Program.blockDepths q) (settings : RenderSettings) (header : String) :
    (∃ ρ : String → String, (∀ row, ρ s!"node-{row + 1}{mark}" = s!"node-{row + 1}{other}") ∧
      (Rendered.ofGraph settings (Graph.ofProgram (.ofSpacing {}) q other) header).warnings =
        (Rendered.ofGraph settings (Graph.ofProgram (.ofSpacing {}) p mark) header).warnings.map (.rename ρ)) ∧
    (mark = other ∨ (Rendered.ofGraph settings (Graph.ofProgram (.ofSpacing {}) p mark) header).warnings = [] →
      (Rendered.ofGraph settings (Graph.ofProgram (.ofSpacing {}) p mark) header).text =
        (Rendered.ofGraph settings (Graph.ofProgram (.ofSpacing {}) q other) header).text) := by
  have houtlines := Stmt.outlines_eq_of_sameStructure Layout.descends_ofSpacing h hd
  have hq (mark : String) : Graph.ofProgram (.ofSpacing {}) q mark = Graph.ofProgram (.ofSpacing {}) p mark := by
    rw [Graph.ofProgram_eq, Graph.ofProgram_eq, houtlines]
  rw [hq other]
  refine ⟨⟨Outline.remark mark other, Outline.remark_rowId mark other, warnings_remark ..⟩, ?_⟩
  rintro (rfl | hnone)
  · rfl
  · exact (text_remark _ p other settings header hnone).symm

/-- An alternate without statements leaves no trace in the graph. -/
theorem Rendered.text_eq_of_empty_alternate : ∃ p q : Program, p ≠ q ∧
    (Graph.ofProgram (.ofSpacing {}) p "-0c7d41f2").sameStructure
      (Graph.ofProgram (.ofSpacing {}) q "-91d3a6f0") = true ∧
    Program.blockDepths p = Program.blockDepths q ∧
    (Rendered.ofGraph {} (Graph.ofProgram (.ofSpacing {}) p "-0c7d41f2") "").text =
      (Rendered.ofGraph {} (Graph.ofProgram (.ofSpacing {}) q "-91d3a6f0") "").text := by
  let p : Program := [.mk 1 (.conditional (.identifier "a") [.mk 1 .leaveLoop] none)]
  let q : Program := [.mk 1 (.conditional (.identifier "a") [.mk 1 .leaveLoop] (some []))]
  have h : (Graph.ofProgram (.ofSpacing {}) p "-0c7d41f2").sameStructure
      (Graph.ofProgram (.ofSpacing {}) q "-91d3a6f0") = true := by
    decide +kernel
  have hd : Program.blockDepths p = Program.blockDepths q := by
    simp only [p, q, Program.blockDepths, Stmt.outlines, Stmt.outline, Action.outline, Stmt.alternateOutlines]
  have hnone : (Rendered.ofGraph {} (Graph.ofProgram (.ofSpacing {}) p "-0c7d41f2") "").warnings = [] := by
    decide +kernel
  exact ⟨p, q, by simp [p, q], h, hd, (Rendered.text_eq_of_sameStructure h hd {} "").2 (.inr hnone)⟩

/-- Whether a statement stands in the loop before it or behind the loop, the structure is the same. -/
theorem Rendered.text_ne_of_sameStructure : ∃ p q : Program,
    (Graph.ofProgram (.ofSpacing {}) p "-0c7d41f2").sameStructure
      (Graph.ofProgram (.ofSpacing {}) q "-91d3a6f0") = true ∧
    (Rendered.ofGraph {} (Graph.ofProgram (.ofSpacing {}) p "-0c7d41f2") "").text ≠
      (Rendered.ofGraph {} (Graph.ofProgram (.ofSpacing {}) q "-91d3a6f0") "").text := by
  let call (name : String) : Stmt := .mk 1 (.evaluate (.call (.identifier name) []))
  refine ⟨[call "x", .mk 1 (.whileLoop (.identifier "a") [call "y"]), call "z"],
    [call "x", .mk 1 (.whileLoop (.identifier "a") [call "y", call "z"])], ?_, ?_⟩
  · decide +kernel
  · decide +kernel

end ScriptGraph
