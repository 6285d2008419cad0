import Mathlib.SetTheory.Cardinal.Arithmetic
import ScriptGraph.Graph.Sequence
import ScriptGraph.Proofs.Coverage

namespace ScriptGraph

def Node.rename (ρ : String → String) (n : Node) : Node := { n with id := ρ n.id }

/-- The ends of the edge are renamed, its own id is not. -/
def Edge.rename (ρ : String → String) (e : Edge) : Edge := { e with source := ρ e.source, target := ρ e.target }

def Warning.rename (ρ : String → String) : Warning → Warning
  | depthExceeded node limit => depthExceeded (ρ node) limit
  | unreachable node => unreachable (ρ node)

namespace Graph

def rename (ρ : String → String) (g : Graph) : Graph := ⟨g.nodes.map (.rename ρ), g.edges.map (.rename ρ)⟩

/-- The ids of the nodes and the ends of the edges, whether there are such nodes or not. -/
def names (g : Graph) : List String := g.nodes.map (·.id) ++ g.edges.flatMap fun e => [e.source, e.target]

theorem rename_congr {ρ σ : String → String} {g : Graph} (h : ∀ a ∈ g.names, ρ a = σ a) : g.rename ρ = g.rename σ := by
  simp only [names, List.mem_append, List.mem_map, List.mem_flatMap] at h
  rw [rename, rename]
  congr 1
  · apply List.map_congr_left
    intro n hn
    rw [Node.rename, Node.rename, h n.id (.inl ⟨n, hn, rfl⟩)]
  · apply List.map_congr_left
    intro e he
    rw [Edge.rename, Edge.rename, h e.source (.inr ⟨e, he, by simp⟩), h e.target (.inr ⟨e, he, by simp⟩)]

/-- A renaming that keeps the names of a graph apart does so as part of one that keeps all names apart. -/
theorem exists_injective {ρ : String → String} {g : Graph} (h : Set.InjOn ρ {a | a ∈ g.names}) :
    ∃ σ : String → String, Function.Injective σ ∧ ∀ a ∈ g.names, σ a = ρ a := by
  have hfinite : {a | a ∈ g.names}.Finite := List.finite_toSet g.names
  have hlt : Cardinal.mk {a | a ∈ g.names} < Cardinal.mk String :=
    hfinite.lt_aleph0.trans_le (Cardinal.aleph0_le_mk String)
  obtain ⟨σ, hσ⟩ := Cardinal.extend_function_of_lt ⟨_, h.injective⟩ hlt ⟨Equiv.refl String⟩
  exact ⟨σ, σ.injective, fun a ha => hσ ⟨a, ha⟩⟩

end Graph

/-- The second graph is the first one under other names, as far as roots, order and children show. -/
structure Graph.Mirrors (ρ : String → String) (g h : Graph) : Prop where
  injective : Function.Injective ρ
  roots : h.roots = g.roots.map (.rename ρ)
  inOrder : h.inOrder = g.inOrder.map (.rename ρ)
  childNodes : ∀ id handle, h.childNodes (ρ id) handle = (g.childNodes id handle).map (.rename ρ)

namespace Graph

section Rename

variable {ρ : String → String} (hρ : Function.Injective ρ) (g : Graph) (id : String)
include hρ

theorem hasNode_rename : (g.rename ρ).hasNode (ρ id) = g.hasNode id := by
  simp [hasNode, rename, List.any_map, Function.comp_def, Node.rename, hρ.beq_eq]

theorem node?_rename : (g.rename ρ).node? (ρ id) = (g.node? id).map (.rename ρ) := by
  simp [node?, rename, List.filter_map, Function.comp_def, Node.rename, hρ.beq_eq]

theorem links_rename : (g.rename ρ).links = g.links.map (.rename ρ) := by
  have hends (e : Edge) : ((g.rename ρ).hasNode (e.rename ρ).source && (g.rename ρ).hasNode (e.rename ρ).target) =
      (g.hasNode e.source && g.hasNode e.target) := by
    rw [Edge.rename, hasNode_rename hρ, hasNode_rename hρ]
  have hedges : (g.rename ρ).edges = g.edges.map (.rename ρ) := rfl
  rw [links, links, hedges, List.filter_map]
  simp only [Function.comp_def, hends]

theorem roots_rename : (g.rename ρ).roots = g.roots.map (.rename ρ) := by
  have htargets : (g.links.map (Edge.rename ρ)).map Edge.target = (g.links.map Edge.target).map ρ := by
    rw [List.map_map, List.map_map]
    rfl
  have hends (n : Node) : ((g.links.map Edge.target).map ρ).contains (n.rename ρ).id =
      (g.links.map Edge.target).contains n.id := by
    rw [Node.rename, List.contains_eq_mem, List.contains_eq_mem]
    simp only [List.mem_map_of_injective hρ]
  have hnodes : (g.rename ρ).nodes = g.nodes.map (.rename ρ) := rfl
  rw [roots, roots, links_rename hρ, hnodes, htargets, List.filter_map, Order.sort_map]
  simp only [Function.comp_def, hends]
  rfl

theorem children_rename (handle : Option Handle) : (g.rename ρ).children (ρ id) handle =
    (g.children id handle).map fun c => (c.1.rename ρ, c.2.rename ρ) := by
  have hedges : (g.rename ρ).edges = g.edges.map (.rename ρ) := rfl
  have hleaves (e : Edge) : ((e.rename ρ).source == ρ id && handle.all (· == (e.rename ρ).handle) &&
      (g.rename ρ).hasNode (ρ id)) = (e.source == id && handle.all (· == e.handle) && g.hasNode id) := by
    rw [hasNode_rename hρ, Edge.rename, hρ.beq_eq]
  have hends (e : Edge) : ((g.rename ρ).node? (e.rename ρ).target).map (e.rename ρ, ·) =
      ((g.node? e.target).map (e, ·)).map fun c => (c.1.rename ρ, c.2.rename ρ) := by
    rw [Edge.rename, node?_rename hρ, Option.map_map, Option.map_map]
    rfl
  rw [children, children, hedges, List.filter_map, List.filterMap_map]
  simp only [Function.comp_def, hleaves, hends]
  rw [← List.map_filterMap, Order.sort_map]
  rfl

theorem mirrors_rename : g.Mirrors ρ (g.rename ρ) where
  injective := hρ
  roots := roots_rename hρ g
  inOrder := by
    rw [inOrder, inOrder, rename, Order.sort_map]
    rfl
  childNodes id handle := by
    rw [childNodes, childNodes, children_rename hρ, List.map_map, List.map_map]
    rfl

end Rename

end Graph

namespace Graph

variable {g : Graph} {limit depth : Nat} {seen a b : List String}

theorem Skips.unique {ns : List Node} (h : g.Skips seen ns a) (h' : g.Skips seen ns b) : a = b := by
  induction h generalizing b with
  | nil =>
    cases h'
    rfl
  | done hmem _ ih =>
    cases h' with
    | done _ h' => exact ih h'
    | cons hn _ _ => exact absurd hmem hn
  | cons hn _ _ ih₁ ih₂ =>
    cases h' with
    | done hmem _ => exact absurd hmem hn
    | cons _ h₁ h₂ =>
      obtain rfl := ih₁ h₁
      exact ih₂ h₂

theorem Traces.notMem_of_node {n : Node} {es : List Event} (h : g.Traces limit depth seen (.node n) es a) :
    n.id ∉ seen := by
  cases h <;> assumption

/-- What is done about something pending is settled by the nodes that are done. -/
theorem Traces.unique {pending : Pending} {es es' : List Event} (h : g.Traces limit depth seen pending es a)
    (h' : g.Traces limit depth seen pending es' b) : es = es' ∧ a = b := by
  induction h generalizing es' b with
  | nil =>
    cases h'
    exact ⟨rfl, rfl⟩
  | done hmem _ ih =>
    cases h' with
    | done _ h' => exact ih h'
    | cons hn _ => exact absurd hmem hn.notMem_of_node
  | cons hn _ ih₁ ih₂ =>
    cases h' with
    | done hmem _ => exact absurd hmem hn.notMem_of_node
    | cons h₁ h₂ =>
      obtain ⟨rfl, rfl⟩ := ih₁ h₁
      obtain ⟨rfl, rfl⟩ := ih₂ h₂
      exact ⟨rfl, rfl⟩
  | line _ hemit _ ih =>
    cases h' with
    | line _ hemit' h' =>
      obtain rfl : _ = _ := Emission.line.inj (hemit.symm.trans hemit')
      obtain ⟨rfl, rfl⟩ := ih h'
      exact ⟨rfl, rfl⟩
    | skip _ hemit' _ | terminal _ hemit' _ | block _ _ hemit' _ | conditional _ _ hemit' _ _ _ =>
      cases hemit.symm.trans hemit'
    | cut _ _ hemit' _ => simp [hemit] at hemit'
  | skip _ hemit _ ih =>
    cases h' with
    | skip _ _ h' =>
      obtain ⟨rfl, rfl⟩ := ih h'
      exact ⟨rfl, rfl⟩
    | line _ hemit' _ | terminal _ hemit' _ | block _ _ hemit' _ | conditional _ _ hemit' _ _ _ =>
      cases hemit.symm.trans hemit'
    | cut _ _ hemit' _ => simp [hemit] at hemit'
  | terminal _ hemit hs =>
    cases h' with
    | terminal _ hemit' hs' =>
      obtain rfl : _ = _ := Emission.terminal.inj (hemit.symm.trans hemit')
      exact ⟨rfl, hs.unique hs'⟩
    | line _ hemit' _ | skip _ hemit' _ | block _ _ hemit' _ | conditional _ _ hemit' _ _ _ =>
      cases hemit.symm.trans hemit'
    | cut _ _ hemit' _ => simp [hemit] at hemit'
  | cut _ hdepth hemit hs =>
    cases h' with
    | cut _ _ _ hs' => exact ⟨rfl, hs.unique hs'⟩
    | block _ hdepth' _ _ | conditional _ hdepth' _ _ _ _ => exact absurd hdepth' hdepth
    | line _ hemit' _ | skip _ hemit' _ | terminal _ hemit' _ => simp [hemit'] at hemit
  | block _ hdepth hemit _ ih =>
    cases h' with
    | block _ _ hemit' h' =>
      obtain ⟨rfl, rfl⟩ : _ ∧ _ := Emission.block.inj (hemit.symm.trans hemit')
      obtain ⟨rfl, rfl⟩ := ih h'
      exact ⟨rfl, rfl⟩
    | line _ hemit' _ | skip _ hemit' _ | terminal _ hemit' _ | conditional _ _ hemit' _ _ _ =>
      cases hemit.symm.trans hemit'
    | cut _ hdepth' _ _ => exact absurd hdepth hdepth'
  | conditional _ hdepth hemit _ _ _ ih₁ ih₂ ih₃ =>
    cases h' with
    | conditional _ _ _ h₁ h₂ h₃ =>
      obtain ⟨rfl, rfl⟩ := ih₁ h₁
      obtain ⟨rfl, rfl⟩ := ih₂ h₂
      obtain ⟨rfl, rfl⟩ := ih₃ h₃
      exact ⟨rfl, rfl⟩
    | line _ hemit' _ | skip _ hemit' _ | terminal _ hemit' _ | block _ _ hemit' _ =>
      cases hemit.symm.trans hemit'
    | cut _ hdepth' _ _ => exact absurd hdepth hdepth'
  | noAlternate hnone =>
    cases h' with
    | noAlternate _ => exact ⟨rfl, rfl⟩
    | elseif hone _ _ _ | otherwise hone _ _ => cases hnone.symm.trans hone
  | elseif hone hc _ _ ih₁ ih₂ =>
    cases h' with
    | noAlternate hnone => cases hone.symm.trans hnone
    | elseif hone' _ h₁ h₂ =>
      obtain rfl : _ = _ := List.singleton_inj.mp (hone.symm.trans hone')
      obtain ⟨rfl, rfl⟩ := ih₁ h₁
      obtain ⟨rfl, rfl⟩ := ih₂ h₂
      exact ⟨rfl, rfl⟩
    | otherwise hmany hc' _ =>
      obtain ⟨rfl, rfl⟩ : _ ∧ _ := List.cons.inj (hone.symm.trans hmany)
      exact absurd ⟨rfl, hc⟩ hc'
  | otherwise hmany hc _ ih =>
    cases h' with
    | noAlternate hnone => cases hmany.symm.trans hnone
    | elseif hone hc' _ _ =>
      obtain ⟨rfl, rfl⟩ : _ ∧ _ := List.cons.inj (hone.symm.trans hmany)
      exact absurd ⟨rfl, hc'⟩ hc
    | otherwise hmany' _ h' =>
      obtain ⟨rfl, rfl⟩ : _ ∧ _ := List.cons.inj (hmany.symm.trans hmany')
      obtain ⟨rfl, rfl⟩ := ih h'
      exact ⟨rfl, rfl⟩

theorem Drafts.unique {starts : List (Bool × Node)} {blocks blocks' : List (List Event)}
    (h : g.Drafts limit seen starts blocks a) (h' : g.Drafts limit seen starts blocks' b) : blocks = blocks' := by
  induction h generalizing blocks' b with
  | nil =>
    cases h'
    rfl
  | done hmem _ ih =>
    cases h' with
    | done _ h' => exact ih h'
    | cons hn _ _ => exact absurd hmem hn
  | cons hn ht _ ih =>
    cases h' with
    | done hmem _ => exact absurd hmem hn
    | cons _ ht' h' =>
      obtain ⟨rfl, rfl⟩ := ht.unique ht'
      rw [ih h']

/-- A graph is written in one way. -/
theorem Runs.unique {blocks blocks' : List (List Event)} (h : g.Runs limit blocks) (h' : g.Runs limit blocks') :
    blocks = blocks' := by
  obtain ⟨_, hd⟩ := h
  obtain ⟨_, hd'⟩ := h'
  exact hd.unique hd'

end Graph

namespace Event

def rename (ρ : String → String) : Event → Event
  | text n t => text (n.rename ρ) t
  | silent n => silent (n.rename ρ)
  | cut n limit => cut (n.rename ρ) limit
  | stray n => stray (n.rename ρ)
  | enter n opener closer => enter (n.rename ρ) opener closer
  | turn n t => turn (n.map (.rename ρ)) t
  | leave => leave

theorem warning?_rename (ρ : String → String) (e : Event) : (e.rename ρ).warning? = e.warning?.map (.rename ρ) := by
  cases e <;> rfl

/-- Only the comment of a warning shows a name. -/
theorem write_rename {ρ : String → String} {e : Event} (h : e.warning?.map (.rename ρ) = e.warning?) (out : Emitter) :
    (e.rename ρ).write out = e.write out := by
  cases e with
  | cut n limit =>
    have hcut := Option.some.inj h
    rw [rename, write, write, ← hcut]
    rfl
  | stray n =>
    have hstray := Option.some.inj h
    rw [rename, write, write, ← hstray]
    rfl
  | text | silent | enter | turn | leave => rfl

theorem blockText_rename {ρ : String → String} {es : List Event}
    (h : ∀ e ∈ es, e.warning?.map (.rename ρ) = e.warning?) (unit : String) :
    blockText unit (es.map (rename ρ)) = blockText unit es := by
  have hall (out : Emitter) : writeAll out (es.map (rename ρ)) = writeAll out es := by
    induction es generalizing out with
    | nil => rfl
    | cons e es ih =>
      obtain ⟨he, hes⟩ := List.forall_mem_cons.mp h
      rw [List.map_cons, writeAll, List.foldl_cons, write_rename he]
      exact ih hes _
  rw [blockText, hall, blockText]

end Event

def Pending.rename (ρ : String → String) : Pending → Pending
  | nodes ns => nodes (ns.map (.rename ρ))
  | node n => node (n.rename ρ)
  | alternates id => alternates (ρ id)

namespace Graph.Mirrors

variable {ρ : String → String} {g h : Graph} (m : g.Mirrors ρ h)
include m

theorem mem_map_iff {id : String} {seen : List String} : ρ id ∈ seen.map ρ ↔ id ∈ seen :=
  List.mem_map_of_injective m.injective

theorem branchBody (id : String) : h.branchBody (ρ id) =
    ((g.branchBody id).1.map (.rename ρ), (g.branchBody id).2.map (.rename ρ)) := by
  rw [Graph.branchBody, m.childNodes, m.childNodes, Graph.branchBody]
  cases g.childNodes id (some .onTrue) <;> rfl

theorem collapses_iff {seen : List String} {n : Node} : h.Collapses (seen.map ρ) (n.rename ρ) ↔ g.Collapses seen n := by
  have hplain : h.childNodes (n.rename ρ).id (some .flowOut) = (g.childNodes n.id (some .flowOut)).map (.rename ρ) :=
    m.childNodes n.id _
  have hid : (n.rename ρ).id ∈ seen.map ρ ↔ n.id ∈ seen := m.mem_map_iff
  rw [Collapses, Collapses, hplain, hid, List.map_eq_nil_iff]
  rfl

theorem skips {seen seen' : List String} {ns : List Node} (hs : g.Skips seen ns seen') :
    h.Skips (seen.map ρ) (ns.map (.rename ρ)) (seen'.map ρ) := by
  induction hs with
  | nil => exact .nil
  | done hmem _ ih => exact .done (m.mem_map_iff.mpr hmem) ih
  | @cons _ _ _ n _ hn _ _ ih₁ ih₂ =>
    refine .cons (mt m.mem_map_iff.mp hn) ?_ ih₂
    rw [← m.childNodes] at ih₁
    exact ih₁

/-- The nodes of the second graph are dealt with as those of the first. -/
theorem traces {limit depth : Nat} {seen seen' : List String} {pending : Pending} {es : List Event}
    (ht : g.Traces limit depth seen pending es seen') :
    h.Traces limit depth (seen.map ρ) (pending.rename ρ) (es.map (.rename ρ)) (seen'.map ρ) := by
  have hchildren (n : Node) : h.childNodes (n.rename ρ).id = (g.childNodes n.id).map (.rename ρ) :=
    m.childNodes n.id none
  have hbranch (n : Node) : h.branchBody (n.rename ρ).id =
      ((g.branchBody n.id).1.map (.rename ρ), (g.branchBody n.id).2.map (.rename ρ)) := m.branchBody n.id
  induction ht with
  | nil => exact .nil
  | done hmem _ ih => exact .done (m.mem_map_iff.mpr hmem) ih
  | cons _ _ ih₁ ih₂ =>
    rw [List.map_append]
    exact .cons ih₁ ih₂
  | @line _ _ _ n _ _ hn hemit _ ih =>
    refine .line (mt m.mem_map_iff.mp hn) hemit ?_
    rw [hchildren]
    exact ih
  | @skip _ _ _ n _ hn hemit _ ih =>
    refine .skip (mt m.mem_map_iff.mp hn) hemit ?_
    rw [hchildren]
    exact ih
  | @terminal _ _ _ n _ hn hemit hs =>
    refine .terminal (mt m.mem_map_iff.mp hn) hemit ?_
    rw [hchildren]
    exact m.skips hs
  | @cut _ _ _ n hn hdepth hemit hs =>
    refine .cut (mt m.mem_map_iff.mp hn) hdepth hemit ?_
    rw [hchildren]
    exact m.skips hs
  | @block _ _ _ n _ _ _ hn hdepth hemit _ ih =>
    rw [List.map_cons, List.map_append]
    refine .block (mt m.mem_map_iff.mp hn) hdepth hemit ?_
    rw [hchildren]
    exact ih
  | @conditional _ _ _ _ _ n _ _ _ hn hdepth hemit _ _ _ ih₁ ih₂ ih₃ =>
    rw [List.map_cons, List.map_append, List.map_append, List.map_cons]
    refine .conditional (n := n.rename ρ) (mt m.mem_map_iff.mp hn) hdepth hemit ?_ ih₂ ?_
    · rw [hbranch]
      exact ih₁
    · rw [hbranch]
      exact ih₃
  | noAlternate hnone => exact .noAlternate (by rw [m.childNodes, hnone, List.map_nil])
  | @elseif _ _ _ _ id n _ _ hone hc _ _ ih₁ ih₂ =>
    rw [List.map_cons, List.map_append]
    refine .elseif (n := n.rename ρ) (by rw [m.childNodes, hone, List.map_singleton]) (m.collapses_iff.mpr hc) ?_ ih₂
    rw [hbranch]
    exact ih₁
  | otherwise hmany hc _ ih =>
    refine .otherwise (by rw [m.childNodes, hmany, List.map_cons]) ?_ ih
    rwa [List.map_eq_nil_iff, m.collapses_iff]

theorem drafts {limit : Nat} {seen seen' : List String} {starts : List (Bool × Node)} {blocks : List (List Event)}
    (hd : g.Drafts limit seen starts blocks seen') :
    h.Drafts limit (seen.map ρ) (starts.map fun start => (start.1, start.2.rename ρ))
      (blocks.map fun es => es.map (.rename ρ)) (seen'.map ρ) := by
  induction hd with
  | nil => exact .nil
  | done hmem _ ih => exact .done (m.mem_map_iff.mpr hmem) ih
  | @cons _ _ _ isRoot n _ es _ hn ht _ ih =>
    have hstray : ((if isRoot then [] else [Event.stray n]) ++ es).map (Event.rename ρ) =
        (if isRoot then [] else [Event.stray (n.rename ρ)]) ++ es.map (.rename ρ) := by
      cases isRoot <;> rfl
    rw [List.map_cons, List.map_cons, hstray]
    exact .cons (mt m.mem_map_iff.mp hn) (m.traces ht) ih

/-- The second graph is written as the first, under its own names. -/
theorem runs {limit : Nat} {blocks : List (List Event)} (hr : g.Runs limit blocks) :
    h.Runs limit (blocks.map fun es => es.map (.rename ρ)) := by
  obtain ⟨seen, hd⟩ := hr
  have hstarts : h.starts = g.starts.map fun start => (start.1, start.2.rename ρ) := by
    simp [starts, m.roots, m.inOrder, Function.comp_def]
  exact ⟨seen.map ρ, hstarts ▸ m.drafts hd⟩

theorem warnings_draft (settings : RenderSettings) :
    (Draft.ofGraph h settings).warnings = (Draft.ofGraph g settings).warnings.map (.rename ρ) := by
  obtain ⟨blocks, hruns, -, hwarnings⟩ := Draft.exists_runs g settings
  obtain ⟨blocks', hruns', -, hwarnings'⟩ := Draft.exists_runs h settings
  rw [hwarnings, hwarnings', hruns'.unique (m.runs hruns), ← List.map_flatten, List.filterMap_map, List.map_filterMap]
  simp only [Function.comp_def, Event.warning?_rename]

/-- The blocks are the same if no warning tells of another name. -/
theorem blocks_draft (settings : RenderSettings)
    (hsame : ∀ w ∈ (Draft.ofGraph g settings).warnings, w.rename ρ = w) :
    (Draft.ofGraph h settings).blocks = (Draft.ofGraph g settings).blocks := by
  obtain ⟨blocks, hruns, hblocks, hwarnings⟩ := Draft.exists_runs g settings
  obtain ⟨blocks', hruns', hblocks', -⟩ := Draft.exists_runs h settings
  rw [hwarnings] at hsame
  rw [hblocks, hblocks', hruns'.unique (m.runs hruns), List.map_map]
  apply List.map_congr_left
  intro es hes
  apply Event.blockText_rename
  intro e he
  cases hw : e.warning? with
  | none => rfl
  | some w =>
    have hmem : w ∈ blocks.flatten.filterMap Event.warning? :=
      List.mem_filterMap.mpr ⟨e, List.mem_flatten_of_mem hes he, hw⟩
    rw [Option.map_some, hsame w hmem]

theorem text_rendered (settings : RenderSettings) (header : String)
    (hsame : ∀ w ∈ (Draft.ofGraph g settings).warnings, w.rename ρ = w) :
    (Rendered.ofGraph settings h header).text = (Rendered.ofGraph settings g header).text := by
  simp only [Rendered.ofGraph, m.blocks_draft settings hsame]

end Graph.Mirrors

def Tour.rename (ρ : String → String) (t : Tour) : Tour := ⟨t.seen.map ρ, t.steps⟩

theorem Tour.visit_rename {ρ : String → String} (hρ : Function.Injective ρ) (g : Graph) (fuel : Nat) :
    ∀ (t : Tour) (handle : Option Handle) (n : Node),
      visit (g.rename ρ) fuel (t.rename ρ) (handle, n.rename ρ) = (visit g fuel t (handle, n)).rename ρ := by
  induction fuel with
  | zero => exact fun _ _ _ => rfl
  | succ fuel ih =>
    intro t handle n
    have hseen : (t.rename ρ).seen.contains (n.rename ρ).id = t.seen.contains n.id := by
      rw [List.contains_eq_mem, List.contains_eq_mem]
      simp [Tour.rename, Node.rename, List.mem_map_of_injective hρ]
    have hchildren : (g.rename ρ).children (n.rename ρ).id =
        (g.children n.id).map fun c => (c.1.rename ρ, c.2.rename ρ) := Graph.children_rename hρ g n.id none
    rw [visit, visit, hseen]
    split
    · rfl
    · rw [hchildren, List.foldl_map]
      change List.foldl _ (rename ρ ⟨n.id :: t.seen, t.steps ++ [⟨n.kind, n.data, handle⟩]⟩) _ = _
      exact List.foldl_hom (rename ρ) fun t c => ih t (some c.1.handle) c.2

theorem Graph.sequence_rename {ρ : String → String} (hρ : Function.Injective ρ) (g : Graph) :
    (g.rename ρ).sequence = g.sequence := by
  have hlength : (g.rename ρ).nodes.length = g.nodes.length := List.length_map _
  have hstarts : (g.rename ρ).roots ++ (g.rename ρ).inOrder = (g.roots ++ g.inOrder).map (.rename ρ) := by
    rw [(g.mirrors_rename hρ).roots, (g.mirrors_rename hρ).inOrder, List.map_append]
  have htour : (g.roots ++ g.inOrder).foldl (fun t n => Tour.visit (g.rename ρ) g.nodes.length t (none, n.rename ρ))
      (Tour.rename ρ {}) =
        ((g.roots ++ g.inOrder).foldl (fun t n => Tour.visit g g.nodes.length t (none, n)) {}).rename ρ :=
    List.foldl_hom (Tour.rename ρ) fun t n => Tour.visit_rename hρ g g.nodes.length t none n
  have hsteps := congrArg Tour.steps htour
  rw [sequence, hlength, hstarts, List.foldl_map]
  exact hsteps

theorem beq_self_of_isNaN {x : Float} (h : x.isNaN = false) : (x == x) = true := by
  change (x.toModel.unpack.compare x.toModel.unpack == some .eq) = true
  have hn : x.toModel.unpack.isNaN = false := h
  generalize x.toModel.unpack = u at hn ⊢
  cases u with
  | infinity s => cases s <;> rfl
  | notANumber => cases hn
  | zero s => rfl
  | finite s mantissa exponent hpos =>
    cases s with
    | negative =>
      change (some ((compare exponent exponent).then (compare mantissa mantissa)).swap == some .eq) = true
      simp
    | positive =>
      change (some ((compare exponent exponent).then (compare mantissa mantissa)) == some .eq) = true
      simp

namespace Json

/-- Doubles are numbers, and the keys of an object are distinct. -/
inductive IsProper : Json → Prop
  | null : IsProper .null
  | bool (b : Bool) : IsProper (.bool b)
  | integer (n : Int) : IsProper (.integer n)
  | double {x : Float} (h : x.isNaN = false) : IsProper (.double x)
  | string (s : String) : IsProper (.string s)
  | array {items : List Json} (h : ∀ v ∈ items, v.IsProper) : IsProper (.array items)
  | object {entries : Fields} (hkeys : entries.keys.Nodup) (h : ∀ e ∈ entries, e.2.IsProper) :
    IsProper (.object entries)

theorem sameItems_self {items : List Json} (h : ∀ v ∈ items, v.same v = true) : sameItems items items = true := by
  induction items with
  | nil => rfl
  | cons v items ih =>
    obtain ⟨hv, hitems⟩ := List.forall_mem_cons.mp h
    rw [sameItems, hv, ih hitems, Bool.and_self]

theorem sameEntries_of_get? {entries others : Fields} (h : ∀ e ∈ entries, e.2.same e.2 = true)
    (hget : ∀ e ∈ entries, others.get? e.1 = some e.2) : sameEntries entries others = true := by
  induction entries with
  | nil => rfl
  | cons e entries ih =>
    obtain ⟨he, hentries⟩ := List.forall_mem_cons.mp h
    obtain ⟨hfound, hget⟩ := List.forall_mem_cons.mp hget
    rw [sameEntries, hfound, ih hentries hget, Bool.and_true]
    exact he

theorem IsProper.same_self {v : Json} (h : v.IsProper) : v.same v = true := by
  induction h with
  | null => rfl
  | bool b | integer n | string s => simp [same]
  | double h =>
    rw [same]
    exact beq_self_of_isNaN h
  | array _ ih =>
    rw [same]
    exact sameItems_self ih
  | object hkeys _ ih =>
    rw [same, Bool.and_eq_true]
    exact ⟨beq_self_eq_true _, sameEntries_of_get? ih fun _ he => Fields.get?_of_mem hkeys he⟩

end Json

theorem Step.sameAll_self {steps : List Step} (h : ∀ s ∈ steps, (Json.object s.data).IsProper) :
    sameAll steps steps = true := by
  induction steps with
  | nil => rfl
  | cons s steps ih =>
    obtain ⟨hs, hsteps⟩ := List.forall_mem_cons.mp h
    simp [sameAll, same, Fields.same, hs.same_self, ih hsteps]

/-- The tour has met nodes of the graph. -/
def Tour.Within (g : Graph) (t : Tour) : Prop := ∀ s ∈ t.steps, ∃ n ∈ g.nodes, s.data = n.data

theorem Tour.Within.visit {g : Graph} (fuel : Nat) : ∀ {t : Tour} (handle : Option Handle) {n : Node}, t.Within g →
    n ∈ g.nodes → (Tour.visit g fuel t (handle, n)).Within g := by
  induction fuel with
  | zero => exact fun _ _ ht _ => ht
  | succ fuel ih =>
    intro t handle n ht hn
    rw [Tour.visit]
    split
    · exact ht
    · refine List.foldlRecOn (motive := Tour.Within g) (g.children n.id) _ ?_ fun t ht c hc => ?_
      · exact List.forall_mem_append.mpr ⟨ht, List.forall_mem_singleton.mpr ⟨n, hn, rfl⟩⟩
      · exact ih (some c.1.handle) ht (Graph.mem_nodes_of_mem_childNodes (List.mem_map_of_mem hc))

namespace Graph

theorem data_of_mem_sequence {g : Graph} {s : Step} (h : s ∈ g.sequence) : ∃ n ∈ g.nodes, s.data = n.data := by
  have htour :
      Tour.Within g ((g.roots ++ g.inOrder).foldl (fun t n => Tour.visit g g.nodes.length t (none, n)) {}) := by
    refine List.foldlRecOn (motive := Tour.Within g) (g.roots ++ g.inOrder) _ (by simp [Tour.Within]) fun t ht n hn =>
      ?_
    refine ht.visit g.nodes.length none ?_
    rcases List.mem_append.mp hn with hn | hn
    · exact List.mem_of_mem_filter (Order.mem_sort.mp hn)
    · exact Order.mem_sort.mp hn
  exact htour s h

/-- A graph has the structure of every graph with its size and its sequence. -/
theorem sameStructure_of_sequence_eq {g h : Graph} (hdata : ∀ n ∈ g.nodes, (Json.object n.data).IsProper)
    (hnodes : h.nodes.length = g.nodes.length) (hedges : h.edges.length = g.edges.length)
    (hsequence : h.sequence = g.sequence) : g.sameStructure h = true := by
  have hsteps : Step.sameAll g.sequence g.sequence = true := by
    apply Step.sameAll_self
    intro s hs
    obtain ⟨n, hn, hs⟩ := data_of_mem_sequence hs
    rw [hs]
    exact hdata n hn
  simp [sameStructure, hnodes, hedges, hsequence, hsteps]

/-- Warnings tell of nodes of the graph. -/
theorem rename_congr_of_warning {ρ σ : String → String} {g : Graph} (h : ∀ a ∈ g.names, ρ a = σ a)
    {settings : RenderSettings} {w : Warning} (hw : w ∈ (Draft.ofGraph g settings).warnings) :
    w.rename ρ = w.rename σ := by
  obtain ⟨blocks, hruns, -, hwarnings⟩ := Draft.exists_runs g settings
  rw [hwarnings] at hw
  obtain ⟨e, he, hw⟩ := List.mem_filterMap.mp hw
  have hfaithful := hruns.faithful e he
  have hname {n : Node} (hn : n ∈ g.nodes) : ρ n.id = σ n.id :=
    h n.id (List.mem_append_left _ (List.mem_map_of_mem hn))
  cases e with
  | cut n limit =>
    obtain rfl := Option.some.inj hw
    rw [Warning.rename, Warning.rename, hname hfaithful.1]
  | stray n =>
    obtain rfl := Option.some.inj hw
    rw [Warning.rename, Warning.rename, hname hfaithful]
  | text | silent | enter | turn | leave => cases hw

/-- Names show in warnings only. Under a renaming that keeps the names of a graph apart the sequence of its nodes is the
same, warnings tell of the new names, and without warnings the text is the same. -/
theorem names_show_in_warnings_only (g : Graph) (ρ : String → String) (hρ : Set.InjOn ρ {a | a ∈ g.names}) :
    (g.rename ρ).sequence = g.sequence ∧
    ((∀ n ∈ g.nodes, (Json.object n.data).IsProper) → g.sameStructure (g.rename ρ) = true) ∧
    ∀ (settings : RenderSettings) (header : String),
      (Rendered.ofGraph settings (g.rename ρ) header).warnings =
        (Rendered.ofGraph settings g header).warnings.map (.rename ρ) ∧
      ((Rendered.ofGraph settings g header).warnings = [] →
        (Rendered.ofGraph settings (g.rename ρ) header).text = (Rendered.ofGraph settings g header).text) := by
  obtain ⟨σ, hσ, hsame⟩ := exists_injective hρ
  have hmirrors := g.mirrors_rename hσ
  have hsequence := sequence_rename hσ g
  rw [rename_congr hsame] at hmirrors hsequence
  refine ⟨hsequence, fun hdata => ?_, fun settings header => ⟨?_, fun hnone => ?_⟩⟩
  · exact sameStructure_of_sequence_eq hdata (List.length_map _) (List.length_map _) hsequence
  · have hwarnings := hmirrors.warnings_draft settings
    rw [List.map_congr_left fun w hw => rename_congr_of_warning hsame hw] at hwarnings
    exact hwarnings
  · have hnone : (Draft.ofGraph g settings).warnings = [] := hnone
    exact hmirrors.text_rendered settings header (by simp [hnone])

/-- Two nodes with one id, a loop that no root leads to, and an edge that leads nowhere. -/
theorem names_show_in_warnings_only_loop :
    let g : Graph :=
      ⟨[{ id := "a", kind := "wait" }, { id := "a", kind := "logic-return" }, { id := "b", kind := "wait" },
          { id := "c", kind := "logic-loop" }],
        [{ id := "1", source := "a", target := "z" }, { id := "2", source := "b", target := "c" },
          { id := "3", source := "c", target := "b" }]⟩
    Set.InjOn ("node-" ++ ·) {a | a ∈ g.names} ∧ g.sameStructure (g.rename ("node-" ++ ·)) = true ∧
    (Rendered.ofGraph {} (g.rename ("node-" ++ ·)) "").warnings = [.unreachable "node-b"] := by
  intro g
  have hρ : Set.InjOn ("node-" ++ ·) {a | a ∈ g.names} := by
    intro a _ b _ hab
    exact String.append_right_inj "node-" |>.mp hab
  have hdata : ∀ n ∈ g.nodes, (Json.object n.data).IsProper := by
    have hempty : (Json.object []).IsProper := .object List.nodup_nil (by simp)
    simp [g, hempty]
  have hwarnings : (Rendered.ofGraph {} g "").warnings = [.unreachable "b"] := by decide +kernel
  obtain ⟨-, hstructure, hrendered⟩ := names_show_in_warnings_only g _ hρ
  refine ⟨hρ, hstructure hdata, ?_⟩
  rw [(hrendered {} "").1, hwarnings]
  rfl

end Graph

end ScriptGraph
