import Mathlib.Data.List.Nodup
import Mathlib.Data.List.Pairwise
import ScriptGraph.Proofs.Outline

namespace ScriptGraph

/-- A node, the handle by which it hangs on the node above it, and the trees below it. -/
inductive Tree where
  | mk (handle : Handle) (node : Node) (children : List Tree)

namespace Tree

def handle : Tree → Handle
  | mk handle _ _ => handle

def node : Tree → Node
  | mk _ node _ => node

def children : Tree → List Tree
  | mk _ _ children => children

@[simp] theorem handle_mk (handle : Handle) (node : Node) (children : List Tree) :
    (mk handle node children).handle = handle := rfl

@[simp] theorem node_mk (handle : Handle) (node : Node) (children : List Tree) :
    (mk handle node children).node = node := rfl

@[simp] theorem children_mk (handle : Handle) (node : Node) (children : List Tree) :
    (mk handle node children).children = children := rfl

mutual

/-- The nodes of a tree, each before those below it. -/
def nodes : Tree → List Node
  | mk _ node children => node :: nodesAll children

def nodesAll : List Tree → List Node
  | [] => []
  | t :: ts => t.nodes ++ nodesAll ts

end

mutual

/-- The sources, targets and handles of the edges of a tree that hangs on `parent`. -/
def links (parent : Option String) : Tree → List (String × String × Handle)
  | mk handle node children =>
    (parent.map fun id => (id, node.id, handle)).toList ++ linksAll (some node.id) children

def linksAll (parent : Option String) : List Tree → List (String × String × Handle)
  | [] => []
  | t :: ts => t.links parent ++ linksAll parent ts

end

def idsAll (ts : List Tree) : List String := (nodesAll ts).map (·.id)

theorem nodesAll_append (ts us : List Tree) : nodesAll (ts ++ us) = nodesAll ts ++ nodesAll us := by
  induction ts with
  | nil => rfl
  | cons t ts ih => simp [nodesAll, ih]

theorem linksAll_append (parent : Option String) (ts us : List Tree) :
    linksAll parent (ts ++ us) = linksAll parent ts ++ linksAll parent us := by
  induction ts with
  | nil => rfl
  | cons t ts ih => simp [linksAll, ih]

theorem listInduction {P : List Tree → Prop} (nil : P [])
    (cons : ∀ handle node children ts, P children → P ts → P (mk handle node children :: ts)) : ∀ ts, P ts
  | [] => nil
  | mk handle node children :: ts =>
    cons handle node children ts (listInduction nil cons children) (listInduction nil cons ts)

/-- All trees in a forest, each before those below it. -/
def subtrees : List Tree → List Tree
  | [] => []
  | mk handle node children :: ts => mk handle node children :: (subtrees children ++ subtrees ts)

theorem not_mem_subtrees_nil {t : Tree} : t ∉ subtrees [] := by
  simp [subtrees]

theorem mem_subtrees_cons {t : Tree} {handle : Handle} {n : Node} {cs ts : List Tree} :
    t ∈ subtrees (mk handle n cs :: ts) ↔ t = mk handle n cs ∨ t ∈ subtrees cs ∨ t ∈ subtrees ts := by
  simp [subtrees]

theorem subtrees_append (ts us : List Tree) : subtrees (ts ++ us) = subtrees ts ++ subtrees us := by
  induction ts with
  | nil => simp [subtrees]
  | cons t ts ih =>
    cases t
    simp [subtrees, ih]

theorem nodesAll_eq_subtrees (ts : List Tree) : nodesAll ts = (subtrees ts).map node := by
  induction ts using listInduction with
  | nil => simp [nodesAll, subtrees]
  | cons handle n children ts ihc iht => simp [nodesAll, nodes, subtrees, ihc, iht, node]

theorem nodesAll_eq_flatMap (ts : List Tree) : nodesAll ts = ts.flatMap fun t => t.node :: nodesAll t.children := by
  induction ts with
  | nil => rfl
  | cons t ts ih =>
    cases t
    simp [nodesAll, nodes, ih]

theorem mem_subtrees_of_mem {t : Tree} {ts : List Tree} (h : t ∈ ts) : t ∈ subtrees ts := by
  induction ts with
  | nil => cases h
  | cons u ts ih =>
    cases u
    rcases List.mem_cons.mp h with rfl | h
    · exact mem_subtrees_cons.mpr (.inl rfl)
    · exact mem_subtrees_cons.mpr (.inr (.inr (ih h)))

theorem mem_subtrees_of_mem_children {t u : Tree} {ts : List Tree} (ht : t ∈ subtrees ts) (hu : u ∈ t.children) :
    u ∈ subtrees ts := by
  induction ts using listInduction with
  | nil => exact absurd ht not_mem_subtrees_nil
  | cons handle n cs ts ihc iht =>
    rcases mem_subtrees_cons.mp ht with rfl | ht | ht
    · exact mem_subtrees_cons.mpr (.inr (.inl (mem_subtrees_of_mem hu)))
    · exact mem_subtrees_cons.mpr (.inr (.inl (ihc ht)))
    · exact mem_subtrees_cons.mpr (.inr (.inr (iht ht)))

/-- The link by which a tree hangs on `id`. -/
def linkTo (id : String) (t : Tree) : String × String × Handle := (id, t.node.id, t.handle)

/-- The links from outside a forest: those of its roots. -/
theorem filter_linksAll_of_not_mem {id : String} {ts : List Tree} (h : id ∉ idsAll ts) : ∀ parent,
    (linksAll parent ts).filter (·.1 == id) = if parent = some id then ts.map (linkTo id) else [] := by
  induction ts using listInduction with
  | nil => simp [linksAll]
  | cons handle n cs ts ihc iht =>
    intro parent
    simp only [idsAll, nodesAll, nodes, List.map_append, List.map_cons, List.mem_append, List.mem_cons, not_or] at h
    have hne : some n.id ≠ some id := fun he => h.1.1 (Option.some.inj he).symm
    have hchildren := ihc h.1.2 (some n.id)
    rw [if_neg hne] at hchildren
    simp only [linksAll, links, List.filter_append, hchildren, iht h.2 parent, List.append_nil]
    by_cases hp : parent = some id
    · subst hp
      simp [linkTo]
    · cases parent with
      | none => simp
      | some p =>
        have hpid : p ≠ id := fun he => hp (congrArg some he)
        simp [hpid]

/-- The links from a node inside a forest: those of the trees below it. -/
theorem filter_linksAll {t : Tree} {ts : List Tree} (ht : t ∈ subtrees ts) (hn : (idsAll ts).Nodup) : ∀ parent,
    parent ≠ some t.node.id → (linksAll parent ts).filter (·.1 == t.node.id) = t.children.map (linkTo t.node.id) := by
  have hids {ts : List Tree} (ht : t ∈ subtrees ts) : t.node.id ∈ idsAll ts := by
    rw [idsAll, nodesAll_eq_subtrees, List.map_map]
    exact List.mem_map.mpr ⟨t, ht, rfl⟩
  induction ts using listInduction with
  | nil => exact absurd ht not_mem_subtrees_nil
  | cons handle n cs ts ihc iht =>
    intro parent hparent
    simp only [idsAll, nodesAll, nodes, List.map_append, List.map_cons, List.cons_append, List.nodup_cons,
      List.mem_append, not_or] at hn
    obtain ⟨⟨hncs, hnts⟩, hnodup⟩ := hn
    obtain ⟨hcs, hts, hdisjoint⟩ := List.nodup_append.mp hnodup
    have hlink : ((parent.map fun id => (id, n.id, handle)).toList.filter (·.1 == t.node.id)) = [] := by
      cases parent with
      | none => rfl
      | some p =>
        have : p ≠ t.node.id := fun he => hparent (congrArg some he)
        simp [this]
    simp only [linksAll, links, List.filter_append, hlink, List.nil_append]
    rcases mem_subtrees_cons.mp ht with rfl | ht | ht
    · have hrest := @filter_linksAll_of_not_mem n.id ts hnts parent
      have hbelow := @filter_linksAll_of_not_mem n.id cs hncs (some n.id)
      simp only [node_mk, children_mk] at hparent ⊢
      rw [hrest, hbelow, if_neg hparent, if_pos rfl, List.append_nil]
    · have hid : t.node.id ∈ idsAll cs := hids ht
      have hne : some n.id ≠ some t.node.id := fun he => hncs (Option.some.inj he ▸ hid)
      have hnot : t.node.id ∉ idsAll ts := fun hm => hdisjoint _ hid _ hm rfl
      have hrest := filter_linksAll_of_not_mem hnot parent
      rw [if_neg hparent] at hrest
      rw [ihc ht hcs (some n.id) hne, hrest, List.append_nil]
    · have hid : t.node.id ∈ idsAll ts := hids ht
      have hnot : t.node.id ∉ idsAll cs := fun hm => hdisjoint _ hm _ hid rfl
      have hne : some n.id ≠ some t.node.id := fun he => hnts (Option.some.inj he ▸ hid)
      have hbelow := filter_linksAll_of_not_mem hnot (some n.id)
      rw [if_neg hne] at hbelow
      rw [iht ht hts parent hparent, hbelow, List.nil_append]

theorem mem_ids_of_mem_linksAll {l : String × String × Handle} {ts : List Tree} : ∀ {parent},
    l ∈ linksAll parent ts → l.2.1 ∈ idsAll ts ∧ (l.1 ∈ idsAll ts ∨ parent = some l.1) := by
  induction ts using listInduction with
  | nil => simp [linksAll]
  | cons handle n cs ts ihc iht =>
    intro parent hl
    simp only [linksAll, links, List.mem_append] at hl
    simp only [idsAll, nodesAll, nodes, List.map_append, List.map_cons, List.mem_append, List.mem_cons]
    rcases hl with (hl | hl) | hl
    · cases parent with
      | none => cases hl
      | some p =>
        obtain rfl : l = (p, n.id, handle) := by simpa using hl
        exact ⟨.inl (.inl rfl), .inr rfl⟩
    · obtain ⟨htarget, hsource⟩ := ihc hl
      refine ⟨.inl (.inr htarget), .inl (.inl ?_)⟩
      rcases hsource with hsource | hsource
      · exact .inr hsource
      · exact .inl (Option.some.inj hsource).symm
    · obtain ⟨htarget, hsource⟩ := iht hl
      exact ⟨.inr htarget, hsource.imp .inr id⟩

theorem targets_linksAll_some (ts : List Tree) : ∀ p, (linksAll (some p) ts).map (·.2.1) = idsAll ts := by
  induction ts using listInduction with
  | nil => simp [linksAll, idsAll, nodesAll]
  | cons handle n cs ts ihc iht =>
    intro p
    simp [linksAll, links, idsAll, nodesAll, nodes] at ihc iht ⊢
    simp [ihc, iht]

theorem targets_linksAll_none (ts : List Tree) :
    (linksAll none ts).map (·.2.1) = ts.flatMap fun t => idsAll t.children := by
  induction ts with
  | nil => simp [linksAll]
  | cons t ts ih =>
    cases t
    simp [linksAll, links, targets_linksAll_some, ih]

theorem root_not_below {ts : List Tree} (hn : (idsAll ts).Nodup) {t u : Tree} (ht : t ∈ ts) (hu : u ∈ ts) :
    t.node.id ∉ idsAll u.children := by
  have hids : idsAll ts = ts.flatMap fun t => t.node.id :: idsAll t.children := by
    rw [idsAll, nodesAll_eq_flatMap, List.map_flatMap]
    rfl
  rw [hids] at hn
  obtain ⟨hown, hapart⟩ := List.nodup_flatMap.mp hn
  by_cases htu : t = u
  · subst htu
    exact (List.nodup_cons.mp (hown t ht)).1
  · have hsymm : Std.Symm (Function.onFun List.Disjoint fun t : Tree => t.node.id :: idsAll t.children) :=
      ⟨fun _ _ hd _ hu ht => hd ht hu⟩
    have hdisjoint := hapart.forall ht hu htu
    exact fun hm => hdisjoint List.mem_cons_self (List.mem_cons_of_mem _ hm)

/-- Of the nodes of a forest, those that are not below another are its roots. -/
theorem filter_nodesAll {ts : List Tree} (hn : (idsAll ts).Nodup) :
    ((nodesAll ts).filter fun n => !(ts.flatMap fun t => idsAll t.children).contains n.id) = ts.map node := by
  have hroot : ∀ t ∈ ts, t.node.id ∉ ts.flatMap fun t => idsAll t.children := by
    intro t ht hm
    obtain ⟨u, hu, hm⟩ := List.mem_flatMap.mp hm
    exact root_not_below hn ht hu hm
  have hbelow : ∀ t ∈ ts, ∀ n ∈ nodesAll t.children, n.id ∈ ts.flatMap fun t => idsAll t.children := by
    intro t ht n hm
    exact List.mem_flatMap.mpr ⟨t, ht, List.mem_map_of_mem hm⟩
  revert hroot hbelow
  generalize (ts.flatMap fun t => idsAll t.children) = targets
  intro hroot hbelow
  clear hn
  induction ts with
  | nil => simp [nodesAll]
  | cons t ts ih =>
    obtain ⟨handle, n, cs⟩ := t
    obtain ⟨hn, hroot⟩ := List.forall_mem_cons.mp hroot
    obtain ⟨hcs, hbelow⟩ := List.forall_mem_cons.mp hbelow
    have hnone : (nodesAll cs).filter (fun n => !targets.contains n.id) = [] := by
      simpa [List.filter_eq_nil_iff] using hcs
    have hkeep : (!targets.contains n.id) = true := by simpa using hn
    simp only [nodesAll, nodes, List.cons_append, List.filter_cons, hkeep, if_true, List.filter_append, hnone,
      List.nil_append, ih hroot hbelow, List.map_cons, node_mk]

theorem length_lt_of_mem_subtrees {t : Tree} {ts : List Tree} (ht : t ∈ subtrees ts) :
    (nodesAll t.children).length < (nodesAll ts).length := by
  induction ts using listInduction with
  | nil => exact absurd ht not_mem_subtrees_nil
  | cons handle n cs ts ihc iht =>
    simp only [nodesAll, nodes, List.length_append, List.length_cons]
    rcases mem_subtrees_cons.mp ht with rfl | ht | ht
    · simp only [children_mk]
      omega
    · have := ihc ht
      omega
    · have := iht ht
      omega

/-- No id of the forest is among those seen, and none occurs twice. -/
def Fresh (seen : List String) (ts : List Tree) : Prop :=
  (idsAll ts).Nodup ∧ ∀ id ∈ idsAll ts, id ∉ seen

theorem Fresh.append {seen : List String} {ts us : List Tree} (h : Fresh seen (ts ++ us)) :
    Fresh seen ts ∧ Fresh ((idsAll ts).reverse ++ seen) us := by
  obtain ⟨hnodup, hnew⟩ := h
  simp only [idsAll, nodesAll_append, List.map_append] at hnodup hnew
  obtain ⟨hts, hus, hapart⟩ := List.nodup_append.mp hnodup
  obtain ⟨hnewts, hnewus⟩ := List.forall_mem_append.mp hnew
  refine ⟨⟨hts, hnewts⟩, hus, fun id hid hseen => ?_⟩
  rcases List.mem_append.mp hseen with hseen | hseen
  · exact hapart id (List.mem_reverse.mp hseen) id hid rfl
  · exact hnewus id hid hseen

theorem Fresh.cons {seen : List String} {handle : Handle} {n : Node} {cs ts : List Tree}
    (h : Fresh seen (mk handle n cs :: ts)) :
    n.id ∉ seen ∧ Fresh (n.id :: seen) cs ∧ Fresh ((idsAll cs).reverse ++ n.id :: seen) ts := by
  obtain ⟨hnodup, hnew⟩ := h
  simp only [idsAll, nodesAll, nodes, List.map_append, List.map_cons, List.cons_append, List.nodup_cons,
    List.mem_append, not_or, List.forall_mem_cons] at hnodup hnew
  obtain ⟨⟨hncs, hnts⟩, hnodup⟩ := hnodup
  obtain ⟨hcs, hts, hapart⟩ := List.nodup_append.mp hnodup
  refine ⟨hnew.1, ⟨hcs, ?_⟩, hts, ?_⟩
  · intro id hid hseen
    rcases List.mem_cons.mp hseen with rfl | hseen
    · exact hncs hid
    · exact hnew.2 id (.inl hid) hseen
  · intro id hid hseen
    simp only [List.mem_append, List.mem_reverse, List.mem_cons] at hseen
    rcases hseen with hseen | rfl | hseen
    · exact hapart _ hseen _ hid rfl
    · exact hnts hid
    · exact hnew.2 id (.inr hid) hseen

end Tree

def Edge.link (e : Edge) : String × String × Handle := (e.source, e.target, e.handle)

namespace Outline

mutual

def size : Outline → Nat
  | leaf _ _ => 1
  | block _ _ body => 1 + sizeAll body
  | branch _ _ consequent alternate => 1 + sizeAll consequent + sizeAll alternate

def sizeAll : List Outline → Nat
  | [] => 0
  | o :: os => o.size + sizeAll os

end

/-- The id of the node in row `row`. -/
def rowId (mark : String) (row : Nat) : String := s!"node-{row + 1}{mark}"

def nodeAt (layout : Layout) (mark : String) (depth row : Nat) (kind : String) (data : Fields) : Node :=
  { id := rowId mark row, kind, data, position := layout.place depth row }

/-- The trees that statements grow into from row `row` on: what follows a plain statement hangs on it,
what follows a block hangs where the block does. -/
def plant (layout : Layout) (mark : String) (depth : Nat) (handle : Handle) (row : Nat) : List Outline → List Tree
  | [] => []
  | .leaf kind data :: os =>
    [.mk handle (nodeAt layout mark depth row kind data) (plant layout mark depth .flowOut (row + 1) os)]
  | .block kind data body :: os =>
    .mk handle (nodeAt layout mark depth row kind data) (plant layout mark (depth + 1) .flowOut (row + 1) body) ::
      plant layout mark depth handle (row + 1 + sizeAll body) os
  | .branch kind data consequent alternate :: os =>
    .mk handle (nodeAt layout mark depth row kind data)
        (plant layout mark (depth + 1) .onTrue (row + 1) consequent ++
          plant layout mark (depth + 1) .onFalse (row + 1 + sizeAll consequent) alternate) ::
      plant layout mark depth handle (row + 1 + sizeAll consequent + sizeAll alternate) os

/-- One case for each kind of first statement. -/
theorem listInduction {P : List Outline → Prop} (nil : P [])
    (leaf : ∀ kind data os, P os → P (.leaf kind data :: os))
    (block : ∀ kind data body os, P body → P os → P (.block kind data body :: os))
    (branch : ∀ kind data consequent alternate os, P consequent → P alternate → P os →
      P (.branch kind data consequent alternate :: os)) : ∀ os, P os
  | [] => nil
  | .leaf kind data :: os => leaf kind data os (listInduction nil leaf block branch os)
  | .block kind data body :: os =>
    block kind data body os (listInduction nil leaf block branch body) (listInduction nil leaf block branch os)
  | .branch kind data consequent alternate :: os =>
    branch kind data consequent alternate os (listInduction nil leaf block branch consequent)
      (listInduction nil leaf block branch alternate) (listInduction nil leaf block branch os)

/-- The ids of the planted nodes count the rows. -/
theorem ids_plant (layout : Layout) (mark : String) (os : List Outline) : ∀ depth handle row,
    Tree.idsAll (plant layout mark depth handle row os) = (List.range' row (sizeAll os)).map (rowId mark) := by
  induction os using listInduction with
  | nil =>
    intro depth handle row
    simp [plant, Tree.idsAll, Tree.nodesAll, sizeAll]
  | leaf kind data os ih =>
    intro depth handle row
    have hsize : 1 + sizeAll os = sizeAll os + 1 := by omega
    simp only [plant, Tree.idsAll, Tree.nodesAll, Tree.nodes, sizeAll, size] at ih ⊢
    rw [hsize, List.range'_succ]
    simp [ih, nodeAt]
  | block kind data body os ihb iho =>
    intro depth handle row
    have hsize : 1 + sizeAll body + sizeAll os = sizeAll body + sizeAll os + 1 := by omega
    simp only [plant, Tree.idsAll, Tree.nodesAll, Tree.nodes, sizeAll, size] at ihb iho ⊢
    rw [hsize, List.range'_succ, ← List.range'_append_1]
    simp only [List.map_cons, List.map_append, List.cons_append, ihb, iho, nodeAt]
  | branch kind data consequent alternate os ihc iha iho =>
    intro depth handle row
    have hsize : 1 + sizeAll consequent + sizeAll alternate + sizeAll os =
        sizeAll consequent + (sizeAll alternate + sizeAll os) + 1 := by omega
    simp only [plant, Tree.idsAll, Tree.nodesAll, Tree.nodes, Tree.nodesAll_append, sizeAll, size] at ihc iha iho ⊢
    rw [hsize, List.range'_succ, ← List.range'_append_1, ← List.range'_append_1]
    simp only [List.map_cons, List.map_append, List.cons_append, List.append_assoc, ihc, iha, iho, nodeAt]

theorem length_plant (layout : Layout) (mark : String) (depth : Nat) (handle : Handle) (row : Nat) (os : List Outline) :
    (Tree.nodesAll (plant layout mark depth handle row os)).length = sizeAll os := by
  have h := congrArg List.length (ids_plant layout mark os depth handle row)
  simpa [Tree.idsAll] using h

end Outline

namespace Builder

theorem nextId_eq (b : Builder) : b.nextId = Outline.rowId b.mark b.graph.nodes.length := rfl

theorem graph_add (layout : Layout) (depth : Nat) (kind : String) (data : Fields) (b : Builder) :
    ∃ es, (b.add layout depth kind data).graph =
      ⟨b.graph.nodes ++ [Outline.nodeAt layout b.mark depth b.graph.nodes.length kind data], b.graph.edges ++ es⟩ ∧
      es.map Edge.link = (b.parent.map fun id => (id, b.nextId, b.handle)).toList := by
  unfold add
  cases b.parent with
  | none => exact ⟨[], by simp [Outline.nodeAt, nextId_eq]⟩
  | some parent => exact ⟨_, rfl, rfl⟩

theorem mark_add (layout : Layout) (depth : Nat) (kind : String) (data : Fields) (b : Builder) :
    (b.add layout depth kind data).mark = b.mark := by
  unfold add
  cases b.parent <;> rfl

theorem mark_addOutlines (layout : Layout) (os : List Outline) : ∀ depth b,
    (addOutlines layout depth os b).mark = b.mark := by
  induction os using Outline.listInduction with
  | nil => simp [addOutlines]
  | leaf kind data os ih => simp [addOutlines, addOutline, leaf, mark_add, ih]
  | block kind data body os ihb iho => simp [addOutlines, addOutline, block, leaf, mark_add, ihb, iho]
  | branch kind data consequent alternate os ihc iha iho =>
    simp [addOutlines, addOutline, branch, mark_add, ihc, iha, iho]

/-- Adding an outline adds the nodes and the edges of its forest. -/
theorem graph_addOutlines (layout : Layout) (os : List Outline) : ∀ depth b,
    ∃ es, (addOutlines layout depth os b).graph =
      ⟨b.graph.nodes ++ Tree.nodesAll (Outline.plant layout b.mark depth b.handle b.graph.nodes.length os),
        b.graph.edges ++ es⟩ ∧
      es.map Edge.link =
        Tree.linksAll b.parent (Outline.plant layout b.mark depth b.handle b.graph.nodes.length os) := by
  induction os using Outline.listInduction with
  | nil =>
    intro depth b
    exact ⟨[], by simp [addOutlines, Outline.plant, Tree.nodesAll, Tree.linksAll]⟩
  | leaf kind data os ih =>
    intro depth b
    obtain ⟨es, hadd, hes⟩ := graph_add layout depth kind data b
    obtain ⟨fs, hrest, hfs⟩ := ih depth (b.leaf layout depth kind data)
    simp only [leaf, hadd, mark_add, List.length_append, List.length_singleton] at hrest hfs
    refine ⟨es ++ fs, ?_, ?_⟩
    · simp only [addOutlines, addOutline, leaf, hadd, mark_add, hrest]
      simp [Outline.plant, Tree.nodesAll, Tree.nodes]
    · simp [hes, hfs, Outline.plant, Tree.linksAll, Tree.links, Outline.nodeAt, nextId_eq]
  | block kind data body os ihb iho =>
    intro depth b
    obtain ⟨es, hadd, hes⟩ := graph_add layout depth kind data b
    obtain ⟨fs, hbody, hfs⟩ := ihb (depth + 1) (b.leaf layout depth kind data)
    obtain ⟨gs, hrest, hgs⟩ := iho depth
      (b.block layout depth kind data (addOutlines layout (depth + 1) body))
    simp only [leaf, hadd, mark_add, List.length_append, List.length_singleton] at hbody hfs
    simp only [block, leaf, hadd, hbody, mark_add, mark_addOutlines, List.length_append, List.length_singleton,
      Outline.length_plant] at hrest hgs
    refine ⟨es ++ fs ++ gs, ?_, ?_⟩
    · simp only [addOutlines, addOutline, block, leaf, hadd, hbody, mark_add, mark_addOutlines, hrest]
      simp [Outline.plant, Tree.nodesAll, Tree.nodes]
    · simp [hes, hfs, hgs, Outline.plant, Tree.linksAll, Tree.links, Outline.nodeAt, nextId_eq]
  | branch kind data consequent alternate os ihc iha iho =>
    intro depth b
    obtain ⟨es, hadd, hes⟩ := graph_add layout depth kind data b
    let start : Builder := { b.add layout depth kind data with parent := some b.nextId, handle := .onTrue }
    let middle : Builder :=
      { addOutlines layout (depth + 1) consequent start with parent := some b.nextId, handle := .onFalse }
    obtain ⟨fs, hthen, hfs⟩ := ihc (depth + 1) start
    obtain ⟨gs, helse, hgs⟩ := iha (depth + 1) middle
    obtain ⟨hs, hrest, hhs⟩ := iho depth (b.branch layout depth kind data
      (addOutlines layout (depth + 1) consequent) (addOutlines layout (depth + 1) alternate))
    simp only [start, hadd, mark_add, List.length_append, List.length_singleton] at hthen hfs
    simp only [middle, start, hadd, hthen, mark_add, mark_addOutlines, List.length_append, List.length_singleton,
      Outline.length_plant] at helse hgs
    simp only [branch, hadd, hthen, helse, mark_add, mark_addOutlines, List.length_append, List.length_singleton,
      Outline.length_plant] at hrest hhs
    refine ⟨es ++ fs ++ gs ++ hs, ?_, ?_⟩
    · simp only [addOutlines, addOutline, branch, hadd, hthen, helse, mark_add, mark_addOutlines, hrest]
      simp [Outline.plant, Tree.nodesAll, Tree.nodes, Tree.nodesAll_append]
    · simp [hes, hfs, hgs, hhs, Outline.plant, Tree.linksAll, Tree.links, Tree.linksAll_append, Outline.nodeAt,
        nextId_eq]

end Builder

end ScriptGraph
