import ScriptGraph.Proofs.Nesting
import ScriptGraph.Proofs.Structure

namespace ScriptGraph

/-- What nodes are written as: lines, blocks around others, and conditionals. -/
inductive Script where
  | line (text : String)
  | block (opener closer : String) (body : List Script)
  | conditional (condition : String) (consequent alternate : List Script)

namespace Script

mutual

def writeAll (out : Emitter) : List Script → Emitter
  | [] => out
  | s :: ss => writeAll (s.write out) ss

def write (out : Emitter) : Script → Emitter
  | line text => out.write text
  | block opener closer body => (writeAll (out.openBlock opener closer) body).closeBlock
  | conditional condition consequent alternate =>
    (writeAlternate (writeAll (out.openBlock ("if " ++ condition ++ " then") "end") consequent) alternate).closeBlock

/-- A conditional that is all of the alternate is written as `elseif`. -/
def writeAlternate (out : Emitter) : List Script → Emitter
  | [] => out
  | [conditional condition consequent alternate] =>
    writeAlternate (writeAll (out.reopen ("elseif " ++ condition ++ " then")) consequent) alternate
  | s :: ss => writeAll (s.write (out.reopen "else")) ss

end

theorem writeAlternate_eq (out : Emitter) {ss : List Script} (hne : ss ≠ [])
    (h : ∀ condition consequent alternate, ss ≠ [conditional condition consequent alternate]) :
    writeAlternate out ss = writeAll (out.reopen "else") ss := by
  cases ss with
  | nil => exact absurd rfl hne
  | cons s ss =>
    rw [writeAll, writeAlternate]
    rintro condition consequent alternate rfl rfl
    exact h condition consequent alternate rfl

end Script

/-- How a node of this kind with these data is written. -/
def emission (kind : String) (data : Fields) : Emission := Emission.ofNode { id := "", kind, data }

theorem emission_eq (n : Node) : Emission.ofNode n = emission n.kind n.data := rfl

/-- An outline is written as a script: plain nodes as lines, a node that ends its block as the last line, whatever
follows it. -/
inductive Outline.Says : List Outline → List Script → Prop
  | nil : Says [] []
  | line {kind text : String} {data : Fields} {os : List Outline} {ss : List Script}
      (hk : kind ≠ NodeKind.conditional.tag) (he : emission kind data = .line text) (h : Says os ss) :
      Says (.leaf kind data :: os) (.line text :: ss)
  | last {kind text : String} {data : Fields} {os : List Outline} (hk : kind ≠ NodeKind.conditional.tag)
      (he : emission kind data = .terminal text) : Says (.leaf kind data :: os) [.line text]
  | block {kind opener closer : String} {data : Fields} {body os : List Outline} {bs ss : List Script}
      (hk : kind ≠ NodeKind.conditional.tag) (he : emission kind data = .block opener closer) (hb : Says body bs)
      (h : Says os ss) : Says (.block kind data body :: os) (.block opener closer bs :: ss)
  | branch {condition : String} {data : Fields} {consequent alternate os : List Outline} {cs as ss : List Script}
      (he : emission NodeKind.conditional.tag data = .conditional)
      (hcode : (Node.codeBlock? { id := "", kind := NodeKind.conditional.tag, data }).isNone = true)
      (hcond : Graph.conditionText { id := "", kind := NodeKind.conditional.tag, data } = condition)
      (hc : Says consequent cs) (ha : Says alternate as) (h : Says os ss) :
      Says (.branch NodeKind.conditional.tag data consequent alternate :: os) (.conditional condition cs as :: ss)

namespace Outline

/-- The trees of an outline all hang by the one handle. -/
theorem filter_plant (layout : Layout) (mark : String) (depth : Nat) (handle : Handle) (row : Nat) (os : List Outline)
    (via : Handle) :
    (plant layout mark depth handle row os).filter (fun t => (some via).all (· == t.handle)) =
      if via = handle then plant layout mark depth handle row os else [] := by
  split
  · rename_i he
    refine List.filter_eq_self.mpr fun t ht => ?_
    simp [he, handle_of_mem_plant layout mark os depth handle row t ht]
  · rename_i hne
    refine List.filter_eq_nil_iff.mpr fun t ht => ?_
    simp [hne, handle_of_mem_plant layout mark os depth handle row t ht]

end Outline

namespace Walk

/-- The walk has gone through the trees and written `out`. -/
def past (w : Walk) (ts : List Tree) (out : Emitter) : Walk :=
  { w with visited := (Tree.idsAll ts).reverse ++ w.visited, out }

end Walk

namespace Graph.Hosts

variable {g : Graph} {ts : List Tree}

theorem foldl_childNodes (h : g.Hosts ts) {t : Tree} (ht : t ∈ Tree.subtrees ts) (f : Walk → Node → Walk) (w : Walk) :
    (g.childNodes t.node.id).foldl f w = t.children.foldl (fun w c => f w c.node) w := by
  rw [h.childNodes_eq ht none, List.foldl_map]
  simp only [Option.all_none, List.filter_true]

/-- The state of a walk that has come to a node. -/
theorem visit_new (h : g.Hosts ts) (settings : RenderSettings) {t : Tree} (ht : t ∈ Tree.subtrees ts) {w : Walk}
    (hnew : t.node.id ∉ w.visited) (fuel d : Nat) :
    g.visit settings (fuel + 1) d w t.node = match emission t.node.kind t.node.data with
      | .line text => t.children.foldl (fun w c => g.visit settings fuel d w c.node) ((w.mark t.node.id).write text)
      | .skip => t.children.foldl (fun w c => g.visit settings fuel d w c.node) (w.mark t.node.id)
      | .terminal text => g.skipAll ((w.mark t.node.id).write text) (g.childNodes t.node.id)
      | .block opener closer =>
        if d < settings.maxDepth then
          let w := { w.mark t.node.id with out := w.out.openBlock opener closer }
          let w := t.children.foldl (fun w c => g.visit settings fuel (d + 1) w c.node) w
          { w with out := w.out.closeBlock }
        else g.cutOff settings.maxDepth (w.mark t.node.id) t.node
      | .conditional =>
        if d < settings.maxDepth then
          let (body, after) := g.branchBody t.node.id
          let w := { w.mark t.node.id with out := w.out.openBlock ("if " ++ conditionText t.node ++ " then") "end" }
          let w := body.foldl (g.visit settings fuel (d + 1)) w
          let w := g.alternates (g.visit settings fuel (d + 1)) (g.nodes.length + 1) w t.node.id
          after.foldl (g.visit settings fuel d) { w with out := w.out.closeBlock }
        else g.cutOff settings.maxDepth (w.mark t.node.id) t.node := by
  have hseen : w.visited.contains t.node.id = false := by simpa using hnew
  rw [visit, hseen, emission_eq]
  simp only [Bool.false_eq_true, if_false, h.foldl_childNodes ht]
  rfl

theorem branchBody_eq {id : String} {cs : List Node} (hc : g.childNodes id (some .onTrue) = cs)
    (hp : g.childNodes id (some .flowOut) = []) : g.branchBody id = (cs, []) := by
  rw [branchBody, hc, hp]
  cases cs <;> rfl

/-- The walk goes through the trees of an outline from the depth `d` on and writes its script. -/
def Writes (g : Graph) (settings : RenderSettings) (ts : List Tree) (os : List Outline) (ss : List Script) : Prop :=
  ∀ layout mark depth handle row d fuel w, (∀ t ∈ Outline.plant layout mark depth handle row os, t ∈ Tree.subtrees ts) →
    Tree.Fresh w.visited (Outline.plant layout mark depth handle row os) → Outline.sizeAll os ≤ fuel →
    Outline.FitsAll (settings.maxDepth - d) os →
    (Outline.plant layout mark depth handle row os).foldl (fun w t => g.visit settings fuel d w t.node) w =
      w.past (Outline.plant layout mark depth handle row os) (Script.writeAll w.out ss)

/-- The outline is all that follows by the last handle of a conditional, and its script is written. -/
def WritesAlternate (g : Graph) (settings : RenderSettings) (ts : List Tree) (os : List Outline) (ss : List Script) :
    Prop :=
  ∀ layout mark depth row d fuel loops w, ∀ t ∈ Tree.subtrees ts,
    t.children.filter (fun c => (some Handle.onFalse).all (· == c.handle)) =
      Outline.plant layout mark depth .onFalse row os →
    Tree.Fresh w.visited (Outline.plant layout mark depth .onFalse row os) → Outline.sizeAll os ≤ fuel →
    Outline.sizeAll os < loops → Outline.FitsAlternate (settings.maxDepth - d) os →
    g.alternates (g.visit settings fuel (d + 1)) loops w t.node.id =
      w.past (Outline.plant layout mark depth .onFalse row os) (Script.writeAlternate w.out ss)

theorem writes_line (h : g.Hosts ts) {settings : RenderSettings} {kind text : String} {data : Fields}
    {os : List Outline} {ss : List Script} (he : emission kind data = .line text) (ih : Writes g settings ts os ss) :
    Writes g settings ts (.leaf kind data :: os) (.line text :: ss) := by
  intro layout mark depth handle row d fuel w hmem hfresh hfuel hfits
  simp only [Outline.sizeAll, Outline.size] at hfuel
  rw [Outline.FitsAll] at hfits
  obtain ⟨fuel, rfl⟩ : ∃ m, fuel = m + 1 := ⟨fuel - 1, by omega⟩
  simp only [Outline.plant] at hmem hfresh ⊢
  have hroot := List.forall_mem_singleton.mp hmem
  obtain ⟨hn, hchildren, -⟩ := hfresh.cons
  have hnode := h.visit_new settings hroot hn fuel d
  simp only [Tree.node_mk, Tree.children_mk, Outline.nodeAt, he] at hnode
  rw [List.foldl_cons, List.foldl_nil, Tree.node_mk, Outline.nodeAt, hnode]
  rw [ih layout mark depth .flowOut (row + 1) d fuel _ (fun t ht => Tree.mem_subtrees_of_mem_children hroot ht)
    hchildren (by omega) hfits.2]
  simp [Walk.past, Walk.write, Walk.mark, Tree.idsAll, Tree.nodesAll, Tree.nodes, Script.writeAll, Script.write]

/-- Trees that are skipped count as done. -/
theorem foldl_skipNode (h : g.Hosts ts) (us : List Tree) : ∀ fuel seen, (∀ t ∈ us, t ∈ Tree.subtrees ts) →
    Tree.Fresh seen us → (Tree.nodesAll us).length ≤ fuel →
    (us.map Tree.node).foldl (g.skipNode fuel) seen = (Tree.idsAll us).reverse ++ seen := by
  induction us using Tree.listInduction with
  | nil => simp [Tree.idsAll, Tree.nodesAll]
  | cons handle n cs us ihc ihu =>
    intro fuel seen hmem hfresh hfuel
    simp only [Tree.nodesAll, Tree.nodes, List.length_append, List.length_cons] at hfuel
    obtain ⟨fuel, rfl⟩ : ∃ m, fuel = m + 1 := ⟨fuel - 1, by omega⟩
    obtain ⟨hroot, hmem⟩ := List.forall_mem_cons.mp hmem
    obtain ⟨hnew, hchildren, hothers⟩ := hfresh.cons
    have hcs := h.childNodes_eq hroot none
    simp only [Option.all_none, List.filter_true, Tree.node_mk, Tree.children_mk] at hcs
    have hbelow := ihc fuel (n.id :: seen) (fun t ht => Tree.mem_subtrees_of_mem_children hroot ht) hchildren (by omega)
    rw [List.map_cons, List.foldl_cons, Tree.node_mk, skipNode, if_neg (by simpa using hnew), hcs, hbelow,
      ihu (fuel + 1) _ hmem hothers (by omega)]
    simp [Tree.idsAll, Tree.nodesAll, Tree.nodes]

theorem skipAll_childNodes (h : g.Hosts ts) {t : Tree} (ht : t ∈ Tree.subtrees ts) {w : Walk}
    (hfresh : Tree.Fresh w.visited t.children) : g.skipAll w (g.childNodes t.node.id) = w.past t.children w.out := by
  have hchildren := h.childNodes_eq ht none
  have hsize := Tree.length_lt_of_mem_subtrees ht
  rw [← h.nodes] at hsize
  simp only [Option.all_none, List.filter_true] at hchildren
  rw [skipAll, hchildren, h.foldl_skipNode t.children _ _ (fun c hc => Tree.mem_subtrees_of_mem_children ht hc) hfresh
    (Nat.le_of_lt hsize), Walk.past]

theorem writes_last (h : g.Hosts ts) {settings : RenderSettings} {kind text : String} {data : Fields}
    {os : List Outline} (he : emission kind data = .terminal text) :
    Writes g settings ts (.leaf kind data :: os) [.line text] := by
  intro layout mark depth handle row d fuel w hmem hfresh hfuel _
  simp only [Outline.sizeAll, Outline.size] at hfuel
  obtain ⟨fuel, rfl⟩ : ∃ m, fuel = m + 1 := ⟨fuel - 1, by omega⟩
  simp only [Outline.plant] at hmem hfresh ⊢
  have hroot := List.forall_mem_singleton.mp hmem
  obtain ⟨hn, hchildren, -⟩ := hfresh.cons
  have hskip := @skipAll_childNodes g ts h _ hroot ((w.mark (Outline.rowId mark row)).write text) hchildren
  have hnode := h.visit_new settings hroot hn fuel d
  simp only [Tree.node_mk, Tree.children_mk, Outline.nodeAt, he] at hnode hskip
  rw [List.foldl_cons, List.foldl_nil, Tree.node_mk, Outline.nodeAt, hnode, hskip]
  simp [Walk.past, Walk.write, Walk.mark, Tree.idsAll, Tree.nodesAll, Tree.nodes, Script.writeAll, Script.write]

theorem writes_block (h : g.Hosts ts) {settings : RenderSettings} {kind opener closer : String} {data : Fields}
    {body os : List Outline} {bs ss : List Script} (he : emission kind data = .block opener closer)
    (ihb : Writes g settings ts body bs) (iho : Writes g settings ts os ss) :
    Writes g settings ts (.block kind data body :: os) (.block opener closer bs :: ss) := by
  intro layout mark depth handle row d fuel w hmem hfresh hfuel hfits
  simp only [Outline.sizeAll, Outline.size] at hfuel
  simp only [Outline.FitsAll, Outline.Fits] at hfits
  obtain ⟨⟨hroom, hbody⟩, hrest⟩ := hfits
  obtain ⟨fuel, rfl⟩ : ∃ m, fuel = m + 1 := ⟨fuel - 1, by omega⟩
  simp only [Outline.plant] at hmem hfresh ⊢
  obtain ⟨hroot, hmem⟩ := List.forall_mem_cons.mp hmem
  obtain ⟨hn, hchildren, hothers⟩ := hfresh.cons
  have hdepth : d < settings.maxDepth := by omega
  have hnode := h.visit_new settings hroot hn fuel d
  simp only [Tree.node_mk, Tree.children_mk, Outline.nodeAt, he, if_pos hdepth] at hnode
  rw [ihb layout mark (depth + 1) .flowOut (row + 1) (d + 1) fuel _
    (fun t ht => Tree.mem_subtrees_of_mem_children hroot ht) hchildren (by omega)
    (by rwa [Nat.sub_add_eq])] at hnode
  rw [List.foldl_cons, Tree.node_mk, Outline.nodeAt, hnode, iho layout mark depth handle _ d (fuel + 1) _ hmem hothers
    (by omega) hrest]
  simp [Walk.past, Walk.mark, Tree.idsAll, Tree.nodesAll, Tree.nodes, Script.writeAll, Script.write]

/-- What hangs on a conditional by each of its handles. -/
theorem childNodes_branch (h : g.Hosts ts) {handle : Handle} {n : Node} {layout : Layout} {mark : String}
    {depth row below : Nat} {consequent alternate : List Outline}
    (ht : Tree.mk handle n (Outline.plant layout mark depth .onTrue row consequent ++
      Outline.plant layout mark depth .onFalse below alternate) ∈ Tree.subtrees ts) :
    g.childNodes n.id (some .onTrue) = (Outline.plant layout mark depth .onTrue row consequent).map Tree.node ∧
      g.childNodes n.id (some .flowOut) = [] ∧
      (Outline.plant layout mark depth .onTrue row consequent ++
          Outline.plant layout mark depth .onFalse below alternate).filter
        (fun c => (some Handle.onFalse).all (· == c.handle)) =
          Outline.plant layout mark depth .onFalse below alternate := by
  have htrue := h.childNodes_eq ht (some .onTrue)
  have hflow := h.childNodes_eq ht (some .flowOut)
  simp only [Tree.node_mk, Tree.children_mk, List.filter_append, Outline.filter_plant] at htrue hflow ⊢
  exact ⟨by simpa using htrue, by simpa using hflow, by simp⟩

theorem visit_branch (h : g.Hosts ts) {settings : RenderSettings} {t : Tree} (ht : t ∈ Tree.subtrees ts)
    {w w₁ w₂ : Walk} {fuel d : Nat} (hnew : t.node.id ∉ w.visited) (hd : d < settings.maxDepth)
    (he : emission t.node.kind t.node.data = .conditional) {body : List Node}
    (hbody : g.branchBody t.node.id = (body, []))
    (h₁ : body.foldl (g.visit settings fuel (d + 1))
      { w.mark t.node.id with out := w.out.openBlock ("if " ++ conditionText t.node ++ " then") "end" } = w₁)
    (h₂ : g.alternates (g.visit settings fuel (d + 1)) (g.nodes.length + 1) w₁ t.node.id = w₂) :
    g.visit settings (fuel + 1) d w t.node = { w₂ with out := w₂.out.closeBlock } := by
  subst h₁ h₂
  rw [h.visit_new settings ht hnew, he]
  simp only [if_pos hd, hbody, List.foldl_nil]

theorem writes_branch (h : g.Hosts ts) {settings : RenderSettings} {condition : String} {data : Fields}
    {consequent alternate os : List Outline} {cs as ss : List Script}
    (he : emission NodeKind.conditional.tag data = .conditional)
    (hcond : conditionText { id := "", kind := NodeKind.conditional.tag, data } = condition)
    (ihc : Writes g settings ts consequent cs) (iha : WritesAlternate g settings ts alternate as)
    (iho : Writes g settings ts os ss) :
    Writes g settings ts (.branch NodeKind.conditional.tag data consequent alternate :: os)
      (.conditional condition cs as :: ss) := by
  intro layout mark depth handle row d fuel w hmem hfresh hfuel hfits
  simp only [Outline.sizeAll, Outline.size] at hfuel
  simp only [Outline.FitsAll, Outline.Fits] at hfits
  obtain ⟨⟨hroom, hthen, helse⟩, hrest⟩ := hfits
  obtain ⟨fuel, rfl⟩ : ∃ m, fuel = m + 1 := ⟨fuel - 1, by omega⟩
  simp only [Outline.plant] at hmem hfresh ⊢
  obtain ⟨hroot, hmem⟩ := List.forall_mem_cons.mp hmem
  obtain ⟨hn, hchildren, hothers⟩ := hfresh.cons
  obtain ⟨hfirst, hsecond⟩ := hchildren.append
  have hbelow : ∀ t ∈ Outline.plant layout mark (depth + 1) .onTrue (row + 1) consequent, t ∈ Tree.subtrees ts :=
    fun t ht => Tree.mem_subtrees_of_mem_children hroot (List.mem_append_left _ ht)
  have hloops : Outline.sizeAll alternate < g.nodes.length + 1 := by
    have hlt := Tree.length_lt_of_mem_subtrees hroot
    simp only [Tree.children_mk, Tree.nodesAll_append, List.length_append, Outline.length_plant] at hlt
    rw [h.nodes]
    omega
  have hfalse := (h.childNodes_branch hroot).2.2
  have hthen := ihc layout mark (depth + 1) .onTrue (row + 1) (d + 1) fuel
    { w.mark (Outline.rowId mark row) with out := w.out.openBlock ("if " ++ condition ++ " then") "end" } hbelow hfirst
    (by omega) (by rwa [Nat.sub_add_eq])
  have helse := iha layout mark (depth + 1) (row + 1 + Outline.sizeAll consequent) d fuel (g.nodes.length + 1)
    (Walk.past { w.mark (Outline.rowId mark row) with out := w.out.openBlock ("if " ++ condition ++ " then") "end" }
      (Outline.plant layout mark (depth + 1) .onTrue (row + 1) consequent)
      (Script.writeAll (w.out.openBlock ("if " ++ condition ++ " then") "end") cs)) _ hroot hfalse hsecond
    (by omega) hloops helse
  have hbody := branchBody_eq (h.childNodes_branch hroot).1 (h.childNodes_branch hroot).2.1
  have hnode := h.visit_branch hroot hn (by omega) he hbody (by rw [List.foldl_map]; exact hcond ▸ hthen) helse
  rw [List.foldl_cons, hnode, iho layout mark depth handle _ d (fuel + 1) _ hmem ?_ (by omega) hrest]
  · simp [Walk.past, Walk.mark, Tree.idsAll, Tree.nodesAll, Tree.nodes, Tree.nodesAll_append, Script.writeAll,
      Script.write, Outline.nodeAt]
  · simpa [Walk.past, Walk.mark, Tree.idsAll, Tree.nodesAll_append, Outline.nodeAt] using hothers

theorem writesAlternate_nil (h : g.Hosts ts) {settings : RenderSettings} : WritesAlternate g settings ts [] [] := by
  intro layout mark depth row d fuel loops w t ht hfilter _ _ hloops _
  obtain ⟨loops, rfl⟩ : ∃ m, loops = m + 1 := ⟨loops - 1, by omega⟩
  rw [alternates, h.childNodes_eq ht, hfilter]
  simp [Outline.plant, Script.writeAlternate, Walk.past, Tree.idsAll, Tree.nodesAll]

/-- Anything but a single conditional is written behind `else`. -/
theorem writesAlternate_else (h : g.Hosts ts) {settings : RenderSettings} {o : Outline} {os : List Outline}
    {ss : List Script} (hw : Writes g settings ts (o :: os) ss) (hne : ss ≠ [])
    (hno : ∀ condition consequent alternate, ss ≠ [.conditional condition consequent alternate])
    (hlone : o.isBranch = true → os ≠ [])
    (hkind : ∀ layout mark depth handle row, ∃ t rest,
      Outline.plant layout mark depth handle row (o :: os) = t :: rest ∧
        (rest = [] → t.node.kind ≠ NodeKind.conditional.tag)) :
    WritesAlternate g settings ts (o :: os) ss := by
  intro layout mark depth row d fuel loops w t ht hfilter hfresh hfuel hloops hfits
  obtain ⟨loops, rfl⟩ : ∃ m, loops = m + 1 := ⟨loops - 1, by omega⟩
  obtain ⟨u, us, hplant, hu⟩ := hkind layout mark depth .onFalse row
  have hmem : ∀ u ∈ Outline.plant layout mark depth .onFalse row (o :: os), u ∈ Tree.subtrees ts := by
    intro u hu
    rw [← hfilter] at hu
    exact Tree.mem_subtrees_of_mem_children ht (List.mem_of_mem_filter hu)
  have hchildren : g.childNodes t.node.id (some .onFalse) = u.node :: us.map Tree.node := by
    rw [h.childNodes_eq ht, hfilter, hplant, List.map_cons]
  have hcond : ((us.map Tree.node).isEmpty && g.isElseif w u.node) = false := by
    cases us with
    | nil => simp [isElseif, hu rfl]
    | cons v vs => simp
  rw [alternates, hchildren]
  simp only [hcond, Bool.false_eq_true, if_false]
  rw [Outline.fitsAlternate_cons hlone] at hfits
  rw [← List.map_cons, ← hplant, List.foldl_map, Script.writeAlternate_eq _ hne hno]
  exact hw layout mark depth .onFalse row (d + 1) fuel { w with out := w.out.reopen "else" } hmem hfresh hfuel
    (by rwa [Nat.sub_add_eq])

/-- A single conditional is written as `elseif`. -/
theorem writesAlternate_elseif (h : g.Hosts ts) {settings : RenderSettings} {condition : String} {data : Fields}
    {consequent alternate : List Outline} {cs as : List Script}
    (hcode : (Node.codeBlock? { id := "", kind := NodeKind.conditional.tag, data }).isNone = true)
    (hcond : conditionText { id := "", kind := NodeKind.conditional.tag, data } = condition)
    (ihc : Writes g settings ts consequent cs) (iha : WritesAlternate g settings ts alternate as) :
    WritesAlternate g settings ts [.branch NodeKind.conditional.tag data consequent alternate]
      [.conditional condition cs as] := by
  intro layout mark depth row d fuel loops w t ht hfilter hfresh hfuel hloops hfits
  simp only [Outline.sizeAll, Outline.size] at hfuel hloops
  obtain ⟨loops, rfl⟩ : ∃ m, loops = m + 1 := ⟨loops - 1, by omega⟩
  rw [Outline.FitsAlternate] at hfits
  simp only [Outline.plant] at hfilter hfresh ⊢
  generalize hu : Tree.mk Handle.onFalse (Outline.nodeAt layout mark depth row NodeKind.conditional.tag data)
    (Outline.plant layout mark (depth + 1) .onTrue (row + 1) consequent ++
      Outline.plant layout mark (depth + 1) .onFalse (row + 1 + Outline.sizeAll consequent) alternate) = u
      at hfilter hfresh ⊢
  have hroot : u ∈ Tree.subtrees ts :=
    Tree.mem_subtrees_of_mem_children ht (List.mem_of_mem_filter (hfilter ▸ List.mem_singleton_self u))
  subst hu
  obtain ⟨hn, hchildren, -⟩ := hfresh.cons
  obtain ⟨hfirst, hsecond⟩ := hchildren.append
  obtain ⟨htrue, hflow, hfalse⟩ := h.childNodes_branch hroot
  have hbelow : ∀ t ∈ Outline.plant layout mark (depth + 1) .onTrue (row + 1) consequent, t ∈ Tree.subtrees ts :=
    fun t ht => Tree.mem_subtrees_of_mem_children hroot (List.mem_append_left _ ht)
  have helseif : g.isElseif w (Outline.nodeAt layout mark depth row NodeKind.conditional.tag data) = true := by
    have hseen : w.visited.contains (Outline.nodeAt layout mark depth row NodeKind.conditional.tag data).id =
        false := by
      simpa using hn
    have hnone : (Outline.nodeAt layout mark depth row NodeKind.conditional.tag data).codeBlock?.isNone = true := hcode
    simp only [isElseif, hseen, hnone, hflow]
    rfl
  have htext : conditionText (Outline.nodeAt layout mark depth row NodeKind.conditional.tag data) = condition := hcond
  rw [alternates, h.childNodes_eq ht, hfilter]
  simp only [List.map_cons, List.map_nil, Tree.node_mk, List.isEmpty_nil, helseif, Bool.and_self, if_true, htext]
  rw [branchBody_eq htrue hflow, List.foldl_map,
    ihc layout mark (depth + 1) .onTrue (row + 1) (d + 1) fuel _ hbelow hfirst (by omega)
    (by rw [Nat.sub_add_eq]; exact hfits.1)]
  have hrest := iha layout mark (depth + 1) (row + 1 + Outline.sizeAll consequent) d fuel loops
    (Walk.past { w.mark (Outline.rowId mark row) with out := w.out.reopen ("elseif " ++ condition ++ " then") }
      (Outline.plant layout mark (depth + 1) .onTrue (row + 1) consequent)
      (Script.writeAll (w.out.reopen ("elseif " ++ condition ++ " then")) cs)) _ hroot hfalse hsecond
    (by omega) (by omega) hfits.2
  refine hrest.trans ?_
  simp [Walk.past, Walk.mark, Tree.idsAll, Tree.nodesAll, Tree.nodes, Tree.nodesAll_append, Script.writeAlternate,
    Outline.nodeAt]

/-- A walk over the trees of an outline writes its script. -/
theorem writes (h : g.Hosts ts) (settings : RenderSettings) {os : List Outline} {ss : List Script}
    (hs : Outline.Says os ss) : Writes g settings ts os ss ∧ WritesAlternate g settings ts os ss := by
  induction hs with
  | nil =>
    refine ⟨?_, h.writesAlternate_nil⟩
    intro layout mark depth handle row d fuel w _ _ _ _
    simp [Outline.plant, Script.writeAll, Walk.past, Tree.idsAll, Tree.nodesAll]
  | line hk he _ ih =>
    have hw := h.writes_line he ih.1
    refine ⟨hw, h.writesAlternate_else hw (by simp) (by simp) (by simp [Outline.isBranch]) ?_⟩
    intro layout mark depth handle row
    rw [Outline.plant]
    exact ⟨_, _, rfl, fun _ => hk⟩
  | @last _ _ _ os hk he =>
    have hw := @writes_last g ts h settings _ _ _ os he
    refine ⟨hw, h.writesAlternate_else hw (by simp) (by simp) (by simp [Outline.isBranch]) ?_⟩
    intro layout mark depth handle row
    rw [Outline.plant]
    exact ⟨_, _, rfl, fun _ => hk⟩
  | block hk he _ _ ihb iho =>
    have hw := h.writes_block he ihb.1 iho.1
    refine ⟨hw, h.writesAlternate_else hw (by simp) (by simp) (by simp [Outline.isBranch]) ?_⟩
    intro layout mark depth handle row
    rw [Outline.plant]
    exact ⟨_, _, rfl, fun _ => hk⟩
  | branch he hcode hcond _ _ hos ihc iha iho =>
    have hw := h.writes_branch he hcond ihc.1 iha.2 iho.1
    refine ⟨hw, ?_⟩
    cases hos with
    | nil => exact h.writesAlternate_elseif hcode hcond ihc.1 iha.2
    | _ =>
      refine h.writesAlternate_else hw (by simp) (by simp) (by simp) fun layout mark depth handle row => ?_
      rw [Outline.plant, Outline.plant]
      exact ⟨_, _, rfl, by simp⟩

end Graph.Hosts

/-- The parts of a script that are written as blocks of their own: what follows a plain line belongs to it. -/
def Script.paragraphs : List Script → List (List Script)
  | [] => []
  | .line text :: ss => [.line text :: ss]
  | s :: ss => [s] :: paragraphs ss

namespace Draft

variable {g : Graph} {ts : List Tree}

theorem addBlock_tree (h : g.Hosts ts) {settings : RenderSettings} {os : List Outline} {ss : List Script}
    (hs : Outline.Says os ss) {layout : Layout} {mark : String} {depth row : Nat} {handle : Handle} {t : Tree}
    (hplant : Outline.plant layout mark depth handle row os = [t]) (ht : t ∈ Tree.subtrees ts) {d : Draft}
    (hfresh : Tree.Fresh d.visited [t]) (hfits : Outline.FitsAll settings.maxDepth os) :
    addBlock g settings true d t.node = ⟨(Tree.idsAll [t]).reverse ++ d.visited, d.warnings,
      d.blocks ++ [(Script.writeAll { unit := settings.indent } ss).finish]⟩ := by
  have hnew : d.visited.contains t.node.id = false := by
    obtain ⟨handle, n, cs⟩ := t
    simpa using hfresh.cons.1
  have hsize : Outline.sizeAll os ≤ g.nodes.length := by
    have hlt := Tree.length_lt_of_mem_subtrees ht
    have hlength := Outline.length_plant layout mark depth handle row os
    rw [hplant] at hlength
    obtain ⟨handle, n, cs⟩ := t
    simp only [Tree.nodesAll, Tree.nodes, List.length_append, List.length_cons, List.length_nil,
      Tree.children_mk] at hlength hlt
    rw [h.nodes]
    omega
  have hwalk := (h.writes settings hs).1 layout mark depth handle row 0 g.nodes.length
    { visited := d.visited, warnings := d.warnings, out := { unit := settings.indent } }
    (by rw [hplant]; exact List.forall_mem_singleton.mpr ht) (by rwa [hplant]) hsize hfits
  rw [hplant, List.foldl_cons, List.foldl_nil] at hwalk
  simp only [addBlock, hnew, Bool.false_eq_true, if_false, if_true, hwalk]
  rfl

/-- The trees of an outline are added as blocks, one for each paragraph of its script. -/
def Adds (g : Graph) (settings : RenderSettings) (ts : List Tree) (os : List Outline) (ss : List Script) : Prop :=
  ∀ layout mark depth handle row d, (∀ t ∈ Outline.plant layout mark depth handle row os, t ∈ Tree.subtrees ts) →
    Tree.Fresh d.visited (Outline.plant layout mark depth handle row os) → Outline.FitsAll settings.maxDepth os →
    (Outline.plant layout mark depth handle row os).foldl (fun d t => addBlock g settings true d t.node) d =
      ⟨(Tree.idsAll (Outline.plant layout mark depth handle row os)).reverse ++ d.visited, d.warnings,
        d.blocks ++ (Script.paragraphs ss).map fun p => (Script.writeAll { unit := settings.indent } p).finish⟩

theorem adds_cons (h : g.Hosts ts) {settings : RenderSettings} {o : Outline} {os : List Outline} {s : Script}
    {ss : List Script} (hone : Outline.Says [o] [s]) (hos : Adds g settings ts os ss)
    (hplant : ∀ layout mark depth handle row, ∃ t row', Outline.plant layout mark depth handle row [o] = [t] ∧
      Outline.plant layout mark depth handle row (o :: os) = t :: Outline.plant layout mark depth handle row' os)
    (hp : Script.paragraphs (s :: ss) = [s] :: Script.paragraphs ss) : Adds g settings ts (o :: os) (s :: ss) := by
  intro layout mark depth handle row d hmem hfresh hfits
  obtain ⟨t, row', hfirst, hall⟩ := hplant layout mark depth handle row
  rw [hall] at hmem hfresh ⊢
  obtain ⟨ht, hmem⟩ := List.forall_mem_cons.mp hmem
  obtain ⟨hnew, hothers⟩ := @Tree.Fresh.append _ [t] _ hfresh
  rw [Outline.FitsAll] at hfits
  rw [List.foldl_cons, addBlock_tree h hone hfirst ht hnew (by simp [Outline.FitsAll, hfits.1]),
    hos layout mark depth handle row' _ hmem hothers hfits.2, hp]
  simp [Tree.idsAll, Tree.nodesAll]

theorem adds_single (h : g.Hosts ts) {settings : RenderSettings} {os : List Outline} {ss : List Script}
    (hs : Outline.Says os ss)
    (hplant : ∀ layout mark depth handle row, ∃ t, Outline.plant layout mark depth handle row os = [t])
    (hp : Script.paragraphs ss = [ss]) : Adds g settings ts os ss := by
  intro layout mark depth handle row d hmem hfresh hfits
  obtain ⟨t, ht⟩ := hplant layout mark depth handle row
  rw [ht] at hmem hfresh ⊢
  rw [List.foldl_cons, List.foldl_nil, hp,
    addBlock_tree h hs ht (List.forall_mem_singleton.mp hmem) hfresh hfits, List.map_singleton]

theorem adds (h : g.Hosts ts) (settings : RenderSettings) {os : List Outline} {ss : List Script}
    (hs : Outline.Says os ss) : Adds g settings ts os ss := by
  induction hs with
  | nil =>
    intro layout mark depth handle row d _ _ _
    simp [Outline.plant, Script.paragraphs, Tree.idsAll, Tree.nodesAll]
  | line hk he hos _ =>
    exact adds_single h (.line hk he hos) (fun _ _ _ _ _ => ⟨_, by rw [Outline.plant]⟩) (by rw [Script.paragraphs])
  | last hk he =>
    exact adds_single h (.last hk he) (fun _ _ _ _ _ => ⟨_, by rw [Outline.plant]⟩) (by rw [Script.paragraphs])
  | block hk he hb _ _ ih =>
    refine adds_cons h (.block hk he hb .nil) ih (fun layout mark depth handle row => ?_) (by simp [Script.paragraphs])
    exact ⟨_, _, by rw [Outline.plant, Outline.plant], by rw [Outline.plant]⟩
  | branch he hcode hcond hc ha _ _ _ ih =>
    refine adds_cons h (.branch he hcode hcond hc ha .nil) ih (fun layout mark depth handle row => ?_)
      (by simp [Script.paragraphs])
    exact ⟨_, _, by rw [Outline.plant, Outline.plant], by rw [Outline.plant]⟩

end Draft

/-- The text of the paragraphs of a script. -/
def Script.blocks (unit : String) (ss : List Script) : List String :=
  (paragraphs ss).map fun p => (writeAll { unit } p).finish

/-- The graph of a program is written as the script of its outline. -/
theorem Draft.blocks_ofProgram {layout : Layout} (hl : layout.Descends) {p : Program} {ss : List Script}
    (hs : Outline.Says (Stmt.outlines p) ss) (settings : RenderSettings)
    (hfits : Outline.FitsAll settings.maxDepth (Stmt.outlines p)) (mark : String) :
    (Draft.ofGraph (Graph.ofProgram layout p mark) settings).blocks = Script.blocks settings.indent ss := by
  have h := Graph.hosts_ofProgram hl p mark
  have hroots :=
    adds h settings hs layout mark 0 .flowOut 0 {} (fun _ => Tree.mem_subtrees_of_mem) ⟨h.nodup, by simp⟩ hfits
  simp only [List.append_nil, List.nil_append] at hroots
  generalize Graph.ofProgram layout p mark = g at h hroots
  generalize Outline.plant layout mark 0 .flowOut 0 (Stmt.outlines p) = ts at h hroots
  have hrest (l : List Node) (hl : ∀ n ∈ l, n.id ∈ Tree.idsAll ts) (d : Draft)
      (hd : d.visited = (Tree.idsAll ts).reverse) :
      l.foldl (addBlock g settings false) d = d := by
    induction l with
    | nil => rfl
    | cons n l ih =>
      obtain ⟨hn, hl⟩ := List.forall_mem_cons.mp hl
      have hseen : d.visited.contains n.id = true := by simpa [hd] using hn
      rw [List.foldl_cons, addBlock, if_pos hseen, ih hl]
  have hinOrder : ∀ n ∈ g.inOrder, n.id ∈ Tree.idsAll ts := fun n hn => h.mem_ids_of_mem_inOrder hn
  rw [ofGraph, h.roots_eq, List.foldl_map, hroots, hrest _ hinOrder _ rfl, Script.blocks]

end ScriptGraph
