import Mathlib.Data.List.Permutation
import ScriptGraph.Proofs.Emissions
import ScriptGraph.Proofs.SyntaxEquality

/-- A rearranged image is the image of a rearrangement. -/
theorem List.Perm.exists_map {α β : Type} {f : α → β} {l : List α} {m : List β} (h : m.Perm (l.map f)) :
    ∃ l' : List α, l'.Perm l ∧ l'.map f = m := by
  induction m generalizing l with
  | nil =>
    have hl : l = [] := by simpa using h.symm.eq_nil
    exact ⟨[], by rw [hl], rfl⟩
  | cons b m ih =>
    obtain ⟨a, ha, rfl⟩ := List.mem_map.mp (h.subset List.mem_cons_self)
    obtain ⟨s, t, rfl⟩ := List.append_of_mem ha
    have hmiddle : (s ++ a :: t).Perm (a :: (s ++ t)) := List.perm_middle
    have hrest : m.Perm ((s ++ t).map f) := (h.trans (hmiddle.map f)).cons_inv
    obtain ⟨l', hl', rfl⟩ := ih hrest
    exact ⟨a :: l', (hl'.cons a).trans hmiddle.symm, rfl⟩

namespace ScriptGraph

namespace Outline

/-- A plain node is written as a line or not at all, a node with a body as a block, and one with two branches as
a conditional. -/
def Emits : Shape → String → Fields → Prop
  | .leaf, kind, data => kind ≠ NodeKind.conditional.tag ∧
    ((∃ text, emission kind data = .line text) ∨ (∃ text, emission kind data = .terminal text) ∨
      emission kind data = .skip)
  | .block, kind, data => kind ≠ NodeKind.conditional.tag ∧ ∃ opener closer, emission kind data = .block opener closer
  | .branch, kind, data => kind = NodeKind.conditional.tag ∧ emission kind data = .conditional ∧
    Node.codeBlock? { id := "", kind, data } = none

theorem emits_block {k : NodeKind} (hk : k ∈ [.function, .whileLoop, .forLoop, .forEach]) {data : Fields}
    (hc : "codeBlock" ∉ data.keys) : Emits .block k.tag data := by
  have hstructural : k ∈ NodeKind.structural := by
    revert k
    decide
  refine ⟨by revert k; decide, ?_⟩
  rw [emission_of_structural hstructural hc]
  simp only [List.mem_cons, List.not_mem_nil, or_false] at hk
  rcases hk with rfl | rfl | rfl | rfl <;> exact ⟨_, _, rfl⟩

theorem emits_ofCall (callee : String) (args : List Expr) (text : String) {body : List Outline}
    (hb : EveryAll Emits body) (hcode : ∀ label, EveryAll Emits
      [.leaf NodeKind.code.tag (Builder.labelled label [("codeBlock", text)])]) :
    EveryAll Emits [ofCall callee args text body] := by
  cases hm : CallMatch.ofCall? callee args with
  | none =>
    rw [ofCall, hm]
    exact hcode callee
  | some m =>
    have he := CallMatch.mem_entries hm
    have hkind := Catalogue.kind_ne_conditional m.entry he
    obtain ⟨-, fs, hfill, hfields⟩ := CallMatch.ofCall?_eq_some_iff.mp hm
    rw [ofCall_of_some hm]
    cases hbody : m.body with
    | none =>
      have hnone : m.node.text? handlerParams = none := by
        refine Node.text?_eq_none fun hmem => ?_
        exact absurd (hfill.isSome_of_params he hfields hmem) (by simp [hbody])
      rw [hbody] at hfill
      simp only [Option.isSome_none, Bool.false_eq_true, if_false, EveryAll, and_true]
      have hline := CallMatch.emission_node hm
      rw [CallText.ofNode_eq_line hfill fun _ _ _ => hnone, Emission.ofCallText] at hline
      exact ⟨hkind, .inl ⟨_, hline⟩⟩
    | some ss =>
      obtain ⟨args₁, args₂, es₁, es₂, fs₁, fs₂, params, optional, names, hargs, -, hfs, h₁, h₂, -⟩ := hfill.split hbody
      have hparams : m.node.text? handlerParams = some (", ".intercalate names) := by
        refine CallMatch.text?_node hm ?_
        rw [hfields, hfs]
        simp
      simp only [Option.isSome_some, if_true, EveryAll, and_true]
      have hblock := CallMatch.emission_node hm
      rw [CallText.ofNode_eq_block (Catalogue.nodup_args he) hargs h₁ h₂ hparams, Emission.ofCallText] at hblock
      exact ⟨⟨hkind, _, _, hblock⟩, hb⟩

/-- A node that carries a text is written as a line. -/
theorem emits_text {kind : NodeKind} (hk : kind ∈ [.declaration, .code]) (label text : String)
    (fields : List (String × String)) (hn : ("label" :: (fields ++ [("codeBlock", text)]).map Prod.fst).Nodup) :
    EveryAll Emits [.leaf kind.tag (Builder.labelled label (fields ++ [("codeBlock", text)]))] := by
  have hdata := Builder.labelled_eq label hn
  have hnodup : (Builder.labelled label (fields ++ [("codeBlock", text)])).keys.Nodup := by
    rw [hdata]
    simpa [Fields.keys, Function.comp_def] using hn
  have hmem : ("codeBlock", .string text) ∈ Builder.labelled label (fields ++ [("codeBlock", text)]) := by
    rw [hdata]
    simp
  simp only [EveryAll, and_true]
  refine ⟨by revert kind; decide, ?_⟩
  generalize Builder.labelled label (fields ++ [("codeBlock", text)]) = data at hnodup hmem
  cases ht : Text.isBlankText text with
  | false => exact .inl ⟨text, emission_of_codeBlock hnodup hmem ht⟩
  | true =>
    have htag : NodeKind.ofTag? kind.tag = some kind := by
      revert kind
      decide +kernel
    rw [emission, Emission.ofNode, codeBlock?_of_mem hnodup hmem, if_pos ht, htag]
    simp only [List.mem_cons, List.not_mem_nil, or_false] at hk
    rcases hk with rfl | rfl
    · exact .inl ⟨_, rfl⟩
    · exact .inr (.inr rfl)

/-- Every node of a program is written in the way of its shape. -/
theorem emits_outlines (ss : List Stmt) : EveryAll Emits (Stmt.outlines ss) := by
  have hcode (text label : String) : EveryAll Emits
      [.leaf NodeKind.code.tag (Builder.labelled label [("codeBlock", text)])] :=
    emits_text (by decide) label text [] (by simp)
  have hblock {k : NodeKind} (hk : k ∈ [.function, .whileLoop, .forLoop, .forEach]) {data : Fields}
      (hc : "codeBlock" ∉ data.keys) {body : List Outline} (hb : EveryAll Emits body) :
      EveryAll Emits [.block k.tag data body] := by
    simp only [EveryAll, and_true]
    exact ⟨emits_block hk hc, hb⟩
  induction ss using Stmt.bodyInduction with
  | nil =>
    rw [Stmt.outlines]
    simp only [EveryAll]
  | cons line action ss hb hss =>
    rw [Stmt.outlines]
    refine everyAll_cons.mpr ⟨?_, hss⟩
    rw [Stmt.outline]
    cases action with
    | declare name value =>
      rw [Action.outline]
      exact emits_text (by decide) _ _ [("varName", _), ("varValue", _)] (by simp)
    | assign target op value =>
      rw [Action.outline]
      exact emits_text (by decide) _ _ [("varName", _), ("varValue", _)] (by simp)
    | define name params body isLocal isMethod =>
      rw [Action.outline]
      refine hblock (by decide) ?_ (hb body (by simp [Action.bodies]))
      rw [Builder.functionData_eq]
      simp
    | conditional condition consequent alternate =>
      rw [Action.outline, Stmt.alternateOutlines_eq]
      simp only [EveryAll, and_true]
      refine ⟨⟨rfl, ?_, ?_⟩, hb _ (by simp [Action.bodies]), hb _ (by simp [Action.bodies])⟩
      · rw [emission_of_structural (by decide) (by simp [Builder.titled, Builder.labelled_eq])]
        rfl
      · exact Node.filled?_eq_none (by simp [Builder.titled, Builder.labelled_eq])
    | whileLoop condition body =>
      rw [Action.outline]
      exact hblock (by decide) (by simp [Builder.titled, Builder.labelled_eq]) (hb body (by simp [Action.bodies]))
    | forLoop counter first last step body =>
      rw [Action.outline]
      refine hblock (by decide) ?_ (hb body (by simp [Action.bodies]))
      cases step <;> simp [Builder.forData, Builder.titled, Builder.labelled_eq]
    | forEach names iterable body =>
      rw [Action.outline]
      exact hblock (by decide) (by simp [Builder.titled, Builder.labelled_eq]) (hb body (by simp [Action.bodies]))
    | giveBack values =>
      rw [Action.outline]
      simp only [EveryAll, and_true]
      refine ⟨by decide, .inr (.inl ?_)⟩
      rw [emission_of_structural (by decide) (by simp [Builder.titled, Builder.labelled_eq]), Emission.ofKind]
      split <;> exact ⟨_, rfl⟩
    | leaveLoop =>
      rw [Action.outline]
      exact hcode _ _
    | evaluate e =>
      rw [Action.outline]
      cases e with
      | call callee args =>
        rw [Expr.outline, Expr.handlerOutlines_eq]
        exact emits_ofCall _ _ _ (hb _ (by simp [Action.bodies])) (hcode _)
      | methodCall object method args =>
        rw [Expr.outline, Expr.handlerOutlines_eq]
        exact emits_ofCall _ _ _ (hb _ (by simp [Action.bodies])) (hcode _)
      | _ =>
        rw [Expr.outline]
        · exact hcode _ _
        all_goals simp

end Outline

namespace Tree

theorem mem_idsAll_cons {id : String} {handle : Handle} {n : Node} {cs ts : List Tree} :
    id ∈ idsAll (mk handle n cs :: ts) ↔ id = n.id ∨ id ∈ idsAll cs ∨ id ∈ idsAll ts := by
  simp [idsAll, nodesAll, nodes]

theorem mem_idsAll_append {id : String} {ts us : List Tree} :
    id ∈ idsAll (ts ++ us) ↔ id ∈ idsAll ts ∨ id ∈ idsAll us := by
  simp [idsAll, nodesAll_append]

theorem idsAll_perm {ts us : List Tree} (h : ts.Perm us) : (idsAll ts).Perm (idsAll us) := by
  rw [idsAll, idsAll, nodesAll_eq_flatMap, nodesAll_eq_flatMap]
  exact (h.flatMap_right _).map _

theorem length_nodesAll_le {t : Tree} {ts : List Tree} (h : t ∈ ts) :
    (nodesAll [t]).length ≤ (nodesAll ts).length := by
  obtain ⟨us, vs, rfl⟩ := List.append_of_mem h
  rw [show us ++ t :: vs = us ++ ([t] ++ vs) from rfl, nodesAll_append, nodesAll_append, List.length_append,
    List.length_append]
  omega

theorem Fresh.perm {seen : List String} {ts us : List Tree} (h : Fresh seen ts) (hp : us.Perm ts) : Fresh seen us := by
  have hids := idsAll_perm hp
  exact ⟨hids.nodup_iff.mpr h.1, fun id hid => h.2 id (hids.subset hid)⟩

theorem Fresh.congr {seen seen' : List String} {ts : List Tree} (h : Fresh seen ts)
    (hs : ∀ id, id ∈ seen' → id ∈ seen) : Fresh seen' ts :=
  ⟨h.1, fun id hid hseen => h.2 id hid (hs id hseen)⟩

end Tree

/-- What a walk has met and what it has to warn of. -/
structure Record where
  visited : List String
  warnings : List Warning

def Walk.record (w : Walk) : Record := ⟨w.visited, w.warnings⟩

def Draft.record (d : Draft) : Record := ⟨d.visited, d.warnings⟩

/-- From the first record to the second, the trees were met, in whatever order, without a warning. -/
structure Record.Covers (r r' : Record) (ts : List Tree) : Prop where
  warnings : r'.warnings = r.warnings
  visited : ∀ id, id ∈ r'.visited ↔ id ∈ Tree.idsAll ts ∨ id ∈ r.visited

namespace Record.Covers

open ScriptGraph.Tree

variable {r r' r'' : Record} {ts us : List Tree}

theorem nil (r : Record) : r.Covers r [] := ⟨rfl, by simp [idsAll, nodesAll]⟩

theorem append (h : r.Covers r' ts) (h' : r'.Covers r'' us) : r.Covers r'' (ts ++ us) := by
  refine ⟨h'.warnings.trans h.warnings, fun id => ?_⟩
  rw [h'.visited, h.visited, mem_idsAll_append, or_left_comm, or_assoc]

theorem perm (h : r.Covers r' ts) (hp : ts.Perm us) : r.Covers r' us :=
  ⟨h.warnings, fun id => by rw [h.visited, (idsAll_perm hp).mem_iff]⟩

/-- The root of a tree is met before the trees below it. -/
theorem node {handle : Handle} {n : Node} {cs : List Tree} (h : Covers ⟨n.id :: r.visited, r.warnings⟩ r' cs) :
    r.Covers r' [Tree.mk handle n cs] := by
  refine ⟨h.warnings, fun id => ?_⟩
  rw [h.visited, mem_idsAll_cons, List.mem_cons, or_left_comm, or_assoc, or_assoc]
  simp [idsAll, nodesAll]

/-- What is new stays so while other trees are met. -/
theorem fresh (h : r.Covers r' ts) (hf : Fresh r.visited (ts ++ us)) : Fresh r'.visited us := by
  refine hf.append.2.congr fun id hid => ?_
  rw [h.visited] at hid
  simpa using hid

theorem foldl {σ : Type} (record : σ → Record) (step : σ → Tree → σ)
    (hstep : ∀ t ∈ ts, ∀ s, Fresh (record s).visited [t] → (record s).Covers (record (step s t)) [t]) :
    ∀ s, Fresh (record s).visited ts → (record s).Covers (record (ts.foldl step s)) ts := by
  induction ts with
  | nil => exact fun s _ => nil (record s)
  | cons t ts ih =>
    intro s hf
    obtain ⟨hhead, htail⟩ := List.forall_mem_cons.mp hstep
    have hfirst : (record s).Covers (record (step s t)) [t] := hhead s (@Fresh.append _ [t] ts hf).1
    exact hfirst.append (ih htail (step s t) (hfirst.fresh hf))

end Record.Covers

namespace Graph.Grows

open ScriptGraph.Tree

variable {g : Graph} {ts : List Tree}

/-- The trees below a node are met, in the order that the layout gives them. -/
theorem covers_childNodes (h : g.Grows ts) {t : Tree} (ht : t ∈ subtrees ts) {handle : Option Handle} {us : List Tree}
    (hus : (t.children.filter fun c => handle.all (· == c.handle)) = us) {f : Walk → Node → Walk}
    (hf : ∀ c ∈ us, ∀ w : Walk, Fresh w.visited [c] → w.record.Covers (f w c.node).record [c]) (w : Walk)
    (hw : Fresh w.visited us) : w.record.Covers ((g.childNodes t.node.id handle).foldl f w).record us := by
  obtain ⟨vs, hperm, hnodes⟩ := (h.childNodes_perm ht handle).exists_map
  rw [hus] at hperm
  rw [← hnodes, List.foldl_map]
  refine Record.Covers.perm ?_ hperm
  exact Record.Covers.foldl Walk.record (fun w t => f w t.node)
    (fun c hc => hf c (hperm.subset hc)) w (hw.perm hperm)

theorem foldl_skipNode (g : Graph) (fuel : Nat) (w : Walk) (ns : List Node) (seen : List String) :
    { w with visited := ns.foldl (g.skipNode fuel) seen } =
      ns.foldl (fun w n => { w with visited := g.skipNode fuel w.visited n }) { w with visited := seen } := by
  induction ns generalizing seen with
  | nil => rfl
  | cons n ns ih => exact ih _

/-- Skipping a tree meets all of it. -/
theorem covers_skipNode (h : g.Grows ts) (us : List Tree) : ∀ t ∈ us, t ∈ subtrees ts → ∀ fuel (w : Walk),
    (nodesAll [t]).length ≤ fuel → Fresh w.visited [t] →
    w.record.Covers { w with visited := g.skipNode fuel w.visited t.node }.record [t] := by
  induction us using listInduction with
  | nil => simp
  | cons handle n cs us ihc ihu =>
    refine List.forall_mem_cons.mpr ⟨?_, ihu⟩
    intro ht fuel w hfuel hfresh
    simp only [nodesAll, Tree.nodes, List.append_nil, List.length_cons] at hfuel
    obtain ⟨fuel, rfl⟩ : ∃ m, fuel = m + 1 := ⟨fuel - 1, by omega⟩
    obtain ⟨hnew, hchildren, -⟩ := hfresh.cons
    refine .node ?_
    rw [node_mk, skipNode, if_neg (by simpa using hnew), foldl_skipNode]
    refine h.covers_childNodes ht (by simp) (fun c hc w hw => ?_) { w with visited := n.id :: w.visited } hchildren
    have hsize := length_nodesAll_le hc
    exact ihc c hc (mem_subtrees_of_mem_children ht hc) fuel w (by omega) hw

theorem covers_skipAll (h : g.Grows ts) {t : Tree} (ht : t ∈ subtrees ts) (w : Walk) (hw : Fresh w.visited t.children) :
    w.record.Covers (g.skipAll w (g.childNodes t.node.id)).record t.children := by
  rw [skipAll, foldl_skipNode]
  refine h.covers_childNodes ht (by simp) (fun c hc w hw => ?_) { w with visited := w.visited } hw
  have hsize := length_nodesAll_le hc
  have hlt := length_lt_of_mem_subtrees ht
  rw [← h.nodes] at hlt
  exact h.covers_skipNode t.children c hc (mem_subtrees_of_mem_children ht hc) _ w (by omega) hw

/-- A walk that starts at the tree with `d` blocks open meets it without a warning. -/
def Quiet (g : Graph) (settings : RenderSettings) (d : Nat) (t : Tree) : Prop :=
  ∀ fuel (w : Walk), (nodesAll [t]).length ≤ fuel → Fresh w.visited [t] →
    w.record.Covers (g.visit settings fuel d w t.node).record [t]

theorem covers_quiet (h : g.Grows ts) {settings : RenderSettings} {d : Nat} (fuel : Nat) {t : Tree}
    (ht : t ∈ subtrees ts)
    {handle : Option Handle} {us : List Tree} (hus : (t.children.filter fun c => handle.all (· == c.handle)) = us)
    (hq : ∀ c ∈ us, Quiet g settings d c) (hfuel : (nodesAll us).length ≤ fuel) (w : Walk) (hw : Fresh w.visited us) :
    w.record.Covers ((g.childNodes t.node.id handle).foldl (g.visit settings fuel d) w).record us := by
  refine h.covers_childNodes ht hus (fun c hc w hw => ?_) w hw
  have hsize := length_nodesAll_le hc
  exact hq c hc fuel w (by omega) hw

variable {settings : RenderSettings} {d : Nat}

/-- A plain node is passed, and what follows it is walked or skipped. -/
theorem quiet_leaf (h : g.Grows ts) {handle : Handle} {n : Node} {cs : List Tree}
    (ht : Tree.mk handle n cs ∈ subtrees ts)
    (he : Outline.Emits .leaf n.kind n.data) (hq : ∀ c ∈ cs, Quiet g settings d c) :
    Quiet g settings d (.mk handle n cs) := by
  intro fuel w hfuel hfresh
  simp only [nodesAll, Tree.nodes, List.append_nil, List.length_cons] at hfuel
  obtain ⟨fuel, rfl⟩ : ∃ m, fuel = m + 1 := ⟨fuel - 1, by omega⟩
  obtain ⟨hnew, hchildren, -⟩ := hfresh.cons
  refine .node ?_
  rw [node_mk, visit, if_neg (by simpa using hnew), emission_eq]
  rcases he.2 with ⟨text, he⟩ | ⟨text, he⟩ | he
  · rw [he]
    exact h.covers_quiet fuel ht (by simp) hq (by omega) ((w.mark n.id).write text) hchildren
  · rw [he]
    exact h.covers_skipAll ht ((w.mark n.id).write text) hchildren
  · rw [he]
    exact h.covers_quiet fuel ht (by simp) hq (by omega) (w.mark n.id) hchildren

theorem quiet_block (h : g.Grows ts) {handle : Handle} {n : Node} {cs : List Tree}
    (ht : Tree.mk handle n cs ∈ subtrees ts)
    (he : Outline.Emits .block n.kind n.data) (hd : d < settings.maxDepth) (hq : ∀ c ∈ cs, Quiet g settings (d + 1) c) :
    Quiet g settings d (.mk handle n cs) := by
  intro fuel w hfuel hfresh
  simp only [nodesAll, Tree.nodes, List.append_nil, List.length_cons] at hfuel
  obtain ⟨fuel, rfl⟩ : ∃ m, fuel = m + 1 := ⟨fuel - 1, by omega⟩
  obtain ⟨hnew, hchildren, -⟩ := hfresh.cons
  obtain ⟨-, opener, closer, he⟩ := he
  refine .node ?_
  rw [node_mk, visit, if_neg (by simpa using hnew), emission_eq, he]
  simp only [if_pos hd]
  exact h.covers_quiet fuel ht (by simp) hq (by omega)
    { w.mark n.id with out := (w.mark n.id).out.openBlock opener closer } hchildren

/-- What hangs on a conditional by each of its handles. -/
theorem filter_branch (layout : Layout) (mark : String) (depth row below : Nat) (consequent alternate : List Outline)
    (via : Handle) :
    (Outline.plant layout mark depth .onTrue row consequent ++
        Outline.plant layout mark depth .onFalse below alternate).filter
        (fun c => (some via).all (· == c.handle)) =
      match via with
      | .onTrue => Outline.plant layout mark depth .onTrue row consequent
      | .onFalse => Outline.plant layout mark depth .onFalse below alternate
      | .flowOut => [] := by
  rw [List.filter_append, Outline.filter_plant, Outline.filter_plant]
  cases via <;> simp

/-- The first branch of a conditional, and nothing behind the conditional. -/
theorem branchBody_branch (h : g.Grows ts) {handle : Handle} {n : Node} {layout : Layout} {mark : String}
    {depth row below : Nat} {consequent alternate : List Outline}
    (ht : Tree.mk handle n (Outline.plant layout mark depth .onTrue row consequent ++
      Outline.plant layout mark depth .onFalse below alternate) ∈ subtrees ts) :
    g.childNodes n.id (some .flowOut) = [] ∧ g.branchBody n.id = (g.childNodes n.id (some .onTrue), []) := by
  have hflow : g.childNodes n.id (some .flowOut) = [] := by
    have hperm := h.childNodes_perm ht (some .flowOut)
    rw [children_mk, filter_branch] at hperm
    exact hperm.eq_nil
  exact ⟨hflow, Hosts.branchBody_eq rfl hflow⟩

/-- The trees of the outline can be met from the depth `d` on. -/
def QuietAll (g : Graph) (settings : RenderSettings) (ts : List Tree) (os : List Outline) : Prop :=
  ∀ layout mark depth handle row d, (∀ t ∈ Outline.plant layout mark depth handle row os, t ∈ subtrees ts) →
    Outline.FitsAll (settings.maxDepth - d) os → Outline.EveryAll Outline.Emits os →
    ∀ t ∈ Outline.plant layout mark depth handle row os, Quiet g settings d t

/-- The outline is all that follows by the last handle of a conditional, and its trees are met. -/
def QuietAlternate (g : Graph) (settings : RenderSettings) (ts : List Tree) (os : List Outline) : Prop :=
  ∀ layout mark depth row d fuel loops (w : Walk), ∀ t ∈ subtrees ts,
    t.children.filter (fun c => (some Handle.onFalse).all (· == c.handle)) =
      Outline.plant layout mark depth .onFalse row os →
    Fresh w.visited (Outline.plant layout mark depth .onFalse row os) → Outline.sizeAll os ≤ fuel →
    Outline.sizeAll os < loops → Outline.FitsAlternate (settings.maxDepth - d) os →
    Outline.EveryAll Outline.Emits os →
    w.record.Covers (g.alternates (g.visit settings fuel (d + 1)) loops w t.node.id).record
      (Outline.plant layout mark depth .onFalse row os)

theorem quietAlternate_nil (h : g.Grows ts) : QuietAlternate g settings ts [] := by
  intro layout mark depth row d fuel loops w t ht hfilter _ _ hloops _ _
  obtain ⟨loops, rfl⟩ : ∃ m, loops = m + 1 := ⟨loops - 1, by omega⟩
  have hnone : g.childNodes t.node.id (some .onFalse) = [] := by
    have hperm := h.childNodes_perm ht (some .onFalse)
    rw [hfilter, Outline.plant] at hperm
    exact hperm.eq_nil
  rw [alternates, hnone, Outline.plant]
  exact .nil _

/-- A tree that is all of an outline, unless the outline is a single branching, has no conditional on top. -/
theorem kind_of_single {layout : Layout} {mark : String} {depth row : Nat} {handle : Handle} {o : Outline}
    {os : List Outline} {n : Node}
    (hlone : o.isBranch = true → os ≠ []) (hemits : Outline.EveryAll Outline.Emits (o :: os))
    (hn : ((Outline.plant layout mark depth handle row (o :: os)).map Tree.node).Perm [n]) :
    n.kind ≠ NodeKind.conditional.tag := by
  have hmem := hn.subset
  have hlength := hn.length_eq
  cases o with
  | leaf kind data =>
    simp only [Outline.EveryAll] at hemits
    simp only [Outline.plant, List.map_cons, List.cons_subset, List.mem_singleton] at hmem
    rw [← hmem.1]
    exact hemits.1.1
  | block kind data body =>
    simp only [Outline.EveryAll] at hemits
    simp only [Outline.plant, List.map_cons, List.cons_subset, List.mem_singleton] at hmem
    rw [← hmem.1]
    exact hemits.1.1
  | branch kind data consequent alternate =>
    cases os with
    | nil => exact absurd rfl (hlone rfl)
    | cons o os => cases o <;> simp [Outline.plant] at hlength

/-- Anything but a single conditional is one level further down. -/
theorem quietAlternate_else (h : g.Grows ts) {o : Outline} {os : List Outline} (hq : QuietAll g settings ts (o :: os))
    (hlone : o.isBranch = true → os ≠ []) : QuietAlternate g settings ts (o :: os) := by
  intro layout mark depth row d fuel loops w t ht hfilter hfresh hfuel hloops hfits hemits
  obtain ⟨loops, rfl⟩ : ∃ m, loops = m + 1 := ⟨loops - 1, by omega⟩
  have hmem : ∀ u ∈ Outline.plant layout mark depth .onFalse row (o :: os), u ∈ subtrees ts := by
    intro u hu
    rw [← hfilter] at hu
    exact mem_subtrees_of_mem_children ht (List.mem_of_mem_filter hu)
  rw [Outline.fitsAlternate_cons hlone, ← Nat.sub_add_eq] at hfits
  have hquiet := hq layout mark depth .onFalse row (d + 1) hmem hfits hemits
  have hcovers (w : Walk) (hw : Fresh w.visited (Outline.plant layout mark depth .onFalse row (o :: os))) :
      w.record.Covers ((g.childNodes t.node.id (some .onFalse)).foldl (g.visit settings fuel (d + 1)) w).record
        (Outline.plant layout mark depth .onFalse row (o :: os)) :=
    h.covers_quiet fuel ht hfilter hquiet (by rwa [Outline.length_plant]) w hw
  have hcond : ∀ first rest, g.childNodes t.node.id (some .onFalse) = first :: rest →
      (rest.isEmpty && g.isElseif w first) = false := by
    intro first rest hc
    have hperm := h.childNodes_perm ht (some .onFalse)
    rw [hc, hfilter] at hperm
    cases rest with
    | cons second rest => rfl
    | nil =>
      have hkind := kind_of_single hlone hemits hperm.symm
      simp [isElseif, hkind]
  have hw := hcovers { w with out := w.out.reopen "else" } hfresh
  rw [alternates]
  cases hc : g.childNodes t.node.id (some .onFalse) with
  | nil =>
    rw [hc] at hw
    exact hw
  | cons first rest =>
    rw [hc] at hw
    simp only [hcond first rest hc, Bool.false_eq_true, if_false]
    exact hw

theorem isElseif_branch (h : g.Grows ts) {handle : Handle} {n : Node} {layout : Layout} {mark : String}
    {depth row below : Nat} {consequent alternate : List Outline}
    (ht : Tree.mk handle n (Outline.plant layout mark depth .onTrue row consequent ++
      Outline.plant layout mark depth .onFalse below alternate) ∈ subtrees ts)
    (he : Outline.Emits .branch n.kind n.data) {w : Walk} (hnew : n.id ∉ w.visited) : g.isElseif w n = true := by
  have hcode : n.codeBlock? = none := he.2.2
  have hseen : w.visited.contains n.id = false := by simpa using hnew
  simp only [isElseif, hcode, hseen, (h.branchBody_branch ht).1, he.1]
  rfl

/-- A single conditional goes on at the same level. -/
theorem quietAlternate_elseif (h : g.Grows ts) {kind : String} {data : Fields} {consequent alternate : List Outline}
    (ihc : QuietAll g settings ts consequent) (iha : QuietAlternate g settings ts alternate) :
    QuietAlternate g settings ts [.branch kind data consequent alternate] := by
  intro layout mark depth row d fuel loops w t ht hfilter hfresh hfuel hloops hfits hemits
  simp only [Outline.sizeAll, Outline.size] at hfuel hloops
  obtain ⟨loops, rfl⟩ : ∃ m, loops = m + 1 := ⟨loops - 1, by omega⟩
  simp only [Outline.FitsAlternate] at hfits
  simp only [Outline.EveryAll, and_true] at hemits
  simp only [Outline.plant] at hfilter hfresh ⊢
  have hroot := mem_subtrees_of_mem_children ht (List.mem_of_mem_filter (hfilter ▸ List.mem_singleton_self _))
  have hsingle : g.childNodes t.node.id (some .onFalse) = [Outline.nodeAt layout mark depth row kind data] := by
    have hperm := h.childNodes_perm ht (some .onFalse)
    rw [hfilter] at hperm
    exact List.perm_singleton.mp hperm
  obtain ⟨hnew, hchildren, -⟩ := hfresh.cons
  obtain ⟨hfirst, -⟩ := hchildren.append
  have helseif := h.isElseif_branch hroot hemits.1 hnew
  rw [alternates, hsingle]
  simp only [List.isEmpty_nil, helseif, Bool.and_self, if_true, (h.branchBody_branch hroot).2]
  have hbelow : ∀ u ∈ Outline.plant layout mark (depth + 1) .onTrue (row + 1) consequent, u ∈ subtrees ts :=
    fun u hu => mem_subtrees_of_mem_children hroot (List.mem_append_left _ hu)
  have hquiet := ihc layout mark (depth + 1) .onTrue (row + 1) (d + 1) hbelow (by rw [Nat.sub_add_eq]; exact hfits.1)
    hemits.2.1
  have hthen := h.covers_quiet fuel hroot (filter_branch _ _ _ _ _ _ _ .onTrue) hquiet
    (by rw [Outline.length_plant]; omega)
    { w.mark (Outline.rowId mark row) with
      out := w.out.reopen ("elseif " ++ conditionText (Outline.nodeAt layout mark depth row kind data) ++
        " then") } hfirst
  have helse := iha layout mark (depth + 1) (row + 1 + Outline.sizeAll consequent) d fuel loops _ _ hroot
    (filter_branch ..) (hthen.fresh hchildren) (by omega) (by omega) hfits.2 hemits.2.2
  exact .node (hthen.append helse)

/-- A conditional is met with both of its branches. -/
theorem quiet_branch (h : g.Grows ts) {handle : Handle} {n : Node} {layout : Layout} {mark : String}
    {depth row below : Nat} {consequent alternate : List Outline}
    (ht : Tree.mk handle n (Outline.plant layout mark depth .onTrue row consequent ++
      Outline.plant layout mark depth .onFalse below alternate) ∈ subtrees ts)
    (he : Outline.Emits .branch n.kind n.data) (hd : d < settings.maxDepth)
    (hq : ∀ c ∈ Outline.plant layout mark depth .onTrue row consequent, Quiet g settings (d + 1) c)
    (ha : QuietAlternate g settings ts alternate) (hfits : Outline.FitsAlternate (settings.maxDepth - d) alternate)
    (hemits : Outline.EveryAll Outline.Emits alternate) :
    Quiet g settings d (.mk handle n (Outline.plant layout mark depth .onTrue row consequent ++
      Outline.plant layout mark depth .onFalse below alternate)) := by
  intro fuel w hfuel hfresh
  simp only [nodesAll, Tree.nodes, nodesAll_append, List.append_nil, List.length_cons, List.length_append,
    Outline.length_plant] at hfuel
  obtain ⟨fuel, rfl⟩ : ∃ m, fuel = m + 1 := ⟨fuel - 1, by omega⟩
  obtain ⟨hnew, hchildren, -⟩ := hfresh.cons
  obtain ⟨hfirst, -⟩ := hchildren.append
  have hloops : Outline.sizeAll alternate < g.nodes.length + 1 := by
    have hlt := length_lt_of_mem_subtrees ht
    simp only [children_mk, nodesAll_append, List.length_append, Outline.length_plant] at hlt
    rw [h.nodes]
    omega
  have hthen := h.covers_quiet fuel ht (filter_branch _ _ _ _ _ _ _ .onTrue) hq
    (by rw [Outline.length_plant]; omega)
    { w.mark n.id with out := w.out.openBlock ("if " ++ conditionText n ++ " then") "end" } hfirst
  have helse := ha layout mark depth below d fuel (g.nodes.length + 1) _ _ ht (filter_branch ..) (hthen.fresh hchildren)
    (by omega) hloops hfits hemits
  refine .node ?_
  rw [node_mk, visit, if_neg (by simpa using hnew), emission_eq, he.2.1]
  simp only [if_pos hd, (h.branchBody_branch ht).2, List.foldl_nil]
  exact hthen.append helse

/-- The trees of every outline that fits are met without a warning. -/
theorem quiet (h : g.Grows ts) (settings : RenderSettings) (os : List Outline) :
    QuietAll g settings ts os ∧ QuietAlternate g settings ts os := by
  induction os using Outline.listInduction with
  | nil =>
    refine ⟨?_, h.quietAlternate_nil⟩
    intro layout mark depth handle row d _ _ _ t ht
    simp [Outline.plant] at ht
  | leaf kind data os ih =>
    have hall : QuietAll g settings ts (.leaf kind data :: os) := by
      intro layout mark depth handle row d hmem hfits hemits
      simp only [Outline.plant, List.forall_mem_singleton] at hmem ⊢
      simp only [Outline.FitsAll, Outline.EveryAll] at hfits hemits
      exact h.quiet_leaf hmem hemits.1
        (ih.1 layout mark depth .flowOut (row + 1) d (fun u => mem_subtrees_of_mem_children hmem) hfits.2 hemits.2)
    exact ⟨hall, h.quietAlternate_else hall (by simp [Outline.isBranch])⟩
  | block kind data body os ihb iho =>
    have hall : QuietAll g settings ts (.block kind data body :: os) := by
      intro layout mark depth handle row d hmem hfits hemits
      simp only [Outline.plant, List.forall_mem_cons] at hmem ⊢
      simp only [Outline.FitsAll, Outline.Fits, Outline.EveryAll] at hfits hemits
      refine ⟨h.quiet_block hmem.1 hemits.1 (by omega) ?_, iho.1 layout mark depth handle _ d hmem.2 hfits.2 hemits.2.2⟩
      exact ihb.1 layout mark (depth + 1) .flowOut (row + 1) (d + 1) (fun u => mem_subtrees_of_mem_children hmem.1)
        (by rw [Nat.sub_add_eq]; exact hfits.1.2) hemits.2.1
    exact ⟨hall, h.quietAlternate_else hall (by simp [Outline.isBranch])⟩
  | branch kind data consequent alternate os ihc iha iho =>
    have hall : QuietAll g settings ts (.branch kind data consequent alternate :: os) := by
      intro layout mark depth handle row d hmem hfits hemits
      simp only [Outline.plant, List.forall_mem_cons] at hmem ⊢
      simp only [Outline.FitsAll, Outline.Fits, Outline.EveryAll] at hfits hemits
      refine ⟨?_, iho.1 layout mark depth handle _ d hmem.2 hfits.2 hemits.2.2.2⟩
      have hbelow : ∀ u ∈ Outline.plant layout mark (depth + 1) .onTrue (row + 1) consequent, u ∈ subtrees ts :=
        fun u hu => mem_subtrees_of_mem_children hmem.1 (List.mem_append_left _ hu)
      refine h.quiet_branch hmem.1 hemits.1 (by omega) ?_ iha.2 hfits.1.2.2 hemits.2.2.1
      exact ihc.1 layout mark (depth + 1) .onTrue (row + 1) (d + 1) hbelow (by rw [Nat.sub_add_eq]; exact hfits.1.2.1)
        hemits.2.1
    refine ⟨hall, ?_⟩
    cases os with
    | nil => exact h.quietAlternate_elseif ihc.1 iha.2
    | cons o os => exact h.quietAlternate_else hall (by simp)

end Graph.Grows

namespace Draft

variable {g : Graph} {ts : List Tree} {settings : RenderSettings}

theorem covers_addBlock {t : Tree} (hq : Graph.Grows.Quiet g settings 0 t)
    (hsize : (Tree.nodesAll [t]).length ≤ g.nodes.length) (d : Draft) (hd : Tree.Fresh d.visited [t]) :
    d.record.Covers (addBlock g settings true d t.node).record [t] := by
  have hnew : d.visited.contains t.node.id = false := by
    obtain ⟨handle, n, cs⟩ := t
    simpa using hd.cons.1
  have hvisit := hq g.nodes.length { visited := d.visited, warnings := d.warnings, out := { unit := settings.indent } }
    hsize hd
  simp only [addBlock, hnew, Bool.false_eq_true, if_false, if_true]
  exact hvisit

/-- Where every tree can be met, no root is left out and nothing is warned of. -/
theorem warnings_eq_nil (h : g.Grows ts) (hq : ∀ t ∈ ts, Graph.Grows.Quiet g settings 0 t) :
    (ofGraph g settings).warnings = [] := by
  obtain ⟨us, hperm, hnodes⟩ := h.roots_perm.exists_map
  have hroots : Record.Covers (record {}) (g.roots.foldl (addBlock g settings true) {}).record us := by
    rw [← hnodes, List.foldl_map]
    refine Record.Covers.foldl record (fun d t => addBlock g settings true d t.node) ?_ {} ?_
    · intro t ht d hd
      have hmem := hperm.subset ht
      refine covers_addBlock (hq t hmem) ?_ d hd
      rw [h.nodes]
      exact Tree.length_nodesAll_le hmem
    · exact Tree.Fresh.perm ⟨h.nodup, by simp [record]⟩ hperm
  -- the second pass finds all nodes done
  have hrest (ns : List Node) (hns : ∀ n ∈ ns, n.id ∈ Tree.idsAll ts) (d : Draft)
      (hd : ∀ id ∈ Tree.idsAll ts, id ∈ d.visited) : ns.foldl (addBlock g settings false) d = d := by
    induction ns with
    | nil => rfl
    | cons n ns ih =>
      obtain ⟨hn, hns⟩ := List.forall_mem_cons.mp hns
      have hseen : d.visited.contains n.id = true := by simpa using hd n.id hn
      rw [List.foldl_cons, addBlock, if_pos hseen, ih hns]
  have hvisited : ∀ id ∈ Tree.idsAll ts, id ∈ (g.roots.foldl (addBlock g settings true) {}).visited := by
    intro id hid
    have hcovered := (hroots.visited id).mpr (.inl ((Tree.idsAll_perm hperm).mem_iff.mpr hid))
    exact hcovered
  rw [ofGraph, hrest g.inOrder (fun n hn => h.mem_ids_of_mem_inOrder hn) _ hvisited]
  exact hroots.warnings

end Draft

/-- Programs whose blocks fit are rendered without a warning, wherever their nodes lie. -/
theorem Rendered.warnings_eq_nil_of_fits {p : Program} {settings : RenderSettings}
    (h : Outline.FitsAll settings.maxDepth (Stmt.outlines p)) (layout : Layout) (mark header : String) :
    (ofGraph settings (Graph.ofProgram layout p mark) header).warnings = [] := by
  have hgrows := Graph.grows_ofProgram layout p mark
  have hquiet := (hgrows.quiet settings (Stmt.outlines p)).1 layout mark 0 .flowOut 0 0
    (fun _ => Tree.mem_subtrees_of_mem) h (Outline.emits_outlines p)
  exact Draft.warnings_eq_nil hgrows hquiet

/-- What either parser reads from a token list is rendered without a warning, as long as the renderer allows the
depth that the parser allows. -/
theorem Rendered.warnings_ofProgram {tokens : List Token} {p : Program}
    (h : Program.parse tokens = .ok p ∨ ∃ limit r, Program.parseRecovering tokens limit = .ok r ∧ r.program = p)
    (layout : Layout) {settings : RenderSettings} (hd : maxDepth ≤ settings.maxDepth) (mark header : String) :
    (ofGraph settings (Graph.ofProgram layout p mark) header).warnings = [] := by
  have hfits : Outline.FitsAll maxDepth (Stmt.outlines p) := by
    rcases h with h | ⟨limit, r, h, rfl⟩
    · exact Program.fits_of_parse h
    · exact Program.fits_of_parseRecovering h
  exact warnings_eq_nil_of_fits (hfits.mono hd) layout mark header

theorem Rendered.warnings_ofProgram_elseif : ∃ r,
    Program.parseRecovering (tokenize "x = ) end while a do if b then f() elseif c then g() end end") 1 = .ok r ∧
      maxDepth ≤ ({ maxDepth := 100 } : RenderSettings).maxDepth ∧
      (ofGraph { maxDepth := 100 } (Graph.ofProgram (Layout.ofSpacing {}) r.program "-1e9a7c02") "").warnings = [] := by
  have h : Program.parseRecovering (tokenize "x = ) end while a do if b then f() elseif c then g() end end") 1 =
      .ok ⟨[.mk 1 (.whileLoop (.identifier "a") [.mk 1 (.conditional (.identifier "b")
        [.mk 1 (.evaluate (.call (.identifier "f") []))] (some [.mk 1 (.conditional (.identifier "c")
          [.mk 1 (.evaluate (.call (.identifier "g") []))] none)]))])], [.unexpected "')'" 1 5]⟩ := by decide +kernel
  exact ⟨_, h, by decide, warnings_ofProgram (.inr ⟨1, _, h, rfl⟩) _ (by decide) _ _⟩

end ScriptGraph
