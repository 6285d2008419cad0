import ScriptGraph.Graph.Render
import ScriptGraph.Proofs.Sorting

namespace ScriptGraph

/-- What is done about a node when a block is written. -/
inductive Event where
  | text (n : Node) (text : String)
  | silent (n : Node)
  | cut (n : Node) (limit : Nat)
  | stray (n : Node)
  | enter (n : Node) (opener closer : String)
  | turn (n : Option Node) (text : String)
  | leave

namespace Event

/-- The node that is dealt with. A comment on a stray node is followed by the node. -/
def node? : Event → Option Node
  | text n _ | silent n | cut n _ | enter n _ _ => some n
  | turn n _ => n
  | stray _ | leave => none

def warning? : Event → Option Warning
  | cut n limit => some (.depthExceeded n.id limit)
  | stray n => some (.unreachable n.id)
  | _ => none

def write (out : Emitter) : Event → Emitter
  | text _ t => out.write t
  | silent _ => out
  | cut n limit => out.write (Warning.depthExceeded n.id limit).comment
  | stray n => out.write (Warning.unreachable n.id).comment
  | enter _ opener closer => out.openBlock opener closer
  | turn _ t => out.reopen t
  | leave => out.closeBlock

def writeAll (out : Emitter) (es : List Event) : Emitter := es.foldl write out

theorem writeAll_append (out : Emitter) (es es' : List Event) :
    writeAll out (es ++ es') = writeAll (writeAll out es) es' := List.foldl_append

/-- The text of a block that is written by events, with `unit` for the indentation. -/
def blockText (unit : String) (es : List Event) : String := (writeAll { unit } es).finish

/-- The ids of the nodes that are dealt with. -/
def handled (es : List Event) : List String := (es.filterMap node?).map (·.id)

theorem handled_append (es es' : List Event) : handled (es ++ es') = handled es ++ handled es' := by
  simp [handled]

end Event

/-- The walk after some more events, with these ids done. -/
def Walk.after (w : Walk) (es : List Event) (seen : List String) : Walk :=
  ⟨seen, w.warnings ++ es.filterMap Event.warning?, Event.writeAll w.out es⟩

@[simp] theorem Walk.visited_after (w : Walk) (es : List Event) (seen : List String) :
    (w.after es seen).visited = seen :=
  rfl

theorem Walk.after_nil (w : Walk) : w.after [] w.visited = w := by
  simp [after, Event.writeAll]

theorem Walk.after_after (w : Walk) (es es' : List Event) (seen seen' : List String) :
    (w.after es seen).after es' seen' = w.after (es ++ es') seen' := by
  simp [after, Event.writeAll_append]

/-- An event that gives no warning only writes. -/
theorem Walk.after_of_quiet (w : Walk) {e : Event} (h : e.warning? = none) (seen : List String) :
    w.after [e] seen = ⟨seen, w.warnings, e.write w.out⟩ := by
  simp [after, Event.writeAll, h]

theorem Walk.after_leave (w : Walk) : w.after [.leave] w.visited = { w with out := w.out.closeBlock } :=
  w.after_of_quiet rfl w.visited

theorem Walk.after_of_warning (w : Walk) {e : Event} {warning : Warning} (h : e.warning? = some warning)
    (seen : List String) : w.after [e] seen = ⟨seen, w.warnings ++ [warning], e.write w.out⟩ := by
  simp [after, Event.writeAll, h]

/-- Some nodes in their order, a node that is not done, or the alternates of a conditional. -/
inductive Pending where
  | nodes (ns : List Node)
  | node (n : Node)
  | alternates (id : String)

namespace Graph

/-- Passing over nodes and all they lead to turns the marks `seen` into `seen'`. -/
inductive Skips (g : Graph) : List String → List Node → List String → Prop
  | nil {seen} : Skips g seen [] seen
  | done {seen seen' n ns} : n.id ∈ seen → Skips g seen ns seen' → Skips g seen (n :: ns) seen'
  | cons {seen seen₁ seen₂ n ns} : n.id ∉ seen → Skips g (n.id :: seen) (g.childNodes n.id) seen₁ →
    Skips g seen₁ ns seen₂ → Skips g seen (n :: ns) seen₂

/-- Is the node, all of an alternate, written as `elseif`? -/
def Collapses (g : Graph) (seen : List String) (n : Node) : Prop :=
  n.kind = NodeKind.conditional.tag ∧ n.codeBlock? = none ∧ n.id ∉ seen ∧ g.childNodes n.id (some .flowOut) = []

/-- With `depth` blocks open and `seen` marked, what is pending is done by these events, after which `seen'` is
marked. -/
inductive Traces (g : Graph) (limit : Nat) : Nat → List String → Pending → List Event → List String → Prop
  | nil {depth seen} : Traces g limit depth seen (.nodes []) [] seen
  | done {depth seen seen' n ns es} : n.id ∈ seen → Traces g limit depth seen (.nodes ns) es seen' →
    Traces g limit depth seen (.nodes (n :: ns)) es seen'
  | cons {depth seen seen₁ seen₂ n ns es es'} : Traces g limit depth seen (.node n) es seen₁ →
    Traces g limit depth seen₁ (.nodes ns) es' seen₂ → Traces g limit depth seen (.nodes (n :: ns)) (es ++ es') seen₂
  | line {depth seen seen' n text es} : n.id ∉ seen → Emission.ofNode n = .line text →
    Traces g limit depth (n.id :: seen) (.nodes (g.childNodes n.id)) es seen' →
    Traces g limit depth seen (.node n) (.text n text :: es) seen'
  | skip {depth seen seen' n es} : n.id ∉ seen → Emission.ofNode n = .skip →
    Traces g limit depth (n.id :: seen) (.nodes (g.childNodes n.id)) es seen' →
    Traces g limit depth seen (.node n) (.silent n :: es) seen'
  | terminal {depth seen seen' n text} : n.id ∉ seen → Emission.ofNode n = .terminal text →
    g.Skips (n.id :: seen) (g.childNodes n.id) seen' → Traces g limit depth seen (.node n) [.text n text] seen'
  | cut {depth seen seen' n} : n.id ∉ seen → ¬depth < limit →
    (Emission.ofNode n = .conditional ∨ ∃ opener closer, Emission.ofNode n = .block opener closer) →
    g.Skips (n.id :: seen) (g.childNodes n.id) seen' → Traces g limit depth seen (.node n) [.cut n limit] seen'
  | block {depth seen seen' n opener closer es} : n.id ∉ seen → depth < limit →
    Emission.ofNode n = .block opener closer →
    Traces g limit (depth + 1) (n.id :: seen) (.nodes (g.childNodes n.id)) es seen' →
    Traces g limit depth seen (.node n) (.enter n opener closer :: (es ++ [.leave])) seen'
  | conditional {depth seen seen₁ seen₂ seen₃ n es₁ es₂ es₃} : n.id ∉ seen → depth < limit →
    Emission.ofNode n = .conditional →
    Traces g limit (depth + 1) (n.id :: seen) (.nodes (g.branchBody n.id).1) es₁ seen₁ →
    Traces g limit (depth + 1) seen₁ (.alternates n.id) es₂ seen₂ →
    Traces g limit depth seen₂ (.nodes (g.branchBody n.id).2) es₃ seen₃ →
    Traces g limit depth seen (.node n)
      (.enter n ("if " ++ conditionText n ++ " then") "end" :: (es₁ ++ (es₂ ++ .leave :: es₃))) seen₃
  | noAlternate {depth seen id} : g.childNodes id (some .onFalse) = [] →
    Traces g limit depth seen (.alternates id) [] seen
  | elseif {depth seen seen₁ seen₂ id n es₁ es₂} : g.childNodes id (some .onFalse) = [n] → g.Collapses seen n →
    Traces g limit depth (n.id :: seen) (.nodes (g.branchBody n.id).1) es₁ seen₁ →
    Traces g limit depth seen₁ (.alternates n.id) es₂ seen₂ →
    Traces g limit depth seen (.alternates id) (.turn (some n) ("elseif " ++ conditionText n ++ " then") ::
      (es₁ ++ es₂))
      seen₂
  | otherwise {depth seen seen' id n ns es} : g.childNodes id (some .onFalse) = n :: ns →
    ¬(ns = [] ∧ g.Collapses seen n) → Traces g limit depth seen (.nodes (n :: ns)) es seen' →
    Traces g limit depth seen (.alternates id) (.turn none "else" :: es) seen'

/-- Blocks that start with the given nodes, unless these are done. Only a root needs no comment. -/
inductive Drafts (g : Graph) (limit : Nat) : List String → List (Bool × Node) → List (List Event) → List String → Prop
  | nil {seen} : Drafts g limit seen [] [] seen
  | done {seen seen' isRoot n starts blocks} : n.id ∈ seen → Drafts g limit seen starts blocks seen' →
    Drafts g limit seen ((isRoot, n) :: starts) blocks seen'
  | cons {seen seen₁ seen₂ isRoot n starts es blocks} : n.id ∉ seen →
    Traces g limit 0 seen (.nodes [n]) es seen₁ → Drafts g limit seen₁ starts blocks seen₂ →
    Drafts g limit seen ((isRoot, n) :: starts) (((if isRoot then [] else [.stray n]) ++ es) :: blocks) seen₂

/-- The nodes that blocks start with. -/
def starts (g : Graph) : List (Bool × Node) := g.roots.map (true, ·) ++ g.inOrder.map (false, ·)

/-- The graph is written by these events, block by block. -/
def Runs (g : Graph) (limit : Nat) (blocks : List (List Event)) : Prop := ∃ seen, g.Drafts limit [] g.starts blocks seen

theorem mem_nodes_of_mem_childNodes {g : Graph} {id : String} {handle : Option Handle} {n : Node}
    (h : n ∈ g.childNodes id handle) : n ∈ g.nodes := by
  simp only [childNodes, children, List.mem_map, Order.mem_sort, List.mem_filterMap, Option.map_eq_some_iff] at h
  obtain ⟨_, ⟨e, -, m, hm, rfl⟩, rfl⟩ := h
  exact List.mem_of_mem_filter (List.mem_of_getLast? hm)

theorem mem_nodes_of_mem_branchBody {g : Graph} {id : String} {n : Node}
    (h : n ∈ (g.branchBody id).1 ∨ n ∈ (g.branchBody id).2) : n ∈ g.nodes := by
  rw [branchBody] at h
  split at h
  · exact h.elim mem_nodes_of_mem_childNodes (by simp)
  · exact h.elim mem_nodes_of_mem_childNodes mem_nodes_of_mem_childNodes

/-- How many nodes are not done. -/
def unseen (g : Graph) (seen : List String) : Nat := g.nodes.countP fun n => !seen.contains n.id

theorem unseen_le (g : Graph) {seen seen' : List String} (h : seen ⊆ seen') : g.unseen seen' ≤ g.unseen seen := by
  refine List.countP_mono_left fun n _ hn => ?_
  simp only [Bool.not_eq_true', List.contains_eq_mem, decide_eq_false_iff_not] at hn ⊢
  exact fun hmem => hn (h hmem)

theorem unseen_cons_lt {g : Graph} {seen : List String} {n : Node} (hm : n ∈ g.nodes) (hn : n.id ∉ seen) :
    g.unseen (n.id :: seen) < g.unseen seen := by
  have hle (ns : List Node) : ns.countP (fun m => !(n.id :: seen).contains m.id) ≤
      ns.countP fun m => !seen.contains m.id :=
    unseen_le ⟨ns, []⟩ (List.subset_cons_self n.id seen)
  obtain ⟨as, bs, hns⟩ := List.append_of_mem hm
  have has := hle as
  have hbs := hle bs
  rw [unseen, unseen, hns, List.countP_append, List.countP_append, List.countP_cons, List.countP_cons,
    if_neg (by simp), if_pos (by simpa using hn)]
  omega

theorem unseen_le_length (g : Graph) (seen : List String) : g.unseen seen ≤ g.nodes.length := List.countP_le_length

theorem Skips.subset {g : Graph} {seen seen' : List String} {ns : List Node} (h : g.Skips seen ns seen') :
    seen ⊆ seen' := by
  induction h with
  | nil => exact List.Subset.refl _
  | done _ _ ih => exact ih
  | cons _ _ _ ih₁ ih₂ => exact List.subset_of_cons_subset (List.Subset.trans ih₁ ih₂)

theorem Traces.subset {g : Graph} {limit depth : Nat} {seen seen' : List String} {pending : Pending} {es : List Event}
    (h : g.Traces limit depth seen pending es seen') : seen ⊆ seen' := by
  induction h with
  | nil | noAlternate => exact List.Subset.refl _
  | done _ _ ih | otherwise _ _ _ ih => exact ih
  | cons _ _ ih₁ ih₂ => exact List.Subset.trans ih₁ ih₂
  | line _ _ _ ih | skip _ _ _ ih | block _ _ _ _ ih => exact List.subset_of_cons_subset ih
  | terminal _ _ hs | cut _ _ _ hs => exact List.subset_of_cons_subset hs.subset
  | conditional _ _ _ _ _ _ ih₁ ih₂ ih₃ =>
    exact List.subset_of_cons_subset (List.Subset.trans ih₁ (List.Subset.trans ih₂ ih₃))
  | elseif _ _ _ _ ih₁ ih₂ => exact List.subset_of_cons_subset (List.Subset.trans ih₁ ih₂)

theorem skipNode_of_mem (g : Graph) (fuel : Nat) {seen : List String} {n : Node} (h : n.id ∈ seen) :
    g.skipNode fuel seen n = seen := by
  cases fuel with
  | zero => rfl
  | succ fuel => rw [skipNode, if_pos (by simpa using h)]

theorem skips_foldl (g : Graph) (fuel : Nat) : ∀ (ns : List Node) (seen : List String), (∀ n ∈ ns, n ∈ g.nodes) →
    g.unseen seen ≤ fuel → g.Skips seen ns (ns.foldl (g.skipNode fuel) seen) := by
  induction fuel using Nat.strongRecOn with
  | ind fuel ih =>
    intro ns
    induction ns with
    | nil => exact fun _ _ _ => .nil
    | cons n ns ihns =>
      intro seen hns hle
      obtain ⟨hn, hns⟩ := List.forall_mem_cons.mp hns
      rw [List.foldl_cons]
      by_cases hmem : n.id ∈ seen
      · rw [skipNode_of_mem g fuel hmem]
        exact .done hmem (ihns seen hns hle)
      · have hlt := unseen_cons_lt hn hmem
        obtain ⟨fuel, rfl⟩ : ∃ k, fuel = k + 1 := ⟨fuel - 1, by omega⟩
        rw [skipNode, if_neg (by simpa using hmem)]
        have hchildren := ih fuel (by omega) (g.childNodes n.id) (n.id :: seen) (fun _ => mem_nodes_of_mem_childNodes)
          (by omega)
        have hseen := g.unseen_le (List.subset_of_cons_subset hchildren.subset)
        exact .cons hmem hchildren (ihns _ hns (by omega))

theorem skipAll_after (g : Graph) (w : Walk) (es : List Event) (seen : List String) (id : String) :
    ∃ seen', g.Skips seen (g.childNodes id) seen' ∧ g.skipAll (w.after es seen) (g.childNodes id) = w.after es seen' :=
  ⟨_, g.skips_foldl g.nodes.length (g.childNodes id) seen (fun _ => mem_nodes_of_mem_childNodes)
    (g.unseen_le_length seen), rfl⟩

theorem isElseif_iff {g : Graph} {w : Walk} {n : Node} : g.isElseif w n = true ↔ g.Collapses w.visited n := by
  simp [isElseif, Collapses, and_assoc]

section

variable {g : Graph} {f : Walk → Node → Walk} {fuel : Nat} {w : Walk} {id : String} {n : Node} {ns : List Node}

theorem alternates_elseif (h : g.childNodes id (some .onFalse) = [n]) (hc : g.Collapses w.visited n) :
    g.alternates f (fuel + 1) w id = g.alternates f fuel ((g.branchBody n.id).1.foldl f
      (w.after [.turn (some n) ("elseif " ++ conditionText n ++ " then")] (n.id :: w.visited))) n.id := by
  rw [alternates, h, Walk.after_of_quiet w rfl]
  exact if_pos (by simpa using isElseif_iff.mpr hc)

theorem alternates_otherwise (h : g.childNodes id (some .onFalse) = n :: ns)
    (hc : ¬(ns = [] ∧ g.Collapses w.visited n)) :
    g.alternates f (fuel + 1) w id = (n :: ns).foldl f (w.after [.turn none "else"] w.visited) := by
  rw [alternates, h, Walk.after_of_quiet w rfl]
  exact if_neg (by simpa [isElseif_iff] using hc)

end

/-- The function goes through nodes at a depth as the rules say, if no more than `bound` nodes are to be done. -/
def Follows (g : Graph) (limit depth bound : Nat) (f : Walk → Node → Walk) : Prop :=
  ∀ (ns : List Node) (w : Walk), (∀ n ∈ ns, n ∈ g.nodes) → g.unseen w.visited ≤ bound →
    ∃ es seen, g.Traces limit depth w.visited (.nodes ns) es seen ∧ ns.foldl f w = w.after es seen

namespace Follows

variable {g : Graph} {limit depth bound : Nat} {f : Walk → Node → Walk}

theorem alternates (h : g.Follows limit depth bound f) (fuel : Nat) : ∀ (w : Walk) (id : String),
    g.unseen w.visited < fuel → g.unseen w.visited ≤ bound → ∃ es seen,
      g.Traces limit depth w.visited (.alternates id) es seen ∧ g.alternates f fuel w id = w.after es seen := by
  induction fuel with
  | zero => exact fun _ _ hlt => absurd hlt (Nat.not_lt_zero _)
  | succ fuel ih =>
    intro w id hlt hle
    cases hchildren : g.childNodes id (some .onFalse) with
    | nil =>
      refine ⟨[], w.visited, .noAlternate hchildren, ?_⟩
      rw [Graph.alternates, hchildren, w.after_nil]
    | cons n ns =>
      have hnodes (m : Node) (hm : m ∈ n :: ns) : m ∈ g.nodes := mem_nodes_of_mem_childNodes (hchildren ▸ hm)
      by_cases hc : ns = [] ∧ g.Collapses w.visited n
      · obtain ⟨rfl, hc⟩ := hc
        have hfresh := unseen_cons_lt (hnodes n List.mem_cons_self) hc.2.2.1
        obtain ⟨es₁, seen₁, ht₁, he₁⟩ := h (g.branchBody n.id).1 (w.after _ (n.id :: w.visited))
          (fun m hm => mem_nodes_of_mem_branchBody (.inl hm)) (by simpa using by omega)
        have hseen := g.unseen_le ht₁.subset
        rw [Walk.visited_after] at hseen
        obtain ⟨es₂, seen₂, ht₂, he₂⟩ := ih ((w.after _ (n.id :: w.visited)).after es₁ seen₁) n.id
          (by simpa using by omega) (by simpa using by omega)
        refine ⟨_, _, .elseif hchildren hc ht₁ ht₂, ?_⟩
        rw [alternates_elseif hchildren hc, he₁, he₂, Walk.after_after, Walk.after_after]
        rfl
      · obtain ⟨es, seen, ht, he⟩ := h (n :: ns) (w.after [.turn none "else"] w.visited) hnodes hle
        refine ⟨_, _, .otherwise hchildren hc ht, ?_⟩
        rw [alternates_otherwise hchildren hc, he, Walk.after_after]
        rfl

end Follows

theorem visit_of_mem (g : Graph) (settings : RenderSettings) (fuel depth : Nat) {w : Walk} {n : Node}
    (h : n.id ∈ w.visited) : g.visit settings fuel depth w n = w := by
  cases fuel with
  | zero => rfl
  | succ fuel => rw [visit, if_pos (by simpa using h)]

theorem cutOff_after (g : Graph) (limit : Nat) (w : Walk) (n : Node) : ∃ seen,
    g.Skips (n.id :: w.visited) (g.childNodes n.id) seen ∧
      g.cutOff limit (w.mark n.id) n = w.after [.cut n limit] seen := by
  obtain ⟨seen, hs, he⟩ := g.skipAll_after w [.cut n limit] (n.id :: w.visited) n.id
  rw [Walk.after_of_warning w rfl] at he
  exact ⟨seen, hs, he⟩

/-- The conditional is written branch by branch if this holds of the nodes in its branches and behind it. -/
theorem traces_conditional {g : Graph} {limit depth bound : Nat} {f f' : Walk → Node → Walk}
    (h : g.Follows limit depth bound f) (h' : g.Follows limit (depth + 1) bound f') {w : Walk} {n : Node}
    (hw : n.id ∉ w.visited) (hdepth : depth < limit) (hemit : Emission.ofNode n = .conditional)
    (hle : g.unseen (n.id :: w.visited) ≤ bound) :
    let opened := w.after [.enter n ("if " ++ conditionText n ++ " then") "end"] (n.id :: w.visited)
    let inner := g.alternates f' (g.nodes.length + 1) ((g.branchBody n.id).1.foldl f' opened) n.id
    ∃ es seen, g.Traces limit depth w.visited (.node n) es seen ∧
      (g.branchBody n.id).2.foldl f { inner with out := inner.out.closeBlock } = w.after es seen := by
  intro opened inner
  obtain ⟨es₁, seen₁, ht₁, he₁⟩ := h' (g.branchBody n.id).1 opened (fun m hm => mem_nodes_of_mem_branchBody (.inl hm))
    hle
  have hseen₁ : g.unseen seen₁ ≤ bound := Nat.le_trans (g.unseen_le ht₁.subset) hle
  obtain ⟨es₂, seen₂, ht₂, he₂⟩ := h'.alternates (g.nodes.length + 1) (opened.after es₁ seen₁) n.id
    (Nat.lt_succ_of_le (g.unseen_le_length _)) hseen₁
  have hseen₂ : g.unseen seen₂ ≤ bound := Nat.le_trans (g.unseen_le ht₂.subset) hseen₁
  obtain ⟨es₃, seen₃, ht₃, he₃⟩ := h (g.branchBody n.id).2 ((opened.after (es₁ ++ es₂) seen₂).after [.leave] seen₂)
    (fun m hm => mem_nodes_of_mem_branchBody (.inr hm)) hseen₂
  have hinner : inner = opened.after (es₁ ++ es₂) seen₂ := by
    rw [← Walk.after_after, ← he₂, ← he₁]
  refine ⟨_, _, .conditional hw hdepth hemit ht₁ ht₂ ht₃, ?_⟩
  rw [hinner, ← Walk.after_leave, Walk.visited_after, he₃]
  simp only [opened, Walk.after_after, List.append_assoc, List.cons_append, List.nil_append]

/-- A node that is not done is written as the rules say if this holds of all that follows. -/
theorem traces_visit {g : Graph} {settings : RenderSettings} {fuel : Nat}
    (ih : ∀ depth, g.Follows settings.maxDepth depth fuel (g.visit settings fuel depth)) (depth : Nat) {w : Walk}
    {n : Node}
    (hn : n ∈ g.nodes) (hw : n.id ∉ w.visited) (hle : g.unseen w.visited ≤ fuel + 1) : ∃ es seen,
      g.Traces settings.maxDepth depth w.visited (.node n) es seen ∧
        g.visit settings (fuel + 1) depth w n = w.after es seen := by
  have hlt := unseen_cons_lt hn hw
  have hchildren (depth : Nat) (e : Event) : ∃ es seen,
      g.Traces settings.maxDepth depth (n.id :: w.visited) (.nodes (g.childNodes n.id)) es seen ∧
      (g.childNodes n.id).foldl (g.visit settings fuel depth) (w.after [e] (n.id :: w.visited)) =
        w.after (e :: es) seen := by
    obtain ⟨es, seen, ht, he⟩ := ih depth (g.childNodes n.id) (w.after [e] (n.id :: w.visited))
      (fun _ => mem_nodes_of_mem_childNodes) (by simpa using by omega)
    exact ⟨es, seen, ht, he.trans (w.after_after [e] es _ seen)⟩
  rw [visit, if_neg (by simpa using hw)]
  cases hemit : Emission.ofNode n with
  | line text =>
    obtain ⟨es, seen, ht, he⟩ := hchildren depth (.text n text)
    rw [Walk.after_of_quiet w rfl] at he
    exact ⟨_, _, .line hw hemit ht, he⟩
  | skip =>
    obtain ⟨es, seen, ht, he⟩ := hchildren depth (.silent n)
    rw [Walk.after_of_quiet w rfl] at he
    exact ⟨_, _, .skip hw hemit ht, he⟩
  | terminal text =>
    obtain ⟨seen, hs, he⟩ := g.skipAll_after w [.text n text] (n.id :: w.visited) n.id
    rw [Walk.after_of_quiet w rfl] at he
    exact ⟨_, _, .terminal hw hemit hs, he⟩
  | block opener closer =>
    by_cases hdepth : depth < settings.maxDepth
    · obtain ⟨es, seen, ht, he⟩ := hchildren (depth + 1) (.enter n opener closer)
      rw [Walk.after_of_quiet w rfl] at he
      have hleave := congrArg (fun w : Walk => { w with out := w.out.closeBlock }) he
      rw [← Walk.after_leave (w.after _ _), Walk.visited_after, Walk.after_after] at hleave
      exact ⟨_, _, .block hw hdepth hemit ht, (if_pos hdepth).trans hleave⟩
    · obtain ⟨seen, hs, he⟩ := g.cutOff_after settings.maxDepth w n
      exact ⟨_, _, .cut hw hdepth (.inr ⟨_, _, hemit⟩) hs, (if_neg hdepth).trans he⟩
  | conditional =>
    by_cases hdepth : depth < settings.maxDepth
    · obtain ⟨es, seen, ht, he⟩ := traces_conditional (ih depth) (ih (depth + 1)) hw hdepth hemit (by omega)
      rw [Walk.after_of_quiet w rfl] at he
      exact ⟨es, seen, ht, (if_pos hdepth).trans he⟩
    · obtain ⟨seen, hs, he⟩ := g.cutOff_after settings.maxDepth w n
      exact ⟨_, _, .cut hw hdepth (.inl hemit) hs, (if_neg hdepth).trans he⟩

theorem follows_visit (g : Graph) (settings : RenderSettings) (fuel : Nat) : ∀ depth,
    g.Follows settings.maxDepth depth fuel (g.visit settings fuel depth) := by
  induction fuel using Nat.strongRecOn with
  | ind fuel ih =>
    intro depth ns
    induction ns with
    | nil => exact fun w _ _ => ⟨[], w.visited, .nil, w.after_nil.symm⟩
    | cons n ns ihns =>
      intro w hns hle
      obtain ⟨hn, hns⟩ := List.forall_mem_cons.mp hns
      rw [List.foldl_cons]
      by_cases hmem : n.id ∈ w.visited
      · rw [visit_of_mem g settings fuel depth hmem]
        obtain ⟨es, seen, ht, he⟩ := ihns w hns hle
        exact ⟨es, seen, .done hmem ht, he⟩
      · have hlt := unseen_cons_lt hn hmem
        obtain ⟨fuel, rfl⟩ : ∃ k, fuel = k + 1 := ⟨fuel - 1, by omega⟩
        obtain ⟨es, seen, ht, he⟩ := traces_visit (ih fuel (Nat.lt_succ_self _)) depth hn hmem hle
        have hseen := g.unseen_le ht.subset
        obtain ⟨es', seen', ht', he'⟩ := ihns (w.after es seen) hns (Nat.le_trans hseen hle)
        refine ⟨es ++ es', seen', .cons ht ht', ?_⟩
        rw [he, he', Walk.after_after]

theorem mem_nodes_of_mem_starts {g : Graph} {start : Bool × Node} (h : start ∈ g.starts) : start.2 ∈ g.nodes := by
  simp only [starts, roots, inOrder, List.mem_append, List.mem_map, Order.mem_sort] at h
  obtain ⟨n, hn, rfl⟩ | ⟨n, hn, rfl⟩ := h
  · exact List.mem_of_mem_filter hn
  · exact hn

end Graph

namespace Draft

/-- The draft after some more blocks, with these ids done. -/
def after (d : Draft) (unit : String) (blocks : List (List Event)) (seen : List String) : Draft :=
  ⟨seen, d.warnings ++ blocks.flatten.filterMap Event.warning?, d.blocks ++ blocks.map (Event.blockText unit)⟩

theorem after_nil (d : Draft) (unit : String) : d.after unit [] d.visited = d := by
  simp [after]

theorem after_after (d : Draft) (unit : String) (blocks blocks' : List (List Event)) (seen seen' : List String) :
    (d.after unit blocks seen).after unit blocks' seen' = d.after unit (blocks ++ blocks') seen' := by
  simp [after]

theorem addBlock_of_mem (g : Graph) (settings : RenderSettings) (isRoot : Bool) {d : Draft} {n : Node}
    (h : n.id ∈ d.visited) : addBlock g settings isRoot d n = d := if_pos (by simpa using h)

theorem addBlock_after (g : Graph) (settings : RenderSettings) (isRoot : Bool) {d : Draft} {n : Node} (hn : n ∈ g.nodes)
    (h : n.id ∉ d.visited) : ∃ es seen, g.Traces settings.maxDepth 0 d.visited (.nodes [n]) es seen ∧
      addBlock g settings isRoot d n =
        d.after settings.indent [(if isRoot then [] else [.stray n]) ++ es] seen := by
  let w : Walk := { visited := d.visited, warnings := d.warnings, out := { unit := settings.indent } }
  have hstart : (if isRoot then w else w.warn (.unreachable n.id)) =
      w.after (if isRoot then [] else [.stray n]) d.visited := by
    cases isRoot with
    | true => exact w.after_nil.symm
    | false => exact (w.after_of_warning (e := .stray n) rfl d.visited).symm
  obtain ⟨es, seen, ht, he⟩ := g.follows_visit settings g.nodes.length 0 [n]
    (w.after (if isRoot then [] else [.stray n]) d.visited) (by simpa using hn) (g.unseen_le_length _)
  rw [Walk.after_after, ← hstart] at he
  have hdraft := congrArg (fun w : Walk => (⟨w.visited, w.warnings, d.blocks ++ [w.out.finish]⟩ : Draft)) he
  refine ⟨es, seen, ht, (if_neg (by simpa using h)).trans (hdraft.trans ?_)⟩
  rw [after, List.flatten_singleton]
  rfl

/-- The draft is that of a run. -/
theorem drafts_foldl (g : Graph) (settings : RenderSettings) : ∀ (starts : List (Bool × Node)) (d : Draft),
    (∀ start ∈ starts, start.2 ∈ g.nodes) → ∃ blocks seen, g.Drafts settings.maxDepth d.visited starts blocks seen ∧
      starts.foldl (fun d (start : Bool × Node) => addBlock g settings start.1 d start.2) d =
        d.after settings.indent blocks seen := by
  intro starts
  induction starts with
  | nil => exact fun d _ => ⟨[], d.visited, .nil, (d.after_nil _).symm⟩
  | cons start starts ih =>
    intro d hstarts
    obtain ⟨isRoot, n⟩ := start
    obtain ⟨hn, hstarts⟩ := List.forall_mem_cons.mp hstarts
    rw [List.foldl_cons]
    by_cases hmem : n.id ∈ d.visited
    · obtain ⟨blocks, seen, hd, he⟩ := ih d hstarts
      rw [addBlock_of_mem g settings isRoot hmem]
      exact ⟨blocks, seen, .done hmem hd, he⟩
    · obtain ⟨es, seen₁, ht, he₁⟩ := addBlock_after g settings isRoot hn hmem
      obtain ⟨blocks, seen₂, hd, he₂⟩ := ih (d.after settings.indent _ seen₁) hstarts
      refine ⟨_, seen₂, .cons hmem ht hd, ?_⟩
      rw [he₁, he₂, after_after]
      rfl

theorem exists_runs (g : Graph) (settings : RenderSettings) : ∃ blocks, g.Runs settings.maxDepth blocks ∧
    (ofGraph g settings).blocks = blocks.map (Event.blockText settings.indent) ∧
    (ofGraph g settings).warnings = blocks.flatten.filterMap Event.warning? := by
  obtain ⟨blocks, seen, hd, he⟩ := drafts_foldl g settings g.starts {} fun _ => Graph.mem_nodes_of_mem_starts
  have heq : ofGraph g settings = Draft.after {} settings.indent blocks seen := by
    rw [← he, Graph.starts, List.foldl_append, List.foldl_map, List.foldl_map]
    rfl
  rw [heq]
  exact ⟨blocks, ⟨seen, hd⟩, rfl, rfl⟩

end Draft

end ScriptGraph
