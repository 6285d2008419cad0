import Mathlib.Data.List.Nodup
import Mathlib.Logic.Relation
import ScriptGraph.Proofs.Emissions
import ScriptGraph.Proofs.Trace

namespace ScriptGraph

namespace Graph

/-- An edge leads from a node to a node. -/
def Leads (g : Graph) (a b : String) : Prop := ∃ e ∈ g.links, e.source = a ∧ e.target = b

/-- There is a way from the first node to the second, of one edge at least. -/
def Below (g : Graph) : String → String → Prop := Relation.TransGen g.Leads

theorem leads_of_mem_childNodes {g : Graph} {id : String} {handle : Option Handle} {n : Node}
    (h : n ∈ g.childNodes id handle) : g.Leads id n.id := by
  simp only [childNodes, children, List.mem_map, Order.mem_sort, List.mem_filterMap, Option.map_eq_some_iff,
    List.mem_filter, Bool.and_eq_true, beq_iff_eq] at h
  obtain ⟨_, ⟨e, ⟨he, ⟨hsource, -⟩, hid⟩, m, hm, rfl⟩, rfl⟩ := h
  have htarget : m.id = e.target ∧ m ∈ g.nodes := by
    have hmem := List.mem_filter.mp (List.mem_of_getLast? hm)
    exact ⟨by simpa using hmem.2, hmem.1⟩
  refine ⟨e, List.mem_filter.mpr ⟨he, ?_⟩, hsource, htarget.1.symm⟩
  rw [hsource, hid, Bool.true_and]
  exact List.any_eq_true.mpr ⟨m, htarget.2, by simpa using htarget.1⟩

/-- What is passed over is below the nodes that are passed over, or one of them. -/
theorem Skips.exists_of_mem {g : Graph} {seen seen' : List String} {ns : List Node} (h : g.Skips seen ns seen')
    {id : String} (hid : id ∈ seen') : id ∈ seen ∨ ∃ n ∈ ns, Relation.ReflTransGen g.Leads n.id id := by
  induction h with
  | nil => exact .inl hid
  | done _ _ ih =>
    obtain hseen | ⟨m, hm, hway⟩ := ih hid
    · exact .inl hseen
    · exact .inr ⟨m, List.mem_cons_of_mem _ hm, hway⟩
  | @cons seen seen₁ seen₂ n ns _ _ _ ih₁ ih₂ =>
    obtain hseen | ⟨m, hm, hway⟩ := ih₂ hid
    · obtain hseen | ⟨m, hm, hway⟩ := ih₁ hseen
      · rcases List.mem_cons.mp hseen with rfl | hseen
        · exact .inr ⟨n, List.mem_cons_self, .refl⟩
        · exact .inl hseen
      · exact .inr ⟨n, List.mem_cons_self, .head (leads_of_mem_childNodes hm) hway⟩
    · exact .inr ⟨m, List.mem_cons_of_mem _ hm, hway⟩

end Graph

namespace Event

/-- What a node leads to is left out: it ends its block, or is nested too deep. -/
def Drops (e : Event) (n : Node) : Prop :=
  (∃ text, e = .text n text ∧ Emission.ofNode n = .terminal text) ∨ ∃ limit, e = .cut n limit

/-- Events that turn the marks `seen` into `seen'` deal once with each of the nodes that are newly marked, but for
those below a node that drops them. -/
structure Accounts (g : Graph) (seen : List String) (es : List Event) (seen' : List String) : Prop where
  subset : seen ⊆ seen'
  nodup : (handled es).Nodup
  fresh : ∀ id ∈ handled es, id ∉ seen ∧ id ∈ seen'
  covers : ∀ id ∈ seen', id ∈ seen ∨ id ∈ handled es ∨ ∃ e ∈ es, ∃ a, e.Drops a ∧ g.Below a.id id

namespace Accounts

variable {g : Graph} {seen seen₁ seen₂ : List String} {es es' : List Event} {e : Event} {n : Node}

theorem nil : Accounts g seen [] seen := ⟨List.Subset.refl _, List.nodup_nil, by simp [handled], fun _ => .inl⟩

theorem append (h : Accounts g seen es seen₁) (h' : Accounts g seen₁ es' seen₂) :
    Accounts g seen (es ++ es') seen₂ := by
  refine ⟨List.Subset.trans h.subset h'.subset, ?_, ?_, ?_⟩
  · rw [handled_append]
    exact h.nodup.append h'.nodup fun id hid hid' => (h'.fresh id hid').1 (h.fresh id hid).2
  · intro id hid
    rw [handled_append] at hid
    rcases List.mem_append.mp hid with hid | hid
    · exact ⟨(h.fresh id hid).1, h'.subset (h.fresh id hid).2⟩
    · exact ⟨fun hseen => (h'.fresh id hid).1 (h.subset hseen), (h'.fresh id hid).2⟩
  · intro id hid
    rw [handled_append]
    rcases h'.covers id hid with hid | hid | ⟨e, he, hdrop⟩
    · rcases h.covers id hid with hid | hid | ⟨e, he, hdrop⟩
      · exact .inl hid
      · exact .inr (.inl (List.mem_append_left _ hid))
      · exact .inr (.inr ⟨e, List.mem_append_left _ he, hdrop⟩)
    · exact .inr (.inl (List.mem_append_right _ hid))
    · exact .inr (.inr ⟨e, List.mem_append_right _ he, hdrop⟩)

theorem quiet (h : e.node? = none) : Accounts g seen [e] seen := by
  have hnone : handled [e] = [] := by simp [handled, h]
  exact ⟨List.Subset.refl _, hnone ▸ List.nodup_nil, by simp [hnone], fun _ => .inl⟩

theorem drop (h : e.node? = some n) (hn : n.id ∉ seen) (hd : e.Drops n)
    (hs : g.Skips (n.id :: seen) (g.childNodes n.id) seen₁) : Accounts g seen [e] seen₁ := by
  have hone : handled [e] = [n.id] := by simp [handled, h]
  refine ⟨List.subset_of_cons_subset hs.subset, hone ▸ List.nodup_singleton _, ?_, ?_⟩
  · rw [hone]
    intro id hid
    rw [List.mem_singleton.mp hid]
    exact ⟨hn, hs.subset List.mem_cons_self⟩
  · intro id hid
    rw [hone]
    obtain hseen | ⟨m, hm, hway⟩ := hs.exists_of_mem hid
    · exact (List.mem_cons.mp hseen).elim (fun heq => .inr (.inl (List.mem_singleton.mpr heq))) .inl
    · exact .inr (.inr ⟨e, List.mem_singleton_self e, n, hd, .head' (Graph.leads_of_mem_childNodes hm) hway⟩)

theorem node (h : e.node? = some n) (hn : n.id ∉ seen) : Accounts g seen [e] (n.id :: seen) := by
  have hone : handled [e] = [n.id] := by simp [handled, h]
  refine ⟨List.subset_cons_self _ _, hone ▸ List.nodup_singleton _, ?_, ?_⟩
  · rw [hone]
    intro id hid
    rw [List.mem_singleton.mp hid]
    exact ⟨hn, List.mem_cons_self⟩
  · intro id hid
    rw [hone]
    exact (List.mem_cons.mp hid).elim (fun heq => .inr (.inl (List.mem_singleton.mpr heq))) .inl

end Accounts

end Event

namespace Graph

open Event (Accounts)

theorem Traces.accounts {g : Graph} {limit depth : Nat} {seen seen' : List String} {pending : Pending} {es : List Event}
    (h : g.Traces limit depth seen pending es seen') : Accounts g seen es seen' := by
  induction h with
  | nil | noAlternate => exact .nil
  | done _ _ ih => exact ih
  | cons _ _ ih₁ ih₂ => exact ih₁.append ih₂
  | line hn _ _ ih | skip hn _ _ ih => exact (Accounts.node rfl hn).append ih
  | terminal hn hemit hs => exact .drop rfl hn (.inl ⟨_, rfl, hemit⟩) hs
  | cut hn _ _ hs => exact .drop rfl hn (.inr ⟨_, rfl⟩) hs
  | block hn _ _ _ ih => exact (Accounts.node rfl hn).append (ih.append (.quiet rfl))
  | conditional hn _ _ _ _ _ ih₁ ih₂ ih₃ =>
    exact (Accounts.node rfl hn).append (ih₁.append (ih₂.append ((Accounts.quiet rfl).append ih₃)))
  | elseif _ hc _ _ ih₁ ih₂ => exact (Accounts.node rfl hc.2.2.1).append (ih₁.append ih₂)
  | otherwise _ _ _ ih => exact (Accounts.quiet rfl).append ih

theorem Drafts.accounts {g : Graph} {limit : Nat} {seen seen' : List String} {starts : List (Bool × Node)}
    {blocks : List (List Event)} (h : g.Drafts limit seen starts blocks seen') :
    Accounts g seen blocks.flatten seen' := by
  induction h with
  | nil => exact .nil
  | done _ _ ih => exact ih
  | @cons seen _ _ isRoot n _ _ _ _ ht _ ih =>
    have hstray : Accounts g seen (if isRoot then [] else [.stray n]) seen := by
      cases isRoot with
      | true => exact .nil
      | false => exact .quiet rfl
    exact (hstray.append ht.accounts).append ih

/-- A node that is to be written is marked in the end. -/
theorem Traces.mem_of_node {g : Graph} {limit depth : Nat} {seen seen' : List String} {n : Node} {es : List Event}
    (h : g.Traces limit depth seen (.node n) es seen') : n.id ∈ seen' := by
  cases h with
  | line _ _ ht | skip _ _ ht | block _ _ _ ht => exact ht.subset List.mem_cons_self
  | terminal _ _ hs | cut _ _ _ hs => exact hs.subset List.mem_cons_self
  | conditional _ _ _ ht₁ ht₂ ht₃ => exact ht₃.subset (ht₂.subset (ht₁.subset List.mem_cons_self))

theorem Drafts.mem_of_start {g : Graph} {limit : Nat} {seen seen' : List String} {starts : List (Bool × Node)}
    {blocks : List (List Event)} (h : g.Drafts limit seen starts blocks seen') :
    ∀ start ∈ starts, start.2.id ∈ seen' := by
  induction h with
  | nil => simp
  | done hmem hd ih => exact List.forall_mem_cons.mpr ⟨hd.accounts.subset hmem, ih⟩
  | cons hmem ht hd ih =>
    refine List.forall_mem_cons.mpr ⟨hd.accounts.subset ?_, ih⟩
    cases ht with
    | done hseen _ => exact absurd hseen hmem
    | cons hnode hnil => exact hnil.subset hnode.mem_of_node

end Graph

namespace Event

/-- A node of the graph is written as its emission asks for. -/
def Faithful (g : Graph) : Event → Prop
  | text n t => n ∈ g.nodes ∧ (Emission.ofNode n = .line t ∨ Emission.ofNode n = .terminal t)
  | silent n => n ∈ g.nodes ∧ Emission.ofNode n = .skip
  | cut n _ => n ∈ g.nodes ∧
    (Emission.ofNode n = .conditional ∨ ∃ opener closer, Emission.ofNode n = .block opener closer)
  | enter n opener closer => n ∈ g.nodes ∧ (Emission.ofNode n = .block opener closer ∨
    Emission.ofNode n = .conditional ∧ opener = "if " ++ Graph.conditionText n ++ " then" ∧ closer = "end")
  | turn (some n) t => n ∈ g.nodes ∧ Emission.ofNode n = .conditional ∧
    t = "elseif " ++ Graph.conditionText n ++ " then"
  | turn none t => t = "else"
  | stray n => n ∈ g.nodes
  | leave => True

theorem Faithful.mem_nodes {g : Graph} {e : Event} (h : e.Faithful g) {n : Node} (hn : e.node? = some n) :
    n ∈ g.nodes := by
  cases e with
  | text m _ | silent m | cut m _ | enter m _ _ =>
    obtain rfl : m = n := Option.some.inj hn
    exact h.1
  | turn m _ =>
    obtain rfl : m = some n := hn
    exact h.1
  | stray _ | leave => cases hn

/-- Code is written as it is. -/
theorem Faithful.eq_text {g : Graph} {e : Event} (h : e.Faithful g) {n : Node} {code : String} (hn : e.node? = some n)
    (hc : n.codeBlock? = some code) : e = .text n code := by
  have hemit : Emission.ofNode n = .line code := by simp only [Emission.ofNode, hc]
  cases e with
  | text m t =>
    obtain rfl : m = n := Option.some.inj hn
    simpa [Faithful, hemit, eq_comm] using h.2
  | silent m | cut m _ | enter m _ _ =>
    obtain rfl : m = n := Option.some.inj hn
    simp [Faithful, hemit] at h
  | turn m _ =>
    obtain rfl : m = some n := hn
    simp [Faithful, hemit] at h
  | stray _ | leave => cases hn

end Event

namespace Graph

/-- Only nodes of the graph are pending. -/
def Within (g : Graph) : Pending → Prop
  | .nodes ns => ∀ n ∈ ns, n ∈ g.nodes
  | .node n => n ∈ g.nodes
  | .alternates _ => True

theorem Collapses.emission {g : Graph} {seen : List String} {n : Node} (h : g.Collapses seen n) :
    Emission.ofNode n = .conditional := by
  simp only [Emission.ofNode, h.2.1, h.1, NodeKind.ofTag?_tag .conditional (by decide), Emission.ofKind]

theorem Traces.faithful {g : Graph} {limit depth : Nat} {seen seen' : List String} {pending : Pending}
    {es : List Event} (h : g.Traces limit depth seen pending es seen') (hg : g.Within pending) :
    ∀ e ∈ es, e.Faithful g := by
  have hchildren {id : String} {handle : Option Handle} : g.Within (.nodes (g.childNodes id handle)) :=
    fun _ => mem_nodes_of_mem_childNodes
  induction h with
  | nil | noAlternate => simp
  | done _ _ ih => exact ih (List.forall_mem_cons.mp hg).2
  | cons _ _ ih₁ ih₂ =>
    obtain ⟨hn, hns⟩ := List.forall_mem_cons.mp hg
    exact List.forall_mem_append.mpr ⟨ih₁ hn, ih₂ hns⟩
  | line _ hemit _ ih => exact List.forall_mem_cons.mpr ⟨⟨hg, .inl hemit⟩, ih hchildren⟩
  | skip _ hemit _ ih => exact List.forall_mem_cons.mpr ⟨⟨hg, hemit⟩, ih hchildren⟩
  | terminal _ hemit _ => exact List.forall_mem_singleton.mpr ⟨hg, .inr hemit⟩
  | cut _ _ hemit _ => exact List.forall_mem_singleton.mpr ⟨hg, hemit⟩
  | block _ _ hemit _ ih =>
    refine List.forall_mem_cons.mpr ⟨⟨hg, .inl hemit⟩, List.forall_mem_append.mpr ⟨ih hchildren, ?_⟩⟩
    exact List.forall_mem_singleton.mpr trivial
  | conditional _ _ hemit _ _ _ ih₁ ih₂ ih₃ =>
    refine List.forall_mem_cons.mpr ⟨⟨hg, .inr ⟨hemit, rfl, rfl⟩⟩, List.forall_mem_append.mpr ⟨ih₁ fun m hm =>
      mem_nodes_of_mem_branchBody (.inl hm), List.forall_mem_append.mpr ⟨ih₂ trivial, ?_⟩⟩⟩
    exact List.forall_mem_cons.mpr ⟨trivial, ih₃ fun m hm => mem_nodes_of_mem_branchBody (.inr hm)⟩
  | elseif hfalse hc _ _ ih₁ ih₂ =>
    have hn := mem_nodes_of_mem_childNodes (hfalse ▸ List.mem_singleton_self _)
    refine List.forall_mem_cons.mpr ⟨⟨hn, hc.emission, rfl⟩, List.forall_mem_append.mpr ⟨ih₁ ?_, ih₂ trivial⟩⟩
    exact fun m hm => mem_nodes_of_mem_branchBody (.inl hm)
  | otherwise hfalse _ _ ih => exact List.forall_mem_cons.mpr ⟨rfl, ih (hfalse ▸ hchildren)⟩

theorem Drafts.faithful {g : Graph} {limit : Nat} {seen seen' : List String} {starts : List (Bool × Node)}
    {blocks : List (List Event)} (h : g.Drafts limit seen starts blocks seen')
    (hg : ∀ start ∈ starts, start.2 ∈ g.nodes) : ∀ e ∈ blocks.flatten, e.Faithful g := by
  induction h with
  | nil => simp
  | done _ _ ih => exact ih (List.forall_mem_cons.mp hg).2
  | @cons _ _ _ isRoot n _ _ _ _ ht _ ih =>
    obtain ⟨hn, hstarts⟩ := List.forall_mem_cons.mp hg
    have hstray : ∀ e ∈ if isRoot then [] else [Event.stray n], e.Faithful g := by
      cases isRoot with
      | true => simp
      | false => exact List.forall_mem_singleton.mpr hn
    rw [List.flatten_cons]
    refine List.forall_mem_append.mpr ⟨List.forall_mem_append.mpr ⟨hstray, ?_⟩, ih hstarts⟩
    exact ht.faithful (List.forall_mem_singleton.mpr hn)

namespace Runs

variable {g : Graph} {limit : Nat} {blocks : List (List Event)}

theorem faithful (h : g.Runs limit blocks) : ∀ e ∈ blocks.flatten, e.Faithful g := by
  obtain ⟨_, hd⟩ := h
  exact hd.faithful fun _ => mem_nodes_of_mem_starts

/-- At most one event deals with an id. -/
theorem nodup_handled (h : g.Runs limit blocks) : (Event.handled blocks.flatten).Nodup := by
  obtain ⟨_, hd⟩ := h
  exact hd.accounts.nodup

/-- What is not dealt with lies below a node that drops it. -/
theorem mem_handled_or_dropped (h : g.Runs limit blocks) {n : Node} (hn : n ∈ g.nodes) :
    n.id ∈ Event.handled blocks.flatten ∨ ∃ e ∈ blocks.flatten, ∃ a, e.Drops a ∧ g.Below a.id n.id := by
  obtain ⟨seen, hd⟩ := h
  have hstart : (false, n) ∈ g.starts :=
    List.mem_append_right _ (List.mem_map_of_mem (Order.mem_sort.mpr hn))
  exact (hd.accounts.covers n.id (hd.mem_of_start _ hstart)).resolve_left List.not_mem_nil

/-- Where ids are unique, the event that deals with an id deals with its node. -/
theorem exists_event (h : g.Runs limit blocks) (hids : (g.nodes.map (·.id)).Nodup) {n : Node} (hn : n ∈ g.nodes)
    (hid : n.id ∈ Event.handled blocks.flatten) : ∃ e ∈ blocks.flatten, e.node? = some n := by
  obtain ⟨m, hm, hmn⟩ := List.mem_map.mp hid
  obtain ⟨e, he, hem⟩ := List.mem_filterMap.mp hm
  have hnodes : m ∈ g.nodes := (h.faithful e he).mem_nodes hem
  obtain rfl : m = n := List.inj_on_of_nodup_map hids hnodes hn hmn
  exact ⟨e, he, hem⟩

end Runs

end Graph

namespace Emitter

theorem exists_lines_write (out : Emitter) (text : String) : ∃ more, (out.write text).lines = out.lines ++ more :=
  ⟨_, rfl⟩

theorem exists_lines_closeBlock (out : Emitter) : ∃ more, out.closeBlock.lines = out.lines ++ more := by
  rw [closeBlock]
  split
  · exact ⟨[], (List.append_nil _).symm⟩
  · exact exists_lines_write _ _

theorem exists_lines_reopen (out : Emitter) (text : String) : ∃ more, (out.reopen text).lines = out.lines ++ more := by
  rw [reopen]
  split
  · exact exists_lines_write _ _
  · exact exists_lines_write _ _

theorem exists_lines_finish (out : Emitter) : ∃ more, out.finish = "\n".intercalate (out.lines ++ more) := by
  have hclose (closers : List String) : ∀ out : Emitter,
      ∃ more, (closers.foldl (fun out _ => out.closeBlock) out).lines = out.lines ++ more := by
    induction closers with
    | nil => exact fun out => ⟨[], (List.append_nil _).symm⟩
    | cons closer closers ih =>
      intro out
      obtain ⟨more, h⟩ := out.exists_lines_closeBlock
      obtain ⟨more', h'⟩ := ih out.closeBlock
      exact ⟨more ++ more', by rw [List.foldl_cons, h', h, List.append_assoc]⟩
  obtain ⟨more, h⟩ := hclose out.closers out
  exact ⟨more, by rw [finish, h]⟩

end Emitter

namespace Event

/-- The nodes whose blocks are open after an event, innermost first. -/
def enclose (around : List Node) : Event → List Node
  | enter n _ _ => n :: around
  | leave => around.tail
  | _ => around

/-- The nodes whose blocks are around what follows the events. -/
def enclosing (es : List Event) : List Node := es.foldl enclose []

theorem closers_write (e : Event) {out : Emitter} {around : List Node} (h : out.closers.length = around.length) :
    (e.write out).closers.length = (e.enclose around).length ∧ (e.write out).unit = out.unit := by
  cases e with
  | text | silent | cut | stray => exact ⟨h, rfl⟩
  | enter => exact ⟨congrArg (· + 1) h, rfl⟩
  | turn =>
    simp only [write, Emitter.reopen, enclose]
    split
    · exact ⟨h, rfl⟩
    · next hc => exact ⟨hc ▸ h, rfl⟩
  | leave =>
    rw [write, Emitter.closeBlock, enclose, List.length_tail, ← h]
    split
    · next hc => exact ⟨by rw [hc]; rfl, rfl⟩
    · next hc => exact ⟨by rw [hc]; rfl, rfl⟩

theorem closers_writeAll (es : List Event) : ∀ (out : Emitter) (around : List Node),
    out.closers.length = around.length →
      (writeAll out es).closers.length = (es.foldl enclose around).length ∧ (writeAll out es).unit = out.unit := by
  induction es with
  | nil => exact fun _ _ h => ⟨h, rfl⟩
  | cons e es ih =>
    intro out around h
    obtain ⟨hclosers, hunit⟩ := closers_write e h
    obtain ⟨hclosers', hunit'⟩ := ih _ _ hclosers
    exact ⟨hclosers', hunit'.trans hunit⟩

theorem exists_lines_write (out : Emitter) (e : Event) : ∃ more, (e.write out).lines = out.lines ++ more := by
  cases e with
  | text | cut | stray => exact out.exists_lines_write _
  | silent => exact ⟨[], (List.append_nil _).symm⟩
  | enter _ opener _ => exact out.exists_lines_write opener
  | turn => exact out.exists_lines_reopen _
  | leave => exact out.exists_lines_closeBlock

theorem exists_lines_writeAll (es : List Event) :
    ∀ out : Emitter, ∃ more, (writeAll out es).lines = out.lines ++ more := by
  induction es with
  | nil => exact fun out => ⟨[], (List.append_nil _).symm⟩
  | cons e es ih =>
    intro out
    obtain ⟨more, h⟩ := exists_lines_write out e
    obtain ⟨more', h'⟩ := ih (e.write out)
    exact ⟨more ++ more', by rw [← List.append_assoc, ← h]; exact h'⟩

/-- The lines of a text stand together in its block, indented once for each block around it. -/
theorem blockText_of_text (unit : String) (before after : List Event) (n : Node) (text : String) : ∃ more,
    blockText unit (before ++ .text n text :: after) = "\n".intercalate ((writeAll { unit } before).lines ++
      ((Text.lines text).map (Emitter.indented (Text.repeated unit (enclosing before).length)) ++ more)) := by
  obtain ⟨hclosers, hunit⟩ := closers_writeAll before { unit } [] rfl
  have htext : (write (writeAll { unit } before) (.text n text)).lines = (writeAll { unit } before).lines ++
      (Text.lines text).map (Emitter.indented (Text.repeated unit (enclosing before).length)) := by
    rw [write, Emitter.write, hclosers, hunit]
    rfl
  obtain ⟨more, hmore⟩ := exists_lines_writeAll after (write (writeAll { unit } before) (.text n text))
  obtain ⟨closing, hclosing⟩ := (writeAll { unit } (before ++ .text n text :: after)).exists_lines_finish
  have hlines : (writeAll { unit } (before ++ .text n text :: after)).lines =
      (write (writeAll { unit } before) (.text n text)).lines ++ more := by
    rw [writeAll_append]
    exact hmore
  refine ⟨more ++ closing, hclosing.trans ?_⟩
  rw [hlines, htext]
  simp only [List.append_assoc]

end Event

/-- The node ends its block. -/
def Node.Returns (n : Node) : Prop := n.kind = NodeKind.giveBack.tag ∧ n.codeBlock? = none

theorem Emission.returns_of_terminal {n : Node} {text : String} (h : Emission.ofNode n = .terminal text) :
    n.Returns := by
  rw [ofNode] at h
  split at h
  · cases h
  · next hcode =>
    refine ⟨?_, hcode⟩
    split at h
    · next kind hkind =>
      cases kind with
      | giveBack =>
        rcases NodeKind.ofTag?_cases hkind with ⟨-, htag⟩ | ⟨_, -, hcall⟩
        · exact htag.symm
        · cases hcall
      | call entry =>
        rw [ofKind] at h
        cases hc : CallText.ofNode (n.catalogued?.getD entry) n <;> rw [hc] at h <;> cases h
      | function | conditional | whileLoop | forLoop | forEach | declaration | code => cases h
    · cases h

/-- A root leads to the node along nodes that do not end their blocks. -/
def Graph.Live (g : Graph) (id : String) : Prop := ∃ r ∈ g.roots,
  Relation.ReflTransGen (fun a b => (∀ n ∈ g.nodes, n.id = a → ¬n.Returns) ∧ g.Leads a b) r.id id

/-- Only returns drop what they lead to, if nothing is nested too deep. -/
theorem Event.Drops.returns_or_warning {e : Event} {a : Node} (h : e.Drops a) :
    a.Returns ∨ ∃ limit, e.warning? = some (.depthExceeded a.id limit) := by
  rcases h with ⟨text, -, hemit⟩ | ⟨limit, rfl⟩
  · exact .inl (Emission.returns_of_terminal hemit)
  · exact .inr ⟨limit, rfl⟩

theorem Event.Drops.node? {e : Event} {a : Node} (h : e.Drops a) : e.node? = some a := by
  rcases h with ⟨text, rfl, -⟩ | ⟨limit, rfl⟩ <;> rfl

namespace Draft

/-- Every graph is written by finitely many events, at most one of which deals with an id. If ids are unique, exactly
one deals with each node that is neither below a return nor below a node that is nested too deep, and code stands in
its block line by line as it is. -/
theorem written_once (settings : RenderSettings) (g : Graph) : ∃ blocks, g.Runs settings.maxDepth blocks ∧
    (ofGraph g settings).blocks = blocks.map (Event.blockText settings.indent) ∧
    (∀ e ∈ blocks.flatten, e.Faithful g) ∧ (Event.handled blocks.flatten).Nodup ∧
    ((g.nodes.map (·.id)).Nodup → ∀ n ∈ g.nodes,
      (∀ a ∈ g.nodes, g.Below a.id n.id → (∀ text, Emission.ofNode a ≠ .terminal text) ∧
        ∀ limit, .depthExceeded a.id limit ∉ (ofGraph g settings).warnings) →
      (Event.handled blocks.flatten).count n.id = 1 ∧
      ∀ code, n.codeBlock? = some code → ∃ (i : Nat) (before after : List Event) (more : List String),
        blocks[i]? = some (before ++ .text n code :: after) ∧
        (ofGraph g settings).blocks[i]? = some ("\n".intercalate
          ((Event.writeAll { unit := settings.indent } before).lines ++ ((Text.lines code).map
            (Emitter.indented (Text.repeated settings.indent (Event.enclosing before).length)) ++ more)))) := by
  obtain ⟨blocks, hruns, hblocks, hwarnings⟩ := exists_runs g settings
  refine ⟨blocks, hruns, hblocks, hruns.faithful, hruns.nodup_handled, fun hids n hn habove => ?_⟩
  have hmem : n.id ∈ Event.handled blocks.flatten := by
    refine (hruns.mem_handled_or_dropped hn).resolve_right ?_
    rintro ⟨e, he, a, hdrop, hbelow⟩
    obtain ⟨hemit, hdeep⟩ := habove a ((hruns.faithful e he).mem_nodes hdrop.node?) hbelow
    rcases hdrop with ⟨text, -, hterminal⟩ | ⟨limit, rfl⟩
    · exact hemit text hterminal
    · refine hdeep limit ?_
      rw [hwarnings]
      exact List.mem_filterMap.mpr ⟨_, he, rfl⟩
  refine ⟨List.count_eq_one_of_mem hruns.nodup_handled hmem, fun code hcode => ?_⟩
  obtain ⟨e, he, hnode⟩ := hruns.exists_event hids hn hmem
  obtain rfl : e = .text n code := (hruns.faithful e he).eq_text hnode hcode
  obtain ⟨es, hes, he⟩ := List.mem_flatten.mp he
  obtain ⟨i, hi⟩ := List.mem_iff_getElem?.mp hes
  obtain ⟨before, after, rfl⟩ := List.append_of_mem he
  obtain ⟨more, htext⟩ := Event.blockText_of_text settings.indent before after n code
  refine ⟨i, before, after, more, hi, ?_⟩
  rw [hblocks, List.getElem?_map, hi, Option.map_some, htext]

theorem written_once_loop :
    let g : Graph := ⟨[{ id := "l", kind := "logic-loop" },
      { id := "c", kind := "custom-code", data := [("codeBlock", .string "a()\n  b() \n\nc()")] },
      { id := "r", kind := "logic-return" }],
      [{ id := "1", source := "l", target := "c" }, { id := "2", source := "c", target := "r" }]⟩
    ∃ (i k : Nat) (before after : List String), (ofGraph g {}).blocks[i]? = some ("\n".intercalate (before ++
      ((Text.lines "a()\n  b() \n\nc()").map (Emitter.indented (Text.repeated "    " k)) ++ after))) := by
  intro g
  obtain ⟨blocks, -, -, -, -, honce⟩ := written_once {} g
  obtain ⟨-, hcode⟩ := honce (by decide) _ (List.mem_cons_of_mem _ List.mem_cons_self) (by
    -- nothing leads on from the return
    intro a ha hbelow
    have hwarnings : (ofGraph g {}).warnings = [] := by decide +kernel
    refine ⟨fun text hemit => ?_, fun limit => by simp [hwarnings]⟩
    have hkind : ∀ a ∈ g.nodes, a.kind = NodeKind.giveBack.tag → a.id = "r" := by simp [g, NodeKind.tag]
    obtain ⟨b, ⟨e, he, hsource, -⟩, -⟩ := Relation.TransGen.head'_iff.mp hbelow
    have hlinks : ∀ e ∈ g.links, e.source ≠ "r" := by decide +kernel
    exact hlinks e he (hsource.trans (hkind a ha (Emission.returns_of_terminal hemit).1)))
  obtain ⟨i, before, after, more, -, htext⟩ := hcode _ (by decide +kernel : _ = some "a()\n  b() \n\nc()")
  exact ⟨i, _, _, more, htext⟩

/-- Where nothing is nested too deep, a node is written unless a return that is written leads to it. -/
theorem written_or_below_return (settings : RenderSettings) (g : Graph) (hids : (g.nodes.map (·.id)).Nodup)
    (hdeep : ∀ id limit, .depthExceeded id limit ∉ (ofGraph g settings).warnings) : ∃ blocks,
      g.Runs settings.maxDepth blocks ∧
      (ofGraph g settings).blocks = blocks.map (Event.blockText settings.indent) ∧
      ∀ n ∈ g.nodes, (∃ e ∈ blocks.flatten, e.node? = some n ∧ e.Faithful g) ∨
        ∃ r ∈ g.nodes, r.Returns ∧ (∃ e ∈ blocks.flatten, e.node? = some r) ∧ g.Below r.id n.id := by
  obtain ⟨blocks, hruns, hblocks, hwarnings⟩ := exists_runs g settings
  refine ⟨blocks, hruns, hblocks, fun n hn => ?_⟩
  rcases hruns.mem_handled_or_dropped hn with hmem | ⟨e, he, r, hdrop, hbelow⟩
  · obtain ⟨e, he, hnode⟩ := hruns.exists_event hids hn hmem
    exact .inl ⟨e, he, hnode, hruns.faithful e he⟩
  · refine .inr ⟨r, (hruns.faithful e he).mem_nodes hdrop.node?, ?_, ⟨e, he, hdrop.node?⟩, hbelow⟩
    refine hdrop.returns_or_warning.resolve_right ?_
    rintro ⟨limit, hwarning⟩
    refine hdeep r.id limit ?_
    rw [hwarnings]
    exact List.mem_filterMap.mpr ⟨e, he, hwarning⟩

theorem written_or_below_return_join :
    let b : Node := { id := "b", kind := "custom-code", data := [("codeBlock", .string "b()")], position := ⟨0, 100⟩ }
    let g : Graph := ⟨[{ id := "r", kind := "logic-return" }, b, { id := "c", kind := "logic-loop" }],
      [{ id := "1", source := "r", target := "c" }, { id := "2", source := "b", target := "c" }]⟩
    ∃ blocks, g.Runs 256 blocks ∧ ∃ e ∈ blocks.flatten, e.node? = some b := by
  intro b g
  have hwarnings : (ofGraph g {}).warnings = [] := by decide +kernel
  obtain ⟨blocks, hruns, -, hwritten⟩ := written_or_below_return {} g (by decide) (by simp [hwarnings])
  refine ⟨blocks, hruns, ?_⟩
  obtain ⟨e, he, hnode, -⟩ | ⟨r, -, -, -, hbelow⟩ := hwritten b (List.mem_cons_of_mem _ List.mem_cons_self)
  · exact ⟨e, he, hnode⟩
  · obtain ⟨_, -, e, he, -, htarget⟩ := Relation.TransGen.tail'_iff.mp hbelow
    have hlinks : ∀ e ∈ g.links, e.target ≠ "b" := by decide +kernel
    exact absurd htarget (hlinks e he)

/-- A block that comes later does not get back what a return has dropped. -/
theorem lost_below_return : ∃ (g : Graph) (n : Node), (g.nodes.map (·.id)).Nodup ∧ (ofGraph g {}).warnings = [] ∧
    n ∈ g.nodes ∧ g.Live n.id ∧ n.codeBlock? = some "c()" ∧ (Rendered.ofGraph {} g "").text = "return\n\nb()" := by
  let code (text : String) : Fields := [("codeBlock", .string text)]
  let g : Graph := ⟨[{ id := "r", kind := "logic-return" },
    { id := "b", kind := "custom-code", data := code "b()", position := ⟨0, 100⟩ },
    { id := "c", kind := "custom-code", data := code "c()", position := ⟨0, 200⟩ }],
    [{ id := "1", source := "r", target := "c" }, { id := "2", source := "b", target := "c" }]⟩
  refine ⟨g, { id := "c", kind := "custom-code", data := code "c()", position := ⟨0, 200⟩ }, ?_, ?_, ?_, ?_, ?_, ?_⟩
  · decide
  · decide +kernel
  · simp [g]
  · refine ⟨_, Order.mem_sort.mpr (List.mem_filter.mpr ⟨List.mem_cons_of_mem _ List.mem_cons_self, ?_⟩),
      .single ⟨?_, ?_⟩⟩
    · decide +kernel
    · simp [g, Node.Returns, NodeKind.tag]
    · exact ⟨⟨"2", "b", "c", .flowOut, defaultTargetHandle⟩, by decide +kernel, rfl, rfl⟩
  · decide +kernel
  · decide +kernel

end Draft

end ScriptGraph
