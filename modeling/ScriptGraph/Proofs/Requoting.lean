import ScriptGraph.Proofs.Canonical

namespace ScriptGraph

/-- The node with the values of its quoted fields as they are written. -/
def Node.requoted (n : Node) : Node := { n with data := n.data.requoted n.kind }

theorem Fields.get?_requoted (kind : String) (fields : Fields) (key : String) :
    (fields.requoted kind).get? key =
      (fields.get? key).map fun v => if Catalogue.isQuoted kind key then v.requoted else v := by
  induction fields with
  | nil => rfl
  | cons e fields ih =>
    obtain ⟨k, v⟩ := e
    rw [requoted, List.map_cons, ← requoted]
    by_cases hk : k = key
    · subst hk
      rw [get?_cons_self, get?_cons_self, Option.map_some]
    · rw [get?_cons_of_ne hk, get?_cons_of_ne hk, ih]

namespace Node

variable {n : Node} {key : String}

theorem text?_requoted (h : Catalogue.isQuoted n.kind key = false) : n.requoted.text? key = n.text? key := by
  have hget : n.requoted.data.get? key = n.data.get? key := by
    rw [requoted, Fields.get?_requoted, h]
    simp
  rw [text?, text?, hget]

theorem filled?_requoted (h : Catalogue.isQuoted n.kind key = false) : n.requoted.filled? key = n.filled? key := by
  rw [filled?, filled?, text?_requoted h]

/-- A literal is written the same. -/
theorem map_quoted_text?_requoted (h : Catalogue.isQuoted n.kind key = true) :
    (n.requoted.text? key).map Text.quoted = (n.text? key).map Text.quoted := by
  have hget : n.requoted.data.get? key = (n.data.get? key).map Json.requoted := by
    rw [requoted, Fields.get?_requoted, h]
    rfl
  rw [text?, text?, hget]
  cases n.data.get? key with
  | none => rfl
  | some v =>
    cases v with
    | string s => exact congrArg some (Text.quoted_requoted s)
    | _ => rfl

end Node

theorem CallText.fieldText?_requoted {n : Node} {spec : FieldSpec}
    (h : Catalogue.isQuoted n.kind spec.name = (spec.style == .quoted)) :
    fieldText? n.requoted spec = fieldText? n spec := by
  unfold fieldText?
  split
  · rename_i hs
    have hmap := Node.map_quoted_text?_requoted (n := n) (by rw [h, hs]; rfl)
    cases htext : n.text? spec.name with
    | none => 
      rw [htext] at hmap
      rw [Option.map_eq_none_iff.mp hmap]
    | some v =>
      rw [htext] at hmap
      obtain ⟨w, hw, hq⟩ := Option.map_eq_some_iff.mp hmap
      rw [hw]
      simp only [hq]
  all_goals
    rename_i hs
    rw [Node.filled?_requoted (by rw [h, hs]; rfl)]

namespace CallText

theorem ofNode_requoted {entry : Entry} {n : Node} (he : entry ∈ Catalogue.entries) (hk : entry.kind = n.kind) :
    ofNode entry n.requoted = ofNode entry n := by
  have hquoted := (Catalogue.isQuoted_eq entry he).1
  rw [hk] at hquoted
  have hadd : ∀ p, ∀ arg ∈ entry.args, Parts.add n.requoted p arg = Parts.add n p arg := by
    intro p arg harg
    have h := hquoted arg harg
    cases arg with
    | handler params optional =>
      have htext : n.requoted.text? handlerParams = n.text? handlerParams := Node.text?_requoted h
      rw [Parts.add, Parts.add, htext]
    | field spec => rw [Parts.add, Parts.add, fieldText?_requoted h]
  have hfold : entry.args.foldl (Parts.add n.requoted) {} = entry.args.foldl (Parts.add n) {} :=
    List.foldl_ext _ _ _ hadd
  rw [ofNode, ofNode, hfold]

end CallText

theorem Catalogue.mem_ofKind {kind : String} {e : Entry} (h : e ∈ ofKind kind) : e ∈ entries ∧ e.kind = kind := by
  obtain ⟨hmem, hkind⟩ := List.mem_filter.mp h
  exact ⟨hmem, by simpa using hkind⟩

namespace Node

theorem catalogued?_requoted (n : Node) : n.requoted.catalogued? = n.catalogued? := by
  have hfind : ∀ e ∈ Catalogue.ofKind n.kind,
      (e.fixed.all fun f => n.requoted.text? f.1 == some f.2) = e.fixed.all fun f => n.text? f.1 == some f.2 := by
    intro e he
    obtain ⟨hmem, hkind⟩ := Catalogue.mem_ofKind he
    have hfixed := (Catalogue.isQuoted_eq e hmem).2
    rw [hkind] at hfixed
    rw [Bool.eq_iff_iff, List.all_eq_true, List.all_eq_true]
    refine forall₂_congr fun entry hentry => ?_
    obtain ⟨key, value⟩ := entry
    have htext := @text?_requoted n key (hfixed key (List.mem_cons_of_mem _ (List.mem_map.mpr ⟨_, hentry, rfl⟩)))
    simp only [htext]
  have hkind : n.requoted.kind = n.kind := rfl
  rw [catalogued?_eq, catalogued?_eq, hkind, List.find?_congr hfind]

theorem mem_of_catalogued? {n : Node} {e : Entry} (h : n.catalogued? = some e) : e ∈ Catalogue.ofKind n.kind := by
  rw [catalogued?, Option.or_eq_some_iff] at h
  rcases h with h | ⟨-, h⟩
  · exact List.mem_of_find?_eq_some h
  · exact List.mem_of_head? h

end Node

theorem Catalogue.isQuoted_codeBlock (kind : String) : isQuoted kind "codeBlock" = false := by
  rw [isQuoted, List.any_eq_false]
  intro e he hany
  simp only [Bool.and_eq_true, List.any_eq_true, beq_iff_eq] at hany
  obtain ⟨-, arg, harg, hkey, -⟩ := hany
  refine codeBlock_free e he (List.mem_cons_of_mem _ (List.mem_append_left _ ?_))
  exact hkey ▸ List.mem_map_of_mem harg

/-- Requoted data are written the same. -/
theorem Emission.ofNode_requoted (n : Node) : Emission.ofNode n.requoted = Emission.ofNode n := by
  have hcode : n.requoted.codeBlock? = n.codeBlock? := Node.filled?_requoted (Catalogue.isQuoted_codeBlock n.kind)
  have hkind : n.requoted.kind = n.kind := rfl
  rw [ofNode, ofNode, hcode, hkind]
  cases n.codeBlock? with
  | some code => rfl
  | none =>
    cases hk : NodeKind.ofTag? n.kind with
    | none => rfl
    | some k =>
      rcases NodeKind.ofTag?_cases hk with ⟨hstructural, htag⟩ | ⟨first, hfirst, rfl⟩
      · have hsame : n.requoted = n := by
          have hdata : n.data.requoted n.kind = n.data :=
            Fields.requoted_eq_self fun key _ => htag ▸ Catalogue.isQuoted_structural hstructural key
          rw [Node.requoted, hdata]
        rw [hsame]
      · have hentry : n.catalogued?.getD first ∈ Catalogue.ofKind n.kind := by
          cases he : n.catalogued? with
          | none => exact hfirst
          | some e => exact Node.mem_of_catalogued? he
        obtain ⟨hmem, hentryKind⟩ := Catalogue.mem_ofKind hentry
        simp only [ofKind, Node.catalogued?_requoted, CallText.ofNode_requoted hmem hentryKind]

theorem emission_requoted (kind : String) (data : Fields) : emission kind (data.requoted kind) = emission kind data :=
  Emission.ofNode_requoted { id := "", kind, data }

namespace Outline.Says

variable {kind : String} {data data' : Fields} {ss : List Script}
  {body body' consequent consequent' alternate alternate' os os' : List Outline}

/-- The script depends on how a node is written, and on the scripts of what follows. -/
theorem leaf_congr (h : Says (.leaf kind data :: os) ss) (he : emission kind data' = emission kind data)
    (hos : ∀ ss, Says os ss → Says os' ss) : Says (.leaf kind data' :: os') ss := by
  cases h with
  | line hk hline h => exact .line hk (he.trans hline) (hos _ h)
  | last hk hlast => exact .last hk (he.trans hlast)

theorem block_congr (h : Says (.block kind data body :: os) ss) (he : emission kind data' = emission kind data)
    (hb : ∀ ss, Says body ss → Says body' ss) (hos : ∀ ss, Says os ss → Says os' ss) :
    Says (.block kind data' body' :: os') ss := by
  cases h with
  | block hk hblock hbody h => exact .block hk (he.trans hblock) (hb _ hbody) (hos _ h)

theorem branch_congr (h : Says (.branch kind data consequent alternate :: os) ss)
    (hc : ∀ ss, Says consequent ss → Says consequent' ss) (ha : ∀ ss, Says alternate ss → Says alternate' ss)
    (hos : ∀ ss, Says os ss → Says os' ss) : Says (.branch kind data consequent' alternate' :: os') ss := by
  cases h with
  | branch he hcode hcond hthen helse h => exact .branch he hcode hcond (hc _ hthen) (ha _ helse) (hos _ h)

theorem tail_congr {o : Outline} (h : Says (o :: os) ss) (hos : ∀ ss, Says os ss → Says os' ss) :
    Says (o :: os') ss := by
  cases o with
  | leaf => exact h.leaf_congr rfl hos
  | block => exact h.block_congr rfl (fun _ => id) hos
  | branch => exact h.branch_congr (fun _ => id) (fun _ => id) hos

end Outline.Says

/-- The graph with the values of quoted fields as they are written. -/
def Graph.requoted (g : Graph) : Graph := { g with nodes := g.nodes.map Node.requoted }

namespace Builder

def requoted (b : Builder) : Builder := { b with graph := b.graph.requoted }

theorem add_requoted (layout : Layout) (depth : Nat) (kind : String) (data : Fields) (b : Builder) :
    b.requoted.add layout depth kind (data.requoted kind) = (b.add layout depth kind data).requoted := by
  obtain ⟨mark, ⟨nodes, edges⟩, parent, handle⟩ := b
  cases parent <;> simp [add, requoted, Graph.requoted, Node.requoted, nextId, Graph.connect]

theorem nextId_requoted (b : Builder) : b.requoted.nextId = b.nextId := by
  simp [nextId, requoted, Graph.requoted]

theorem leaf_requoted (layout : Layout) (depth : Nat) (kind : String) (data : Fields) (b : Builder) :
    b.requoted.leaf layout depth kind (data.requoted kind) = (b.leaf layout depth kind data).requoted := by
  rw [leaf, leaf, add_requoted, nextId_requoted]
  rfl

theorem addOutlines_requotedAll (layout : Layout) (os : List Outline) : ∀ (depth : Nat) (b : Builder),
    addOutlines layout depth (Outline.requotedAll os) b.requoted = (addOutlines layout depth os b).requoted := by
  induction os using Outline.listInduction with
  | nil =>
    intro depth b
    rw [Outline.requotedAll, addOutlines, addOutlines]
  | leaf kind data os ih =>
    intro depth b
    rw [Outline.requotedAll, addOutlines, addOutlines, ← ih, addOutline, addOutline, leaf_requoted]
  | block kind data body os ihb iho =>
    intro depth b
    have hbody := ihb (depth + 1) (b.leaf layout depth kind data)
    rw [Outline.requotedAll, addOutlines, addOutlines, ← iho, addOutline, addOutline, block, block, leaf_requoted,
      hbody]
    rfl
  | branch kind data consequent alternate os ihc iha iho =>
    intro depth b
    have hthen := ihc (depth + 1) { b.add layout depth kind data with parent := some b.nextId, handle := .onTrue }
    have helse := iha (depth + 1) { addOutlines layout (depth + 1) consequent
      { b.add layout depth kind data with parent := some b.nextId, handle := .onTrue } with
      parent := some b.nextId, handle := .onFalse }
    rw [Outline.requotedAll, addOutlines, addOutlines, ← iho, addOutline, addOutline, branch, branch, add_requoted,
      nextId_requoted]
    simp only [requoted] at hthen helse ⊢
    rw [hthen, helse]

end Builder

/-- A program whose outline is the requoted one has the requoted graph. -/
theorem Graph.ofProgram_eq_requoted (layout : Layout) {p q : Program}
    (h : Stmt.outlines q = Outline.requotedAll (Stmt.outlines p)) (mark : String) :
    Graph.ofProgram layout q mark = (Graph.ofProgram layout p mark).requoted := by
  rw [ofProgram_eq, ofProgram_eq, h]
  exact congrArg Builder.graph (Builder.addOutlines_requotedAll layout (Stmt.outlines p) 0 { mark })

/-- The step with the values of quoted fields as they are written. -/
def Step.requoted (s : Step) : Step := { s with data := s.data.requoted s.kind }

theorem Outline.map_fst_steps_requotedAll (os : List Outline) : ∀ depth handle,
    (steps depth handle (requotedAll os)).map Prod.fst = ((steps depth handle os).map Prod.fst).map Step.requoted := by
  induction os using listInduction with
  | nil =>
    intro depth handle
    rw [requotedAll, steps, List.map_nil, List.map_nil]
  | leaf kind data os ih =>
    intro depth handle
    simp only [requotedAll, steps, List.map_cons, ih, Step.requoted]
  | block kind data body os ihb iho =>
    intro depth handle
    simp only [requotedAll, steps, List.map_cons, List.map_append, ihb, iho, Step.requoted]
  | branch kind data consequent alternate os ihc iha iho =>
    intro depth handle
    simp only [requotedAll, steps, List.map_cons, List.map_append, ihc, iha, iho, Step.requoted]

end ScriptGraph
