import ScriptGraph.Proofs.Quoting
import ScriptGraph.Proofs.Script

namespace ScriptGraph

theorem Fields.get?_of_mem {fields : Fields} (hn : fields.keys.Nodup) {key : String} {v : Json}
    (h : (key, v) ∈ fields) : fields.get? key = some v := by
  induction fields with
  | nil => cases h
  | cons e fields ih =>
    obtain ⟨k, w⟩ := e
    simp only [keys_cons, List.nodup_cons] at hn
    rcases List.mem_cons.mp h with heq | h
    · cases heq
      exact get?_cons_self
    · have hne : k ≠ key := by
        rintro rfl
        exact hn.1 (List.mem_map.mpr ⟨_, h, rfl⟩)
      rw [get?_cons_of_ne hne, ih hn.2 h]

theorem Fields.get?_eq_none {fields : Fields} {key : String} (h : key ∉ fields.keys) : fields.get? key = none := by
  cases hv : fields.get? key with
  | none => rfl
  | some v => exact absurd (mem_keys_of_get? hv) h

namespace Node

theorem text?_of_mem {n : Node} (hn : n.data.keys.Nodup) {key text : String} (h : (key, .string text) ∈ n.data) :
    n.text? key = some text := by
  rw [text?, Fields.get?_of_mem hn h]

theorem text?_eq_none {n : Node} {key : String} (h : key ∉ n.data.keys) : n.text? key = none := by
  rw [text?, Fields.get?_eq_none h]

theorem filled?_eq_none {n : Node} {key : String} (h : key ∉ n.data.keys) : n.filled? key = none := by
  rw [filled?, text?_eq_none h, Option.filter_none]

theorem filled?_of_text? {n : Node} {key text : String} (h : n.text? key = some text)
    (hb : Text.isBlankText text = false) : n.filled? key = some text := by
  rw [filled?, h, Option.filter_some_pos]
  simp [hb]

end Node

theorem NodeKind.ofTag?_tag : ∀ k ∈ NodeKind.structural, NodeKind.ofTag? k.tag = some k := by
  decide +kernel

theorem NodeKind.ofTag?_cases {tag : String} {k : NodeKind} (h : NodeKind.ofTag? tag = some k) :
    (k ∈ structural ∧ k.tag = tag) ∨ ∃ first ∈ Catalogue.ofKind tag, k = .call first := by
  rw [ofTag?, Option.or_eq_some_iff] at h
  rcases h with h | ⟨-, h⟩
  · exact .inl ⟨List.mem_of_find?_eq_some h, by simpa using List.find?_some h⟩
  · obtain ⟨first, hfirst, rfl⟩ := Option.map_eq_some_iff.mp h
    exact .inr ⟨first, List.mem_of_head? hfirst, rfl⟩

/-- Without code of its own, a node is written as its kind says. -/
theorem emission_of_structural {k : NodeKind} (hk : k ∈ NodeKind.structural) {data : Fields}
    (hc : "codeBlock" ∉ data.keys) : emission k.tag data = Emission.ofKind { id := "", kind := k.tag, data } k := by
  have hcode : Node.codeBlock? { id := "", kind := k.tag, data } = none := Node.filled?_eq_none hc
  rw [emission, Emission.ofNode, hcode, NodeKind.ofTag?_tag k hk]

theorem codeBlock?_of_mem {kind text : String} {data : Fields} (hn : data.keys.Nodup)
    (hc : ("codeBlock", .string text) ∈ data) :
    Node.codeBlock? { id := "", kind, data } = if Text.isBlankText text then none else some text := by
  have htext : Node.text? { id := "", kind, data } "codeBlock" = some text := Node.text?_of_mem hn hc
  rw [Node.codeBlock?, Node.filled?, htext]
  cases h : Text.isBlankText text <;> simp [h]

/-- A text is written as it is, unless it is blank. -/
theorem emission_of_codeBlock {kind text : String} {data : Fields} (hn : data.keys.Nodup)
    (hc : ("codeBlock", .string text) ∈ data) (ht : Text.isBlankText text = false) :
    emission kind data = .line text := by
  rw [emission, Emission.ofNode, codeBlock?_of_mem hn hc, ht]
  rfl

namespace Catalogue

theorem codeBlock_free : ∀ e ∈ entries, "codeBlock" ∉ "label" :: e.keys := by
  decide +kernel

theorem ofTag?_kind : ∀ e ∈ entries, ∃ first ∈ entries, NodeKind.ofTag? e.kind = some (.call first) := by
  decide +kernel

theorem kind_ne_conditional : ∀ e ∈ entries, e.kind ≠ NodeKind.conditional.tag := by
  decide +kernel

/-- Entries of one kind are told apart by their fixed data. -/
theorem eq_or_fixed_ne : ∀ e ∈ entries, ∀ e' ∈ entries, e'.kind = e.kind →
    e' = e ∨ ∃ f ∈ e.fixed, ∃ f' ∈ e'.fixed, f.1 = f'.1 ∧ f.2 ≠ f'.2 := by
  decide +kernel

theorem nodup_args {e : Entry} (he : e ∈ entries) : (e.args.map Arg.key).Nodup :=
  (List.nodup_append.mp (nodup_keys e he).of_cons).1

end Catalogue

/-- A string literal as it is written for a quoted field. -/
def Expr.requoted : Expr → Expr
  | .string value _ => .string (Text.requoted value) '\''
  | e => e

/-- The arguments of a call with the quoted ones as they are written. -/
def Arg.requote : List Arg → List Expr → List Expr
  | .field f :: args, e :: es =>
    match f.style with
    | .quoted => e.requoted :: requote args es
    | .raw => e :: requote args es
    | .rest => e :: es
  | .handler .. :: args, e :: es => e :: requote args es
  | _, es => es

theorem Arg.requote_nil (args : List Arg) : requote args [] = [] := by
  cases args with
  | nil => rfl
  | cons arg args => cases arg <;> rfl

namespace Arg.Fill

variable {args : List Arg} {es : List Expr} {fs : Fields} {body : Option (List Stmt)}

/-- A call with a handler: the arguments before it and those behind it. -/
theorem split (h : Fill args es fs body) {ss : List Stmt} (hb : body = some ss) :
    ∃ args₁ args₂ es₁ es₂ fs₁ fs₂ params optional names,
      args = args₁ ++ .handler params optional :: args₂ ∧ es = es₁ ++ .function names ss :: es₂ ∧
      fs = fs₁ ++ (handlerParams, .string (", ".intercalate names)) :: fs₂ ∧
      Fill args₁ es₁ fs₁ none ∧ Fill args₂ es₂ fs₂ none ∧
      Arg.requote args es = Arg.requote args₁ es₁ ++ .function names ss :: Arg.requote args₂ es₂ := by
  have hempty {args : List Arg} {fs : Fields} {body : Option (List Stmt)} (h : Fill args [] fs body) :
      body ≠ some ss := by
    intro hb
    obtain ⟨names, hmem⟩ := h.mem_of_body hb
    cases hmem
  induction h with
  | nil => cases hb
  | handler params optional h _ =>
    cases hb
    exact ⟨[], _, [], _, [], _, params, optional, _, rfl, rfl, rfl, .nil, h, rfl⟩
  | noHandler _ h _ | absent _ _ h _ | rest _ _ _ h _ | noRest _ _ _ h _ => exact absurd hb (hempty h)
  | quoted hf _ ih =>
    obtain ⟨args₁, args₂, es₁, es₂, fs₁, fs₂, params, optional, names, rfl, rfl, rfl, h₁, h₂, hwritten⟩ := ih hb
    refine ⟨_ :: args₁, args₂, _ :: es₁, es₂, _ :: fs₁, fs₂, params, optional, names, rfl, rfl, rfl, .quoted hf h₁, h₂,
      ?_⟩
    simp only [Arg.requote, hf, hwritten, List.cons_append]
  | raw hf he _ ih =>
    obtain ⟨args₁, args₂, es₁, es₂, fs₁, fs₂, params, optional, names, rfl, rfl, rfl, h₁, h₂, hwritten⟩ := ih hb
    refine ⟨_ :: args₁, args₂, _ :: es₁, es₂, _ :: fs₁, fs₂, params, optional, names, rfl, rfl, rfl, .raw hf he h₁, h₂,
      ?_⟩
    simp only [Arg.requote, hf, hwritten, List.cons_append]

end Arg.Fill

/-- The text of an argument that is no handler, if it is written at all. -/
def Arg.written (n : Node) : Arg → Option String
  | .field f => CallText.fieldText? n f
  | .handler .. => none

namespace CallText

variable {n : Node} {args : List Arg} {es : List Expr} {fs : Fields}

/-- Arguments without a handler are put where the arguments before them were. -/
theorem foldl_add (h : Arg.Fill args es fs none)
    (hp : ∀ params optional, Arg.handler params optional ∈ args → n.text? handlerParams = none) : ∀ p : Parts,
    args.foldl (Parts.add n) p =
      if p.params.isSome then { p with behind := p.behind ++ args.filterMap (Arg.written n) }
      else { p with before := p.before ++ args.filterMap (Arg.written n) } := by
  have hfield {f : FieldSpec} {args : List Arg}
      (ih : ∀ p : Parts, args.foldl (Parts.add n) p =
        if p.params.isSome then { p with behind := p.behind ++ args.filterMap (Arg.written n) }
        else { p with before := p.before ++ args.filterMap (Arg.written n) }) (p : Parts) :
      (Arg.field f :: args).foldl (Parts.add n) p =
        if p.params.isSome then { p with behind := p.behind ++ (Arg.field f :: args).filterMap (Arg.written n) }
        else { p with before := p.before ++ (Arg.field f :: args).filterMap (Arg.written n) } := by
    rw [List.foldl_cons, ih, List.filterMap_cons, Parts.add]
    cases hf : fieldText? n f with
    | none => simp only [Arg.written, hf]
    | some text =>
      cases p.params with
      | none => simp [Arg.written, hf]
      | some params => simp [Arg.written, hf]
  generalize hb : (none : Option (List Stmt)) = body at h
  induction h with
  | nil =>
    intro p
    simp
  | handler => cases hb
  | noHandler params h ih =>
    intro p
    have hnone := hp params true List.mem_cons_self
    rw [List.foldl_cons, ih (fun params optional hm => hp params optional (List.mem_cons_of_mem _ hm)) hb,
      List.filterMap_cons, Parts.add, hnone]
    rfl
  | quoted _ _ ih | raw _ _ _ ih | absent _ _ _ ih | rest _ _ _ _ ih | noRest _ _ _ _ ih =>
    exact hfield (ih (fun params optional hm => hp params optional (List.mem_cons_of_mem _ hm)) hb)

/-- A call without a handler is one line. -/
theorem ofNode_eq_line {e : Entry} (h : Arg.Fill e.args es fs none)
    (hp : ∀ params optional, Arg.handler params optional ∈ e.args → n.text? handlerParams = none) :
    ofNode e n = .line (e.callee ++ "(" ++ ", ".intercalate (e.args.filterMap (Arg.written n)) ++ ")") := by
  rw [ofNode, foldl_add h hp]
  simp

/-- A call with a handler is written around its body. -/
theorem ofNode_eq_block {e : Entry} {args₁ args₂ : List Arg} {es₁ es₂ : List Expr} {fs₁ fs₂ : Fields}
    {params recorded : String} {optional : Bool} (hn : (e.args.map Arg.key).Nodup)
    (hargs : e.args = args₁ ++ .handler params optional :: args₂) (h₁ : Arg.Fill args₁ es₁ fs₁ none)
    (h₂ : Arg.Fill args₂ es₂ fs₂ none) (hp : n.text? handlerParams = some recorded) :
    ofNode e n = .block
      (e.callee ++ "(" ++ String.join ((args₁.filterMap (Arg.written n)).map (· ++ ", ")) ++ "function(" ++ recorded ++
        ")")
      ("end" ++ String.join ((args₂.filterMap (Arg.written n)).map (", " ++ ·)) ++ ")") := by
  -- the key of a handler is taken, so there is no second one
  rw [hargs, List.map_append, List.map_cons] at hn
  obtain ⟨-, hbehind, hapart⟩ := List.nodup_append.mp hn
  have hnone₁ (params' : String) (optional' : Bool) (hm : .handler params' optional' ∈ args₁) :
      n.text? handlerParams = none :=
    absurd rfl (hapart _ (List.mem_map_of_mem hm) _ List.mem_cons_self)
  have hnone₂ (params' : String) (optional' : Bool) (hm : .handler params' optional' ∈ args₂) :
      n.text? handlerParams = none :=
    absurd (List.mem_map_of_mem (f := Arg.key) hm) (List.nodup_cons.mp hbehind).1
  rw [ofNode, hargs, List.foldl_append, List.foldl_cons, foldl_add h₁ hnone₁, foldl_add h₂ hnone₂]
  simp [Parts.add, hp]

end CallText

/-- The fixed data of an entry single it out among the entries of its kind. -/
theorem Node.catalogued?_of_fixed {e : Entry} (he : e ∈ Catalogue.entries) {n : Node} (hk : n.kind = e.kind)
    (hfixed : ∀ f ∈ e.fixed, n.text? f.1 = some f.2) : n.catalogued? = some e := by
  have hfind : (Catalogue.ofKind e.kind).find? (fun e => e.fixed.all fun f => n.text? f.1 == some f.2) = some e := by
    have hmem : e ∈ Catalogue.ofKind e.kind := by simp [Catalogue.ofKind, he]
    have hall : (e.fixed.all fun f => n.text? f.1 == some f.2) = true := by
      rw [List.all_eq_true]
      intro f hf
      simp [hfixed f hf]
    have hsome : ((Catalogue.ofKind e.kind).find?
        (fun e => e.fixed.all fun f => n.text? f.1 == some f.2)).isSome = true :=
      List.find?_isSome.mpr ⟨e, hmem, hall⟩
    obtain ⟨e', he'⟩ := Option.isSome_iff_exists.mp hsome
    have hkind := List.mem_filter.mp (List.mem_of_find?_eq_some he')
    have hagree := List.find?_some he'
    rcases Catalogue.eq_or_fixed_ne e he e' hkind.1 (by simpa using hkind.2) with rfl | ⟨f, hf, f', hf', hkey, hne⟩
    · exact he'
    · -- the node has other fixed data
      have htext : n.text? f'.1 = some f'.2 := by
        simpa using List.all_eq_true.mp hagree f' hf'
      rw [← hkey, hfixed f hf] at htext
      exact absurd (Option.some.inj htext) hne
  rw [Node.catalogued?_eq, hk, hfind, Option.some_or]

namespace CallMatch

variable {callee : String} {args : List Expr} {m : CallMatch}

/-- The data of the node. -/
def data (m : CallMatch) : Fields := ("label", .string m.entry.title) :: m.fields

theorem keys_sublist (h : ofCall? callee args = some m) : m.fields.keys.Sublist m.entry.keys := by
  obtain ⟨-, fs, hfill, hfields⟩ := ofCall?_eq_some_iff.mp h
  rw [hfields, Fields.keys_append]
  refine hfill.keys_sublist.append ?_
  simp [Entry.fixedFields, Fields.keys, Function.comp_def]

theorem mem_entries (h : ofCall? callee args = some m) : m.entry ∈ Catalogue.entries :=
  Catalogue.mem_of_lookup? (ofCall?_eq_some_iff.mp h).1

theorem nodup_data (h : ofCall? callee args = some m) : m.data.keys.Nodup :=
  ((keys_sublist h).cons_cons "label").nodup (Catalogue.nodup_keys m.entry (mem_entries h))

theorem labelled_insertAll (h : ofCall? callee args = some m) :
    (Builder.labelled m.entry.title []).insertAll m.fields = m.data := by
  have hnodup := List.nodup_cons.mp (nodup_data h)
  refine Fields.insertAll_of_disjoint hnodup.2 fun k hk hm => ?_
  obtain rfl : k = "label" := by simpa [Builder.labelled, Fields.insertAll] using hm
  exact hnodup.1 hk

/-- The node of a call. -/
def node (m : CallMatch) : Node := { id := "", kind := m.entry.kind, data := m.data }

theorem text?_node (h : ofCall? callee args = some m) {key text : String} (hm : (key, .string text) ∈ m.fields) :
    m.node.text? key = some text :=
  Node.text?_of_mem (nodup_data h) (List.mem_cons_of_mem _ hm)

/-- The fixed data lead back to the entry. -/
theorem catalogued?_node (h : ofCall? callee args = some m) : m.node.catalogued? = some m.entry := by
  refine Node.catalogued?_of_fixed (mem_entries h) rfl fun f hf => text?_node h ?_
  obtain ⟨-, fs, -, hfields⟩ := ofCall?_eq_some_iff.mp h
  rw [hfields]
  exact List.mem_append_right _ (List.mem_map_of_mem hf)

/-- The node of a call is written as a call of its entry. -/
theorem emission_node (h : ofCall? callee args = some m) :
    emission m.entry.kind m.data = Emission.ofCallText (.ofNode m.entry m.node) := by
  have he := mem_entries h
  have hcode : m.node.codeBlock? = none := by
    refine Node.filled?_eq_none fun hm => Catalogue.codeBlock_free m.entry he ?_
    exact ((keys_sublist h).cons_cons "label").subset hm
  obtain ⟨first, -, hfirst⟩ := Catalogue.ofTag?_kind m.entry he
  change Emission.ofNode m.node = _
  have htag : NodeKind.ofTag? m.node.kind = some (.call first) := hfirst
  rw [Emission.ofNode, hcode, htag]
  change Emission.ofCallText (.ofNode (m.node.catalogued?.getD first) m.node) = _
  rw [catalogued?_node h, Option.getD_some]

end CallMatch

/-- A call as an outline. -/
theorem Outline.ofCall_of_some {callee : String} {args : List Expr} {m : CallMatch}
    (h : CallMatch.ofCall? callee args = some m) (text : String) (body : List Outline) :
    Outline.ofCall callee args text body =
      if m.body.isSome then .block m.entry.kind m.data body else .leaf m.entry.kind m.data := by
  rw [ofCall, h]
  simp only [CallMatch.labelled_insertAll h]

end ScriptGraph
