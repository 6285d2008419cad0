import ScriptGraph.Proofs.CallFields
import ScriptGraph.Proofs.Outline

/-- A part of a list without repetitions is known from its members. -/
theorem List.Sublist.filter_mem_eq {α : Type} [DecidableEq α] {l m : List α} (h : l.Sublist m) (hm : m.Nodup) :
    m.filter (· ∈ l) = l := by
  induction h with
  | slnil => rfl
  | cons a h ih =>
    obtain ⟨ha, hm⟩ := List.nodup_cons.mp hm
    rw [List.filter_cons_of_neg (by simpa using fun hl => ha (h.subset hl)), ih hm]
  | @cons_cons l m a h ih =>
    obtain ⟨ha, hm⟩ := List.nodup_cons.mp hm
    have hcongr : m.filter (· ∈ a :: l) = m.filter (· ∈ l) := by
      refine List.filter_congr fun b hb => ?_
      have hne : b ≠ a := fun he => ha (he ▸ hb)
      simp [hne]
    rw [List.filter_cons_of_pos (by simp), hcongr, ih hm]

namespace ScriptGraph

/-- A value that equals no other one. -/
def Json.IsPlain : Json → Prop
  | .string _ | .bool _ => True
  | _ => False

theorem Json.IsPlain.eq_of_same {v w : Json} (h : v.IsPlain) (hs : v.same w = true) : v = w := by
  cases v with
  | string s => cases w <;> simp_all [Json.same]
  | bool b => cases w <;> simp_all [Json.same]
  | _ => exact h.elim

namespace Fields

theorem get?_cons_of_ne {key k : String} {v : Json} {fields : Fields} (h : k ≠ key) :
    get? ((k, v) :: fields) key = get? fields key := by
  simp [get?, h]

theorem get?_cons_self {key : String} {v : Json} {fields : Fields} : get? ((key, v) :: fields) key = some v := by
  simp [get?]

theorem eq_of_keys_eq {fs gs : Fields} (hk : fs.keys = gs.keys) (hn : fs.keys.Nodup)
    (hv : ∀ e ∈ fs, gs.get? e.1 = some e.2) : fs = gs := by
  induction fs generalizing gs with
  | nil =>
    cases gs with
    | nil => rfl
    | cons e gs => simp at hk
  | cons e fs ih =>
    obtain ⟨k, v⟩ := e
    cases gs with
    | nil => simp at hk
    | cons e' gs =>
      obtain ⟨k', v'⟩ := e'
      simp only [keys_cons, List.cons.injEq, List.nodup_cons, List.forall_mem_cons] at hk hn hv
      obtain ⟨rfl, hk⟩ := hk
      obtain ⟨hhead, htail⟩ := hv
      rw [get?_cons_self] at hhead
      obtain rfl := Option.some.inj hhead
      rw [ih hk hn.2 fun e he => ?_]
      have hne : k ≠ e.1 := fun hke => hn.1 (hke ▸ List.mem_map_of_mem he)
      rw [← htail e he, get?_cons_of_ne hne]

theorem mem_keys_of_get? {fs : Fields} {key : String} {v : Json} (h : fs.get? key = some v) : key ∈ fs.keys := by
  obtain ⟨e, he, rfl⟩ := Option.map_eq_some_iff.mp h
  have hkey : e.1 = key := by simpa using List.find?_some he
  exact hkey ▸ List.mem_map_of_mem (List.mem_of_find?_eq_some he)

/-- Plain data whose fields come from one list are equal as soon as they are the same. -/
theorem eq_of_same {names : List String} (hn : names.Nodup) {fs gs : Fields} (hf : fs.keys.Sublist names)
    (hg : gs.keys.Sublist names) (hp : ∀ e ∈ fs, e.2.IsPlain) (h : fs.same gs = true) : fs = gs := by
  simp only [same, Json.same, Bool.and_eq_true, beq_iff_eq] at h
  obtain ⟨hlength, hentries⟩ := h
  have hv : ∀ e ∈ fs, gs.get? e.1 = some e.2 := by
    clear hf hlength
    induction fs with
    | nil => simp
    | cons e fs ih =>
      obtain ⟨k, v⟩ := e
      simp only [Json.sameEntries, Bool.and_eq_true] at hentries
      obtain ⟨hplain, hp⟩ := List.forall_mem_cons.mp hp
      refine List.forall_mem_cons.mpr ⟨?_, ih hp hentries.2⟩
      have hsame := hentries.1
      split at hsame
      · rename_i w hw
        rw [hplain.eq_of_same hsame, hw]
      · cases hsame
  have hsubset : fs.keys ⊆ gs.keys := by
    intro k hk
    obtain ⟨e, he, rfl⟩ := List.mem_map.mp hk
    exact mem_keys_of_get? (hv e he)
  have hkeys : fs.keys = gs.keys := by
    have hsub : fs.keys.Sublist gs.keys := by
      rw [← hg.filter_mem_eq hn]
      have hown : fs.keys.filter (· ∈ gs.keys) = fs.keys :=
        List.filter_eq_self.mpr fun k hk => by simpa using hsubset hk
      rw [← hown]
      exact hf.filter _
    exact hsub.eq_of_length (by simpa [keys] using hlength)
  exact eq_of_keys_eq hkeys (hf.nodup hn) hv

end Fields

/-- What a node encloses: nothing, a body, or two branches. -/
inductive Outline.Shape where
  | leaf | block | branch
  deriving DecidableEq

namespace NodeKind

def all : List NodeKind := structural ++ Catalogue.entries.map call

/-- The fields that the data of a node can have. -/
def keys : NodeKind → List String
  | function => ["label", "functionName", "parameters", "isLocal"]
  | conditional | whileLoop => ["label", "condition"]
  | forLoop => ["label", "loopVar", "startVal", "endVal", "step"]
  | forEach => ["label", "variables", "iterable"]
  | giveBack => ["label", "returnValue"]
  | declaration => ["label", "varName", "varValue", "codeBlock"]
  | code => ["label", "codeBlock"]
  | call entry => "label" :: entry.keys

def isCall : NodeKind → Bool
  | call _ => true
  | _ => false

/-- What a node with these data encloses. A call does so if it has a handler. -/
def shape (data : Fields) : NodeKind → Outline.Shape
  | conditional => .branch
  | function | whileLoop | forLoop | forEach => .block
  | call _ => if handlerParams ∈ data.keys then .block else .leaf
  | giveBack | declaration | code => .leaf

/-- Data that the nodes of the kind can have. -/
structure Holds (k : NodeKind) (data : Fields) : Prop where
  mem : k ∈ all
  keys : data.keys.Sublist k.keys
  plain : ∀ e ∈ data, e.2.IsPlain

theorem nodup_keys : ∀ k ∈ all, k.keys.Nodup := by
  decide +kernel

/-- Kinds with one tag are equal, or calls with the same fields. -/
theorem keys_eq_of_tag_eq : ∀ k ∈ all, ∀ l ∈ all, k.tag = l.tag →
    k.keys = l.keys ∧ (k = l ∨ k.isCall = true ∧ l.isCall = true) := by
  decide +kernel

end NodeKind

namespace Outline

def Apt (shape : Shape) (kind : String) (data : Fields) : Prop :=
  ∃ k : NodeKind, kind = k.tag ∧ k.Holds data ∧ shape = k.shape data

theorem Apt.data_eq {shape shape' : Shape} {kind : String} {data data' : Fields} (h : Apt shape kind data)
    (h' : Apt shape' kind data') (hs : data.same data' = true) : data = data' := by
  obtain ⟨k, rfl, hk, -⟩ := h
  obtain ⟨l, htag, hl, -⟩ := h'
  have hkeys := (NodeKind.keys_eq_of_tag_eq k hk.mem l hl.mem htag).1
  exact Fields.eq_of_same (NodeKind.nodup_keys k hk.mem) hk.keys (hkeys ▸ hl.keys) hk.plain hs

theorem Apt.shape_eq {shape shape' : Shape} {kind : String} {data : Fields} (h : Apt shape kind data)
    (h' : Apt shape' kind data) : shape = shape' := by
  obtain ⟨k, rfl, hk, rfl⟩ := h
  obtain ⟨l, htag, hl, rfl⟩ := h'
  rcases (NodeKind.keys_eq_of_tag_eq k hk.mem l hl.mem htag).2 with rfl | ⟨hkc, hlc⟩
  · rfl
  · cases k <;> cases l <;> simp_all [NodeKind.isCall, NodeKind.shape]

/-- The property holds of every node. -/
def EveryAll (P : Shape → String → Fields → Prop) : List Outline → Prop
  | [] => True
  | .leaf kind data :: os => P .leaf kind data ∧ EveryAll P os
  | .block kind data body :: os => P .block kind data ∧ EveryAll P body ∧ EveryAll P os
  | .branch kind data consequent alternate :: os =>
    P .branch kind data ∧ EveryAll P consequent ∧ EveryAll P alternate ∧ EveryAll P os

theorem everyAll_cons {P : Shape → String → Fields → Prop} {o : Outline} {os : List Outline} :
    EveryAll P (o :: os) ↔ EveryAll P [o] ∧ EveryAll P os := by
  cases o <;> simp [EveryAll, and_assoc]

end Outline

namespace Builder

theorem labelled_eq (label : String) {fields : List (String × String)} (h : ("label" :: fields.map Prod.fst).Nodup) :
    labelled label fields = ("label", .string label) :: fields.map fun f => (f.1, .string f.2) := by
  have hkeys : Fields.keys (fields.map fun f => (f.1, Json.string f.2)) = fields.map Prod.fst := by simp [Fields.keys]
  obtain ⟨hlabel, hnodup⟩ := List.nodup_cons.mp h
  have happend := @Fields.insertAll_of_disjoint [("label", .string label)] _ (hkeys ▸ hnodup) (by
    intro k hk hm
    rw [hkeys] at hk
    obtain rfl : k = "label" := by simpa using hm
    exact hlabel hk)
  exact happend

theorem functionData_eq (name : String) (params : List String) (isLocal : Bool) :
    functionData name params isLocal = [("label", .string name), ("functionName", .string name),
      ("parameters", .string (", ".intercalate params)), ("isLocal", .bool isLocal)] := by
  rw [functionData, labelled_eq _ (by simp), Fields.insert_of_not_mem (by simp)]
  rfl

end Builder

/-- Data that a node gets from a list of texts. -/
theorem NodeKind.Holds.labelled {k : NodeKind} {label : String} {fields : List (String × String)}
    (hk : k ∈ NodeKind.all)
    (hf : ("label" :: fields.map Prod.fst).Sublist k.keys) : k.Holds (Builder.labelled label fields) := by
  rw [Builder.labelled_eq label (hf.nodup (nodup_keys k hk))]
  refine ⟨hk, by simpa [Fields.keys, Function.comp_def] using hf, List.forall_mem_cons.mpr ⟨trivial, fun e he => ?_⟩⟩
  obtain ⟨f, -, rfl⟩ := List.mem_map.mp he
  trivial

theorem Catalogue.params_free : ∀ e ∈ entries, (∀ f ∈ e.fields, f.name ≠ handlerParams) ∧
    handlerParams ∉ e.fixed.map Prod.fst := by
  decide +kernel

/-- The data of a call have parameters only if it has a handler. -/
theorem Arg.Fill.isSome_of_params {e : Entry} {args : List Expr} {fs fields : Fields} {body : Option (List Stmt)}
    (h : Fill e.args args fs body) (he : e ∈ Catalogue.entries) (hf : fields = fs ++ e.fixedFields) {label : Json}
    (hm : handlerParams ∈ Fields.keys (("label", label) :: fields)) : body.isSome = true := by
  obtain ⟨hnames, hfixed⟩ := Catalogue.params_free e he
  refine h.isSome_of_mem_params (fun f hf => hnames f (List.mem_filterMap.mpr ⟨_, hf, rfl⟩)) ?_
  rw [Fields.keys_cons, hf, Fields.keys_append] at hm
  rcases List.mem_cons.mp hm with hm | hm
  · exact absurd hm (by decide : handlerParams ≠ "label")
  · refine (List.mem_append.mp hm).resolve_right fun hm => hfixed ?_
    simpa [Entry.fixedFields, Fields.keys, Function.comp_def] using hm

namespace Outline

theorem apt_ofCall (callee : String) (args : List Expr) (text : String) {body : List Outline}
    (hb : EveryAll Apt body) : EveryAll Apt [ofCall callee args text body] := by
  unfold ofCall
  split
  · simp only [EveryAll, and_true]
    exact ⟨.code, rfl, .labelled (by decide) (List.Sublist.refl _), rfl⟩
  · rename_i m hm
    obtain ⟨hentry, fs, hfill, hfields⟩ := CallMatch.ofCall?_eq_some_iff.mp hm
    have he := Catalogue.mem_of_lookup? hentry
    have hkeys : m.fields.keys.Sublist m.entry.keys := by
      rw [hfields, Fields.keys_append]
      refine hfill.keys_sublist.append ?_
      simp [Entry.fixedFields, Fields.keys, Function.comp_def]
    have hdata : (Builder.labelled m.entry.title []).insertAll m.fields =
        ("label", .string m.entry.title) :: m.fields := by
      have hnodup := List.nodup_cons.mp (Catalogue.nodup_keys m.entry he)
      refine Fields.insertAll_of_disjoint (hkeys.nodup hnodup.2) fun k hk hm => ?_
      obtain rfl : k = "label" := by simpa [Builder.labelled, Fields.insertAll] using hm
      exact hnodup.1 (hkeys.subset hk)
    have hholds : (NodeKind.call m.entry).Holds (("label", .string m.entry.title) :: m.fields) := by
      refine ⟨List.mem_append_right _ (List.mem_map_of_mem he), hkeys.cons_cons "label",
        List.forall_mem_cons.mpr ⟨trivial, fun e hm => ?_⟩⟩
      rw [hfields] at hm
      rcases List.mem_append.mp hm with hm | hm
      · obtain ⟨s, hs⟩ := hfill.values_string e hm
        rw [hs]
        trivial
      · obtain ⟨f, -, rfl⟩ := List.mem_map.mp hm
        trivial
    simp only [hdata]
    cases hbody : m.body with
    | none =>
      have hnone : handlerParams ∉ Fields.keys (("label", .string m.entry.title) :: m.fields) := fun hmem =>
        absurd (hfill.isSome_of_params he hfields hmem) (by simp [hbody])
      simp only [Option.isSome_none, Bool.false_eq_true, if_false, EveryAll, and_true]
      exact ⟨.call m.entry, rfl, hholds, by simp only [NodeKind.shape, if_neg hnone]⟩
    | some ss =>
      have hmem : handlerParams ∈ Fields.keys (("label", .string m.entry.title) :: m.fields) := by
        rw [Fields.keys_cons, hfields, Fields.keys_append]
        exact List.mem_cons_of_mem _ (List.mem_append_left _ (hfill.mem_params (by simp [hbody])))
      simp only [Option.isSome_some, if_true, EveryAll, and_true]
      exact ⟨⟨.call m.entry, rfl, hholds, by simp only [NodeKind.shape, if_pos hmem]⟩, hb⟩

theorem apt_leaf {kind : NodeKind} {label : String} {fields : List (String × String)} (hk : kind ∈ NodeKind.all)
    (hf : ("label" :: fields.map Prod.fst).Sublist kind.keys)
    (hs : kind.shape (Builder.labelled label fields) = .leaf) :
    EveryAll Apt [.leaf kind.tag (Builder.labelled label fields)] := by
  simp only [EveryAll, and_true]
  exact ⟨kind, rfl, .labelled hk hf, hs.symm⟩

theorem apt_block {kind : NodeKind} {data : Fields} {body : List Outline} (hd : kind.Holds data)
    (hs : kind.shape data = .block) (hb : EveryAll Apt body) : EveryAll Apt [.block kind.tag data body] := by
  simp only [EveryAll, and_true]
  exact ⟨⟨kind, rfl, hd, hs.symm⟩, hb⟩

/-- Every node of a program has the shape and the fields of its kind. -/
theorem apt_outlines (ss : List Stmt) : EveryAll Apt (Stmt.outlines ss) := by
  have hcode (label text : String) :
      EveryAll Apt [.leaf NodeKind.code.tag (Builder.labelled label [("codeBlock", text)])] :=
    apt_leaf (by decide) (List.Sublist.refl _) rfl
  induction ss using Stmt.bodyInduction with
  | nil =>
    rw [Stmt.outlines]
    simp only [EveryAll]
  | cons line action ss hb hss =>
    rw [Stmt.outlines]
    refine everyAll_cons.mpr ⟨?_, hss⟩
    rw [Stmt.outline]
    cases action with
    | declare name value =>
      rw [Action.outline]
      exact apt_leaf (by decide) (List.Sublist.refl _) rfl
    | assign target op value =>
      rw [Action.outline]
      exact apt_leaf (by decide) (List.Sublist.refl _) rfl
    | define name params body isLocal isMethod =>
      rw [Action.outline]
      refine apt_block ⟨by decide, ?_, ?_⟩ rfl (hb body (by simp [Action.bodies]))
      · rw [Builder.functionData_eq]
        exact List.Sublist.refl _
      · rw [Builder.functionData_eq]
        simp [Json.IsPlain]
    | conditional condition consequent alternate =>
      rw [Action.outline, Stmt.alternateOutlines_eq]
      simp only [EveryAll, and_true]
      exact ⟨⟨.conditional, rfl, .labelled (by decide) (List.Sublist.refl _), rfl⟩, hb _ (by simp [Action.bodies]),
        hb _ (by simp [Action.bodies])⟩
    | whileLoop condition body =>
      rw [Action.outline]
      exact apt_block (.labelled (by decide) (List.Sublist.refl _)) rfl (hb body (by simp [Action.bodies]))
    | forLoop counter first last step body =>
      rw [Action.outline]
      refine apt_block (.labelled (by decide) ?_) rfl (hb body (by simp [Action.bodies]))
      cases step with
      | none => exact (List.prefix_append ["label", "loopVar", "startVal", "endVal"] ["step"]).sublist
      | some step => exact List.Sublist.refl _
    | forEach names iterable body =>
      rw [Action.outline]
      exact apt_block (.labelled (by decide) (List.Sublist.refl _)) rfl (hb body (by simp [Action.bodies]))
    | giveBack values =>
      rw [Action.outline]
      exact apt_leaf (by decide) (List.Sublist.refl _) rfl
    | leaveLoop =>
      rw [Action.outline]
      exact hcode _ _
    | evaluate e =>
      rw [Action.outline]
      cases e with
      | call callee args =>
        rw [Expr.outline, Expr.handlerOutlines_eq]
        exact apt_ofCall _ _ _ (hb _ (by simp [Action.bodies]))
      | methodCall object method args =>
        rw [Expr.outline, Expr.handlerOutlines_eq]
        exact apt_ofCall _ _ _ (hb _ (by simp [Action.bodies]))
      | _ =>
        rw [Expr.outline]
        · exact hcode _ _
        all_goals simp

end Outline

end ScriptGraph
