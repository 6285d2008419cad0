import Mathlib.Data.List.Nodup
import ScriptGraph.Catalogue.Call

namespace ScriptGraph

namespace Fields

def keys (fields : Fields) : List String := fields.map Prod.fst

@[simp] theorem keys_nil : keys [] = [] := rfl

@[simp] theorem keys_cons (e : String × Json) (fields : Fields) : keys (e :: fields) = e.1 :: keys fields := rfl

@[simp] theorem keys_append (fs gs : Fields) : keys (fs ++ gs) = keys fs ++ keys gs := List.map_append ..

theorem insert_of_not_mem {fields : Fields} {key : String} (h : key ∉ fields.keys) (value : Json) :
    fields.insert key value = fields ++ [(key, value)] := by
  induction fields with
  | nil => rfl
  | cons e fields ih =>
    simp only [keys_cons, List.mem_cons, not_or] at h
    rw [insert, if_neg (Ne.symm h.1), ih h.2, List.cons_append]

theorem insertAll_of_disjoint {fields more : Fields} (hn : more.keys.Nodup) (hd : ∀ k ∈ more.keys, k ∉ fields.keys) :
    fields.insertAll more = fields ++ more := by
  induction more generalizing fields with
  | nil => simp [insertAll]
  | cons e more ih =>
    simp only [keys_cons, List.nodup_cons, List.forall_mem_cons] at hn hd
    have hrest : insertAll (insert fields e.1 e.2) more = insert fields e.1 e.2 ++ more := by
      refine ih hn.2 fun k hk => ?_
      rw [insert_of_not_mem hd.1, keys_append, List.mem_append, not_or]
      refine ⟨hd.2 k hk, ?_⟩
      simp only [keys_cons, keys_nil, List.mem_singleton]
      rintro rfl
      exact hn.1 hk
    rw [insert_of_not_mem hd.1, List.append_assoc] at hrest
    simpa [insertAll, insert_of_not_mem hd.1] using hrest

end Fields

/-- The field that an argument is kept in. -/
def Arg.key : Arg → String
  | .field spec => spec.name
  | .handler .. => handlerParams

/-- The expressions fill the arguments one by one, and give these fields and this handler. -/
inductive Arg.Fill : List Arg → List Expr → Fields → Option (List Stmt) → Prop
  | nil : Fill [] [] [] none
  | handler {args : List Arg} {es : List Expr} {fs : Fields} {names : List String} {body : List Stmt}
      (params : String) (optional : Bool) (h : Fill args es fs none) :
      Fill (.handler params optional :: args) (.function names body :: es)
        ((handlerParams, .string (", ".intercalate names)) :: fs) (some body)
  | noHandler {args : List Arg} {fs : Fields} {body : Option (List Stmt)} (params : String) (h : Fill args [] fs body) :
      Fill (.handler params true :: args) [] fs body
  | quoted {args : List Arg} {es : List Expr} {fs : Fields} {body : Option (List Stmt)} {f : FieldSpec} {s : String}
      {quote : Char} (hf : f.style = .quoted) (h : Fill args es fs body) :
      Fill (.field f :: args) (.string s quote :: es) ((f.name, .string s) :: fs) body
  | raw {args : List Arg} {e : Expr} {es : List Expr} {fs : Fields} {body : Option (List Stmt)} {f : FieldSpec}
      (hf : f.style = .raw) (he : e.isFunction = false) (h : Fill args es fs body) :
      Fill (.field f :: args) (e :: es) ((f.name, .string e.text) :: fs) body
  | absent {args : List Arg} {fs : Fields} {body : Option (List Stmt)} {f : FieldSpec} (hf : f.style ≠ .rest)
      (ho : f.optional = true) (h : Fill args [] fs body) : Fill (.field f :: args) [] fs body
  | rest {args : List Arg} {es : List Expr} {fs : Fields} {body : Option (List Stmt)} {f : FieldSpec}
      (hf : f.style = .rest) (hes : es.any Expr.isFunction = false)
      (ht : (", ".intercalate (es.map Expr.text)).isEmpty = false) (h : Fill args [] fs body) :
      Fill (.field f :: args) es ((f.name, .string (", ".intercalate (es.map Expr.text))) :: fs) body
  | noRest {args : List Arg} {es : List Expr} {fs : Fields} {body : Option (List Stmt)} {f : FieldSpec}
      (hf : f.style = .rest) (hes : es.any Expr.isFunction = false)
      (ht : (", ".intercalate (es.map Expr.text)).isEmpty = true) (h : Fill args [] fs body) :
      Fill (.field f :: args) es fs body

namespace Arg.Fill

variable {args : List Arg} {es : List Expr} {fs : Fields} {body : Option (List Stmt)}

theorem keys_sublist (h : Fill args es fs body) : fs.keys.Sublist (args.map Arg.key) := by
  induction h with
  | nil => exact .slnil
  | handler _ _ _ ih => exact ih.cons_cons _
  | noHandler _ _ ih => exact ih.cons _
  | quoted _ _ ih => exact ih.cons_cons _
  | raw _ _ _ ih => exact ih.cons_cons _
  | absent _ _ _ ih => exact ih.cons _
  | rest _ _ _ _ ih => exact ih.cons_cons _
  | noRest _ _ _ _ ih => exact ih.cons _

theorem values_string (h : Fill args es fs body) : ∀ e ∈ fs, ∃ s, e.2 = .string s := by
  induction h with
  | nil => simp
  | handler _ _ _ ih => exact List.forall_mem_cons.mpr ⟨⟨_, rfl⟩, ih⟩
  | noHandler _ _ ih => exact ih
  | quoted _ _ ih => exact List.forall_mem_cons.mpr ⟨⟨_, rfl⟩, ih⟩
  | raw _ _ _ ih => exact List.forall_mem_cons.mpr ⟨⟨_, rfl⟩, ih⟩
  | absent _ _ _ ih => exact ih
  | rest _ _ _ _ ih => exact List.forall_mem_cons.mpr ⟨⟨_, rfl⟩, ih⟩
  | noRest _ _ _ _ ih => exact ih

/-- The parameters are recorded if there is a handler. -/
theorem mem_params (h : Fill args es fs body) (hb : body.isSome = true) : handlerParams ∈ fs.keys := by
  induction h with
  | nil => simp at hb
  | handler _ _ _ _ => exact List.mem_cons_self
  | noHandler _ _ ih => exact ih hb
  | quoted _ _ ih => exact List.mem_cons_of_mem _ (ih hb)
  | raw _ _ _ ih => exact List.mem_cons_of_mem _ (ih hb)
  | absent _ _ _ ih => exact ih hb
  | rest _ _ _ _ ih => exact List.mem_cons_of_mem _ (ih hb)
  | noRest _ _ _ _ ih => exact ih hb

/-- The handler is one of the arguments. -/
theorem mem_of_body (h : Fill args es fs body) {ss : List Stmt} (hb : body = some ss) :
    ∃ names, .function names ss ∈ es := by
  have hlater {e : Expr} {es : List Expr} (h : ∃ names, .function names ss ∈ es) :
      ∃ names, .function names ss ∈ e :: es := by
    obtain ⟨names, hmem⟩ := h
    exact ⟨names, List.mem_cons_of_mem _ hmem⟩
  induction h with
  | nil => cases hb
  | handler _ _ _ _ =>
    cases hb
    exact ⟨_, List.mem_cons_self⟩
  | noHandler _ _ ih | absent _ _ _ ih => exact ih hb
  | quoted _ _ ih => exact hlater (ih hb)
  | raw _ _ _ ih => exact hlater (ih hb)
  | rest _ _ _ _ ih | noRest _ _ _ _ ih =>
    obtain ⟨names, hmem⟩ := ih hb
    cases hmem

/-- Nothing else is kept where the parameters are. -/
theorem isSome_of_mem_params (h : Fill args es fs body) (hn : ∀ f, Arg.field f ∈ args → f.name ≠ handlerParams)
    (hm : handlerParams ∈ fs.keys) : body.isSome = true := by
  induction h with
  | nil => simp at hm
  | handler _ _ _ _ => rfl
  | noHandler _ _ ih => exact ih (fun f hf => hn f (List.mem_cons_of_mem _ hf)) hm
  | quoted _ _ ih | raw _ _ _ ih | rest _ _ _ _ ih =>
    refine ih (fun f hf => hn f (List.mem_cons_of_mem _ hf)) ?_
    rcases List.mem_cons.mp hm with he | hm
    · exact absurd he.symm (hn _ List.mem_cons_self)
    · exact hm
  | absent _ _ _ ih | noRest _ _ _ _ ih => exact ih (fun f hf => hn f (List.mem_cons_of_mem _ hf)) hm

end Arg.Fill

namespace CallMatch.Progress

open Arg

variable {fields : Fields} {body : Option (List Stmt)} {es : List Expr} {q : Progress}

theorem take_handler {params : String} {optional : Bool}
    (h : take ⟨fields, body, es⟩ (.handler params optional) = some q) :
    (∃ names ss rest, es = .function names ss :: rest ∧
      q = ⟨fields.insert handlerParams (.string (", ".intercalate names)), some ss, rest⟩) ∨
    optional = true ∧ es = [] ∧ q = ⟨fields, body, es⟩ := by
  simp only [take, takeHandler] at h
  split at h
  · exact .inl ⟨_, _, _, rfl, (Option.some.inj h).symm⟩
  · split at h
    · rename_i ho
      exact .inr ⟨ho, rfl, (Option.some.inj h).symm⟩
    · cases h
  · cases h

theorem take_field {f : FieldSpec} (h : take ⟨fields, body, es⟩ (.field f) = some q) :
    (∃ s quote rest, f.style = .quoted ∧ es = .string s quote :: rest ∧
      q = ⟨fields.insert f.name (.string s), body, rest⟩) ∨
    (∃ e rest, f.style = .raw ∧ es = e :: rest ∧ e.isFunction = false ∧
      q = ⟨fields.insert f.name (.string e.text), body, rest⟩) ∨
    (f.style ≠ .rest ∧ f.optional = true ∧ es = [] ∧ q = ⟨fields, body, es⟩) ∨
    (f.style = .rest ∧ es.any Expr.isFunction = false ∧ (", ".intercalate (es.map Expr.text)).isEmpty = false ∧
      q = ⟨fields.insert f.name (.string (", ".intercalate (es.map Expr.text))), body, []⟩) ∨
    f.style = .rest ∧ es.any Expr.isFunction = false ∧ (", ".intercalate (es.map Expr.text)).isEmpty = true ∧
      q = ⟨fields, body, []⟩ := by
  simp only [take] at h
  split at h
  · rename_i hf
    simp only [takeQuoted] at h
    split at h
    · obtain ⟨s, hs, rfl⟩ := Option.map_eq_some_iff.mp h
      unfold Expr.literal? at hs
      split at hs
      · obtain rfl := Option.some.inj hs
        exact .inl ⟨_, _, _, hf, rfl, rfl⟩
      · cases hs
    · split at h
      · rename_i ho
        exact .inr (.inr (.inl ⟨by simp [hf], ho, rfl, (Option.some.inj h).symm⟩))
      · cases h
  · rename_i hf
    simp only [takeRaw] at h
    split at h
    · split at h
      · cases h
      · rename_i he
        exact .inr (.inl ⟨_, _, hf, rfl, by simpa using he, (Option.some.inj h).symm⟩)
    · split at h
      · rename_i ho
        exact .inr (.inr (.inl ⟨by simp [hf], ho, rfl, (Option.some.inj h).symm⟩))
      · cases h
  · rename_i hf
    simp only [takeRest] at h
    split at h
    · cases h
    · rename_i hes
      have hes : es.any Expr.isFunction = false := by simpa using hes
      obtain rfl := Option.some.inj h
      cases ht : (", ".intercalate (es.map Expr.text)).isEmpty with
      | false => exact .inr (.inr (.inr (.inl ⟨hf, hes, rfl, by simp⟩)))
      | true => exact .inr (.inr (.inr (.inr ⟨hf, hes, rfl, by simp⟩)))

theorem Arg.apart_snoc {arg : Arg} {args : List Arg} {fields : Fields} (hn : arg.key ∉ args.map Arg.key)
    (hk : ∀ k ∈ args.map Arg.key, k ∉ fields.keys) (v : Json) :
    ∀ k ∈ args.map Arg.key, k ∉ (fields ++ [(arg.key, v)]).keys := by
  intro k hm
  simp only [Fields.keys_append, Fields.keys_cons, Fields.keys_nil, List.mem_append, List.mem_singleton, not_or]
  refine ⟨hk k hm, ?_⟩
  rintro rfl
  exact hn hm

/-- Arguments that have been taken were filled. -/
theorem fill_of_foldlM {args : List Arg} (hn : (args.map Arg.key).Nodup) : ∀ {fields body es} {q : Progress},
    args.foldlM take ⟨fields, body, es⟩ = some q → q.remaining = [] → (∀ k ∈ args.map Arg.key, k ∉ fields.keys) →
    ∃ fs handler, Fill args es fs handler ∧ q.fields = fields ++ fs ∧ q.body = handler.or body := by
  induction args with
  | nil =>
    intro fields body es q h hr _
    obtain rfl : ⟨fields, body, es⟩ = q := by simpa using h
    obtain rfl : es = [] := hr
    exact ⟨[], none, .nil, by simp, by simp⟩
  | cons arg args ih =>
    intro fields body es q h hr hk
    simp only [List.map_cons, List.nodup_cons, List.forall_mem_cons] at hn hk
    simp only [List.foldlM_cons, Option.bind_eq_bind, Option.bind_eq_some_iff] at h
    obtain ⟨p, hp, h⟩ := h
    have hfresh (v : Json) : ∀ k ∈ args.map Arg.key, k ∉ (fields ++ [(arg.key, v)]).keys := by
      intro k hm
      simp only [Fields.keys_append, Fields.keys_cons, Fields.keys_nil, List.mem_append, List.mem_singleton, not_or]
      refine ⟨hk.2 k hm, ?_⟩
      rintro rfl
      exact hn.1 hm
    have hkeep (v : Json) : fields.insert arg.key v = fields ++ [(arg.key, v)] := Fields.insert_of_not_mem hk.1 v
    cases arg with
    | handler params optional =>
      rcases take_handler hp with ⟨names, ss, rest, rfl, rfl⟩ | ⟨rfl, rfl, rfl⟩
      · rw [show handlerParams = (Arg.handler params optional).key from rfl, hkeep] at h
        obtain ⟨fs, handler, hfill, hfields, hbody⟩ := ih hn.2 h hr (hfresh _)
        -- the key of a handler is taken, so there is no second one
        obtain rfl : handler = none := by
          rw [← Option.not_isSome_iff_eq_none]
          exact fun hs => hn.1 (hfill.keys_sublist.subset (hfill.mem_params hs))
        exact ⟨_, _, .handler params optional hfill, by simp [hfields, Arg.key], hbody⟩
      · obtain ⟨fs, handler, hfill, hfields, hbody⟩ := ih hn.2 h hr hk.2
        exact ⟨fs, handler, .noHandler params hfill, hfields, hbody⟩
    | field f =>
      rcases take_field hp with ⟨s, quote, rest, hf, rfl, rfl⟩ | ⟨e, rest, hf, rfl, he, rfl⟩ | ⟨hf, ho, rfl, rfl⟩ |
        ⟨hf, hes, ht, rfl⟩ | ⟨hf, hes, ht, rfl⟩
      · rw [show f.name = (Arg.field f).key from rfl, hkeep] at h
        obtain ⟨fs, handler, hfill, hfields, hbody⟩ := ih hn.2 h hr (hfresh _)
        exact ⟨_, _, .quoted hf hfill, by simp [hfields, Arg.key], hbody⟩
      · rw [show f.name = (Arg.field f).key from rfl, hkeep] at h
        obtain ⟨fs, handler, hfill, hfields, hbody⟩ := ih hn.2 h hr (hfresh _)
        exact ⟨_, _, .raw hf he hfill, by simp [hfields, Arg.key], hbody⟩
      · obtain ⟨fs, handler, hfill, hfields, hbody⟩ := ih hn.2 h hr hk.2
        exact ⟨_, _, .absent hf ho hfill, hfields, hbody⟩
      · rw [show f.name = (Arg.field f).key from rfl, hkeep] at h
        obtain ⟨fs, handler, hfill, hfields, hbody⟩ := ih hn.2 h hr (hfresh _)
        exact ⟨_, _, .rest hf hes ht hfill, by simp [hfields, Arg.key], hbody⟩
      · obtain ⟨fs, handler, hfill, hfields, hbody⟩ := ih hn.2 h hr hk.2
        exact ⟨_, _, .noRest hf hes ht hfill, hfields, hbody⟩

/-- If an argument adds one new field, so does the list that starts with it. -/
theorem foldlM_cons_insert {arg : Arg} {args : List Arg} {es' : List Expr} {body' handler : Option (List Stmt)}
    {v : Json}
    {fs : Fields} (hn : (arg.key :: args.map Arg.key).Nodup) (hk : ∀ k ∈ arg.key :: args.map Arg.key, k ∉ fields.keys)
    (htake : take ⟨fields, body, es⟩ arg = some ⟨fields.insert arg.key v, body', es'⟩)
    (hrest : ∀ fields body, (∀ k ∈ args.map Arg.key, k ∉ fields.keys) →
      args.foldlM take ⟨fields, body, es'⟩ = some ⟨fields ++ fs, handler.or body, []⟩) :
    (arg :: args).foldlM take ⟨fields, body, es⟩ = some ⟨fields ++ (arg.key, v) :: fs, handler.or body', []⟩ := by
  obtain ⟨hk, hks⟩ := List.forall_mem_cons.mp hk
  rw [List.foldlM_cons, htake, Option.bind_eq_bind, Option.bind_some, Fields.insert_of_not_mem hk,
    hrest _ _ (Arg.apart_snoc (List.nodup_cons.mp hn).1 hks v), List.append_assoc, List.singleton_append]

/-- Arguments that are filled can be taken. -/
theorem foldlM_of_fill {args : List Arg} {fs : Fields} {handler : Option (List Stmt)} (h : Fill args es fs handler)
    (hn : (args.map Arg.key).Nodup) : ∀ fields body, (∀ k ∈ args.map Arg.key, k ∉ fields.keys) →
    args.foldlM take ⟨fields, body, es⟩ = some ⟨fields ++ fs, handler.or body, []⟩ := by
  induction h with
  | nil => simp
  | handler params optional h ih =>
    intro fields body hk
    rename_i rest fs names ss
    have htake : take ⟨fields, body, .function names ss :: rest⟩ (.handler params optional) =
      some ⟨fields.insert handlerParams (.string (", ".intercalate names)), some ss, rest⟩ := rfl
    have hall := foldlM_cons_insert hn hk htake (ih hn.of_cons)
    exact hall
  | noHandler params h ih =>
    intro fields body hk
    exact ih hn.of_cons fields body (List.forall_mem_cons.mp hk).2
  | quoted hf h ih =>
    intro fields body hk
    exact foldlM_cons_insert hn hk (by simp [take, hf, takeQuoted, Expr.literal?, Arg.key]) (ih hn.of_cons)
  | raw hf he h ih =>
    intro fields body hk
    exact foldlM_cons_insert hn hk (by simp [take, hf, takeRaw, he, Arg.key]) (ih hn.of_cons)
  | absent hf ho h ih =>
    intro fields body hk
    rename_i f
    have htake : take ⟨fields, body, []⟩ (.field f) = some ⟨fields, body, []⟩ := by
      cases hs : f.style <;> simp_all [take, takeQuoted, takeRaw]
    rw [List.foldlM_cons, htake]
    exact ih hn.of_cons fields body (List.forall_mem_cons.mp hk).2
  | rest hf hes ht h ih =>
    intro fields body hk
    exact foldlM_cons_insert hn hk (by simp [take, hf, takeRest, hes, ht, Arg.key]) (ih hn.of_cons)
  | noRest hf hes ht h ih =>
    intro fields body hk
    rename_i es fs handler f
    have htake : take ⟨fields, body, es⟩ (.field f) = some ⟨fields, body, []⟩ := by
      simp only [take, hf, takeRest, hes, ht]
      rfl
    rw [List.foldlM_cons, htake]
    exact ih hn.of_cons fields body (List.forall_mem_cons.mp hk).2

end CallMatch.Progress

/-- The fields that the data of a call can have. -/
def Entry.keys (e : Entry) : List String := e.args.map Arg.key ++ e.fixed.map Prod.fst

theorem Catalogue.nodup_keys : ∀ e ∈ Catalogue.entries, ("label" :: e.keys).Nodup := by
  decide +kernel

theorem Catalogue.mem_of_lookup? {callee : String} {e : Entry} (h : lookup? callee = some e) : e ∈ entries :=
  List.mem_of_find?_eq_some h

/-- The fields that tell the entries of a kind apart. -/
def Entry.fixedFields (e : Entry) : Fields := e.fixed.map fun f => (f.1, .string f.2)

theorem CallMatch.ofCall?_eq_some_iff {callee : String} {args : List Expr} {m : CallMatch} :
    ofCall? callee args = some m ↔ Catalogue.lookup? callee = some m.entry ∧
      ∃ fs, Arg.Fill m.entry.args args fs m.body ∧ m.fields = fs ++ m.entry.fixedFields := by
  have hkeys {e : Entry} (he : e ∈ Catalogue.entries) := List.nodup_append.mp (Catalogue.nodup_keys e he).of_cons
  have hfixed {e : Entry} (he : e ∈ Catalogue.entries) {args : List Expr} {fs : Fields} {body : Option (List Stmt)}
      (hfill : Arg.Fill e.args args fs body) : fs.insertAll e.fixedFields = fs ++ e.fixedFields := by
    obtain ⟨-, hnodup, hapart⟩ := hkeys he
    have hnames : e.fixedFields.keys = e.fixed.map Prod.fst := by simp [Entry.fixedFields, Fields.keys]
    refine Fields.insertAll_of_disjoint (hnames ▸ hnodup) fun k hk hm => ?_
    exact hapart k (hfill.keys_sublist.subset hm) k (hnames ▸ hk) rfl
  constructor
  · intro h
    simp only [ofCall?, Option.bind_eq_bind, Option.bind_eq_some_iff] at h
    obtain ⟨entry, hentry, p, hp, h⟩ := h
    split at h
    · cases h
    · rename_i hr
      obtain rfl := Option.some.inj h
      have he := Catalogue.mem_of_lookup? hentry
      obtain ⟨fs, body, hfill, hfields, hbody⟩ :=
        Progress.fill_of_foldlM (hkeys he).1 hp (by simpa using hr) (by simp)
      simp only [List.nil_append, Option.or_none] at hfields hbody
      exact ⟨hentry, fs, hbody ▸ hfill, (congrArg (Fields.insertAll · _) hfields).trans (hfixed he hfill)⟩
  · rintro ⟨hentry, fs, hfill, hfields⟩
    have he := Catalogue.mem_of_lookup? hentry
    have hp := Progress.foldlM_of_fill hfill (hkeys he).1 [] none (by simp)
    simp only [List.nil_append, Option.or_none] at hp
    simp only [ofCall?, hentry, hp, Option.bind_eq_bind, Option.bind_some, List.isEmpty_nil, Bool.not_true,
      Bool.false_eq_true, if_false, Option.pure_def]
    rw [← hfixed he hfill] at hfields
    obtain ⟨entry, fields, body⟩ := m
    exact congrArg (fun fields => some (CallMatch.mk entry fields body)) hfields.symm

theorem Node.catalogued?_eq (n : Node) : n.catalogued? =
    ((Catalogue.ofKind n.kind).find? fun e => e.fixed.all fun f => n.text? f.1 == some f.2).or
      (Catalogue.ofKind n.kind).head? := rfl

end ScriptGraph
