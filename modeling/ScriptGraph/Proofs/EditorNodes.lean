import ScriptGraph.Proofs.NodeCalls
import ScriptGraph.Proofs.Requoting

namespace ScriptGraph

/-- Can an argument of this style be written from the value? -/
def FieldStyle.Admits : FieldStyle → String → Prop
  | .quoted, _ => True
  | .raw, text => ∃ e : Expr, e.IsPlain ∧ e.text = text
  | .rest, text => ∃ es : List Expr, es ≠ [] ∧ (∀ e ∈ es, e.IsPlain) ∧ ", ".intercalate (es.map Expr.text) = text

namespace Arg

/-- Can the argument be written from the value? That of a handler is a list of parameters. -/
def Admits : Arg → String → Prop
  | .field f, text => f.style.Admits text
  | .handler .., text => ∃ names, IsParams names ∧ ", ".intercalate names = text

/-- The value of an argument that has to be written. -/
def default? : Arg → Option String
  | .field f => if f.optional then none else some f.default
  | .handler params optional => if optional then none else some params

/-- The value that the argument is written with for the node, if it is written. -/
def value? (n : Node) (arg : Arg) : Option String := (n.text? arg.key).or arg.default?

def isRest : Arg → Bool
  | .field f => f.style == .rest
  | .handler .. => false

def isRaw : Arg → Bool
  | .field f => f.style == .raw
  | .handler .. => false

end Arg

namespace Catalogue

/-- Only the last argument takes all that are left. -/
theorem rest_last : ∀ e ∈ entries, e.args.Pairwise fun arg _ => arg.isRest = false := by
  decide +kernel

/-- What is written for a node that lacks an expression or the parameters of a handler. -/
theorem default_cases : ∀ e ∈ entries, ∀ arg ∈ e.args, ∀ text ∈ arg.default?, arg.isQuoted = true ∨
    arg.isRaw = true ∧
      text ∈ ["\x7b\x7d", "false", "vehicle", "PlayerPedId()", "0", "0.0", "0.1", "0.5", "4", "255", "1000"] ∨
    arg.key = handlerParams ∧ text ∈ ["", "...", "result", "source, args", "source, cb"] := by
  decide +kernel

end Catalogue

/-- The defaults of the catalogue are expressions. -/
theorem FieldStyle.admits_raw_default {text : String}
    (h : text ∈ ["\x7b\x7d", "false", "vehicle", "PlayerPedId()", "0", "0.0", "0.1", "0.5", "4", "255", "1000"]) :
    FieldStyle.raw.Admits text := by
  have hnumber {text : String} (h : Lexeme.IsNumber text.toList) : FieldStyle.raw.Admits text :=
    ⟨.number text, ⟨h, trivial⟩, rfl⟩
  simp only [List.mem_cons, List.not_mem_nil, or_false] at h
  rcases h with rfl | rfl | rfl | rfl | rfl | rfl | rfl | rfl | rfl | rfl | rfl
  · exact ⟨.table [], ⟨⟨trivial, trivial⟩, trivial, trivial⟩, by decide⟩
  · exact ⟨.bool false, ⟨trivial, trivial⟩, by decide⟩
  · exact ⟨.identifier "vehicle", ⟨(by decide : IsName "vehicle"), trivial⟩, by decide⟩
  · exact ⟨.call (.identifier "PlayerPedId") [],
      ⟨⟨trivial, (by decide : IsName "PlayerPedId"), trivial⟩, trivial, trivial, trivial⟩, by decide⟩
  all_goals exact hnumber ⟨by decide, _, _, rfl, by decide⟩

/-- So are the parameters. -/
theorem Arg.admits_handler_default {params : String} {optional : Bool} {text : String}
    (h : text ∈ ["", "...", "result", "source, args", "source, cb"]) : (Arg.handler params optional).Admits text := by
  simp only [List.mem_cons, List.not_mem_nil, or_false] at h
  rcases h with rfl | rfl | rfl | rfl | rfl
  · exact ⟨[], trivial, by decide⟩
  · exact ⟨["..."], .inr rfl, by decide⟩
  · exact ⟨["result"], .inl (by decide), by decide⟩
  · exact ⟨["source", "args"], ⟨by decide, .inl (by decide)⟩, by decide⟩
  · exact ⟨["source", "cb"], ⟨by decide, .inl (by decide)⟩, by decide⟩

theorem Arg.admits_default {entry : Entry} (he : entry ∈ Catalogue.entries) {arg : Arg} (ha : arg ∈ entry.args)
    {text : String} (h : text ∈ arg.default?) : arg.Admits text := by
  have hcases := Catalogue.default_cases entry he arg ha text h
  cases arg with
  | handler params optional =>
    rcases hcases with hquoted | ⟨hraw, -⟩ | ⟨-, htext⟩
    · cases hquoted
    · cases hraw
    · exact admits_handler_default htext
  | field f =>
    rcases hcases with hquoted | ⟨hraw, htext⟩ | ⟨hkey, -⟩
    · rw [Admits, eq_of_beq hquoted]
      trivial
    · rw [Admits, eq_of_beq hraw]
      exact FieldStyle.admits_raw_default htext
    · exact absurd hkey ((Catalogue.params_free entry he).1 f (List.mem_filterMap.mpr ⟨_, ha, rfl⟩))

/-- Arguments that may be left out are left out. -/
theorem Arg.fill_nil {args : List Arg} (h : ∀ arg ∈ args, arg.default? = none) : Fill args [] [] none := by
  induction args with
  | nil => exact .nil
  | cons arg args ih =>
    obtain ⟨harg, hargs⟩ := List.forall_mem_cons.mp h
    cases arg with
    | handler params optional =>
      obtain rfl : optional = true := by simpa [default?] using harg
      exact .noHandler params (ih hargs)
    | field f =>
      have ho : f.optional = true := by simpa [default?] using harg
      by_cases hf : f.style = .rest
      · exact .noRest hf rfl rfl (ih hargs)
      · exact .absent hf ho (ih hargs)

/-- Values that fill the arguments from the left are those of a call. -/
theorem Arg.exists_fill {value : Arg → Option String} {args : List Arg} (hn : (args.map Arg.key).Nodup)
    (hlast : args.Pairwise fun arg _ => arg.isRest = false)
    (hadmits : ∀ arg ∈ args, ∀ text ∈ value arg, arg.Admits text)
    (hdefault : ∀ arg ∈ args, value arg = none → arg.default? = none)
    (hleft : args.Pairwise fun a b => (value b).isSome → (value a).isSome) :
    ∃ es fs body, Fill args es fs body ∧ (∀ e ∈ requote args es, e.IsArgument) ∧
      ∀ arg ∈ args, fs.get? arg.key = (value arg).map Json.string := by
  induction args with
  | nil => exact ⟨[], [], none, .nil, by simp [requote_nil], by simp⟩
  | cons arg args ih =>
    obtain ⟨hfirst, hrest⟩ := List.forall_mem_cons.mp hadmits
    obtain ⟨hafter, hleft⟩ := List.pairwise_cons.mp hleft
    obtain ⟨hkey, hkeys⟩ := List.nodup_cons.mp hn
    cases hvalue : value arg with
    | none =>
      -- Nothing behind it has a value, either.
      have hnone : ∀ a ∈ arg :: args, value a = none := by
        refine List.forall_mem_cons.mpr ⟨hvalue, fun a ha => ?_⟩
        by_contra hsome
        have hback := hafter a ha (Option.isSome_iff_ne_none.mpr hsome)
        rw [hvalue] at hback
        cases hback
      refine ⟨[], [], none, fill_nil fun a ha => hdefault a ha (hnone a ha), by simp [requote_nil], fun a ha => ?_⟩
      rw [hnone a ha]
      rfl
    | some text =>
      obtain ⟨es, fs, body, hfill, hargs, hget⟩ := ih hkeys (List.pairwise_cons.mp hlast).2 hrest
        (fun a ha => hdefault a (List.mem_cons_of_mem _ ha)) hleft
      -- The field of the first argument comes first, and no other has its key.
      have hfields : ∀ a ∈ arg :: args, Fields.get? ((arg.key, .string text) :: fs) a.key =
          (value a).map Json.string := by
        refine List.forall_mem_cons.mpr ⟨by rw [Fields.get?_cons_self, hvalue]; rfl, fun a ha => ?_⟩
        have hne : arg.key ≠ a.key := fun heq => hkey (heq ▸ List.mem_map_of_mem ha)
        rw [Fields.get?_cons_of_ne hne, hget a ha]
      have hadmit := hfirst text hvalue
      cases arg with
      | handler params optional =>
        obtain ⟨names, hnames, rfl⟩ := hadmit
        obtain rfl : body = none := by
          rw [← Option.not_isSome_iff_eq_none]
          exact fun hsome => hkey (hfill.keys_sublist.subset (hfill.mem_params hsome))
        exact ⟨.function names [] :: es, _, some [], .handler params optional hfill,
          List.forall_mem_cons.mpr ⟨hnames, hargs⟩, hfields⟩
      | field f =>
        cases hf : f.style with
        | quoted =>
          have hescaped := Text.isEscaped_requoted text
          have hplain : (Expr.string (Text.requoted text) '\'').IsPlain :=
            ⟨hescaped.isContent, hescaped.dangles_eq_false⟩
          refine ⟨.string text '\'' :: es, _, body, .quoted hf hfill, ?_, hfields⟩
          simp only [requote, hf]
          exact List.forall_mem_cons.mpr ⟨hplain, hargs⟩
        | raw =>
          rw [Admits, hf] at hadmit
          obtain ⟨e, he, rfl⟩ := hadmit
          refine ⟨e :: es, _, body, .raw hf he.isFunction hfill, ?_, hfields⟩
          simp only [requote, hf]
          exact List.forall_mem_cons.mpr ⟨.of_isPlain he, hargs⟩
        | rest =>
          rw [Admits, hf] at hadmit
          obtain ⟨xs, hne, hxs, rfl⟩ := hadmit
          obtain ⟨x, xs, rfl⟩ := List.exists_cons_of_ne_nil hne
          cases args with
          | cons a args =>
            have hno := (List.pairwise_cons.mp hlast).1 a List.mem_cons_self
            simp [isRest, hf] at hno
          | nil =>
            cases hfill
            have hnone : (x :: xs).any Expr.isFunction = false :=
              List.any_eq_false.mpr fun e he => by simp [(hxs e he).isFunction]
            have hblank := Text.isBlankText_intercalate_cons (hxs x List.mem_cons_self).isBlankText (xs.map Expr.text)
            have htext : (", ".intercalate ((x :: xs).map Expr.text)).isEmpty = false := by
              rw [Bool.eq_false_iff]
              intro hempty
              rw [← List.map_cons, String.isEmpty_iff.mp hempty] at hblank
              exact absurd hblank (by decide)
            refine ⟨x :: xs, _, none, .rest hf hnone htext .nil, ?_, hfields⟩
            simp only [requote, hf]
            exact fun e he => .of_isPlain (hxs e he)

/-- A node is written from the values of its arguments. -/
theorem CallText.ofNode_eq_of_value? {entry : Entry} {n n' : Node}
    (h : ∀ arg ∈ entry.args, n'.text? arg.key = arg.value? n) : ofNode entry n' = ofNode entry n := by
  have hadd : ∀ p, ∀ arg ∈ entry.args, Parts.add n' p arg = Parts.add n p arg := by
    intro p arg harg
    have htext := h arg harg
    cases arg with
    | handler params optional =>
      rw [Arg.value?, Arg.key] at htext
      rw [Parts.add, Parts.add, htext]
      cases n.text? handlerParams with
      | some recorded => rfl
      | none => cases optional <;> rfl
    | field f =>
      rw [Arg.value?, Arg.key] at htext
      have hfield : fieldText? n' f = fieldText? n f := by
        rw [fieldText?, fieldText?, Node.filled?, Node.filled?, htext]
        cases n.text? f.name with
        | some v => rfl
        | none =>
          cases ho : f.optional with
          | true => simp [Arg.default?, ho]
          | false =>
            cases f.style <;> cases hb : Text.isBlankText f.default <;> simp [Arg.default?, ho, Option.filter, hb]
      rw [Parts.add, Parts.add, hfield]
  have hfold : entry.args.foldl (Parts.add n') {} = entry.args.foldl (Parts.add n) {} := List.foldl_ext _ _ _ hadd
  rw [ofNode, ofNode, hfold]

namespace Entry

variable {entry : Entry} (he : entry ∈ Catalogue.entries) {es : List Expr} {fs : Fields} {body : Option (List Stmt)}
include he

theorem key_notMem_fixedFields {arg : Arg} (ha : arg ∈ entry.args) : arg.key ∉ entry.fixedFields.keys := by
  intro hm
  have hm : arg.key ∈ entry.fixed.map Prod.fst := by simpa [fixedFields, Fields.keys] using hm
  have hkeys := (Catalogue.nodup_keys entry he).of_cons
  exact (List.nodup_append.mp hkeys).2.2 _ (List.mem_map_of_mem ha) _ hm rfl

theorem get?_fixed (hfill : Arg.Fill entry.args es fs body) {f : String × String} (hf : f ∈ entry.fixed) :
    (fs.requoted entry.kind ++ entry.fixedFields).get? f.1 = some (.string f.2) := by
  obtain ⟨-, hnodup, hapart⟩ := List.nodup_append.mp (Catalogue.nodup_keys entry he).of_cons
  have hkeys : entry.fixedFields.keys = entry.fixed.map Prod.fst := by simp [fixedFields, Fields.keys]
  have hfree : f.1 ∉ (fs.requoted entry.kind).keys := by
    intro hm
    have hm : f.1 ∈ fs.keys := by simpa [Fields.requoted, Fields.keys] using hm
    exact hapart _ (hfill.keys_sublist.subset hm) _ (List.mem_map_of_mem hf) rfl
  rw [Fields.get?_append_right hfree]
  exact Fields.get?_of_mem (hkeys ▸ hnodup) (List.mem_map_of_mem hf)

/-- The parameters are among the fields exactly if there is a handler. -/
theorem map_get?_handlerParams {α : Type} (hfill : Arg.Fill entry.args es fs body) (a : α) :
    ((fs.requoted entry.kind ++ entry.fixedFields).get? handlerParams).map (fun _ => a) = body.map fun _ => a := by
  obtain ⟨hnames, hfixed⟩ := Catalogue.params_free entry he
  have hfree : handlerParams ∉ entry.fixedFields.keys := by
    intro hm
    exact hfixed (by simpa [fixedFields, Fields.keys, Function.comp_def] using hm)
  rw [Fields.get?_append_left hfree, Fields.get?_requoted, Option.map_map]
  cases body with
  | none =>
    have hno : handlerParams ∉ fs.keys := by
      intro hm
      have hsome := hfill.isSome_of_mem_params (fun f hf => hnames f (List.mem_filterMap.mpr ⟨_, hf, rfl⟩)) hm
      cases hsome
    rw [Fields.get?_eq_none hno]
    rfl
  | some ss =>
    obtain ⟨f, hf, hkey⟩ := List.mem_map.mp (hfill.mem_params rfl)
    obtain ⟨key, v⟩ := f
    obtain rfl : key = handlerParams := hkey
    have hnodup : fs.keys.Nodup := hfill.keys_sublist.nodup (Catalogue.nodup_args he)
    rw [Fields.get?_of_mem hnodup hf]
    rfl

end Entry

/-- A node is written as a call that its own entry takes apart again, unless it is too deep: if each value can be
written, and an optional one is there only if those before it are, then the fields of the call are the values of the
node, quoted ones as they are written, next to the fixed data of the entry. -/
theorem Node.reread_call {n : Node} {entry : Entry} (he : n.catalogued? = some entry)
    (hvalues : ∀ arg ∈ entry.args, ∀ text ∈ n.text? arg.key, arg.Admits text)
    (hleft : entry.args.Pairwise fun a b => (b.value? n).isSome → (a.value? n).isSome)
    {text : String} {ss : List Stmt} (hs : StandsAlone text ss) :
    (∃ line, Program.parse (tokenize ((CallText.ofNode entry n).around text)) = .error (.tooDeep maxDepth line)) ∨
      ∃ m : CallMatch, m.IsReadFrom ((CallText.ofNode entry n).around text) ∧ m.entry = entry ∧
        (∀ arg ∈ entry.args, m.fields.get? arg.key =
          (arg.value? n).map fun s => .string (if arg.isQuoted then Text.requoted s else s)) ∧
        (∀ f ∈ entry.fixed, m.fields.get? f.1 = some (.string f.2)) ∧
        m.body.map (Stmt.mapLinesAll origin) =
          (m.fields.get? handlerParams).map fun _ => Stmt.mapLinesAll origin ss := by
  have hentry := (Catalogue.mem_ofKind (mem_of_catalogued? he)).1
  have hadmits : ∀ arg ∈ entry.args, ∀ text ∈ arg.value? n, arg.Admits text := by
    intro arg harg text htext
    rcases Option.or_eq_some_iff.mp htext with hown | ⟨-, hdefault⟩
    · exact hvalues arg harg text hown
    · exact Arg.admits_default hentry harg hdefault
  have hdefault : ∀ arg ∈ entry.args, arg.value? n = none → arg.default? = none := by
    intro arg _ hnone
    exact (Option.or_eq_none_iff.mp hnone).2
  obtain ⟨es, fs, body, hfill, hargs, hget⟩ := Arg.exists_fill (Catalogue.nodup_args hentry)
    (Catalogue.rest_last entry hentry) hadmits hdefault hleft
  have hsame : CallText.ofNode entry { n with data := fs } = CallText.ofNode entry n := by
    refine CallText.ofNode_eq_of_value? fun arg harg => ?_
    rw [Node.text?, hget arg harg]
    cases arg.value? n <;> rfl
  rw [← hsame]
  refine (CallText.reread hentry hfill (fun _ _ => rfl) hargs hs).imp_right ?_
  intro hread
  obtain ⟨m, hm, hme, hfields, hbody⟩ := hread
  refine ⟨m, hm, hme, fun arg harg => ?_, fun f hf => ?_, ?_⟩
  · rw [hfields, Fields.get?_append_left (Entry.key_notMem_fixedFields hentry harg), Fields.get?_requoted,
      (Catalogue.isQuoted_eq entry hentry).1 arg harg, hget arg harg, Option.map_map]
    cases arg.isQuoted <;> rfl
  · rw [hfields]
    exact Entry.get?_fixed hentry hfill hf
  · rw [hbody, hfields, Entry.map_get?_handlerParams hentry hfill]

theorem Node.reread_call_callback : ∃ n entry ss,
    n = { id := "1", kind := "qb-trigger-callback", data :=
      [("callbackName", .string "it's"), ("params", .string "ok, ..."), ("arguments", .string "a.b, 1 + 2")] } ∧
    n.catalogued? = some entry ∧ (∀ arg ∈ entry.args, ∀ text ∈ n.text? arg.key, arg.Admits text) ∧
    (entry.args.Pairwise fun a b => (b.value? n).isSome → (a.value? n).isSome) ∧ StandsAlone "print(ok)" ss ∧
    ((∃ line, Program.parse (tokenize ((CallText.ofNode entry n).around "print(ok)")) =
        .error (.tooDeep maxDepth line)) ∨
      ∃ m : CallMatch, m.IsReadFrom ((CallText.ofNode entry n).around "print(ok)") ∧ m.entry = entry ∧
        (∀ arg ∈ entry.args, m.fields.get? arg.key =
          (arg.value? n).map fun s => .string (if arg.isQuoted then Text.requoted s else s)) ∧
        (∀ f ∈ entry.fixed, m.fields.get? f.1 = some (.string f.2)) ∧
        m.body.map (Stmt.mapLinesAll origin) =
          (m.fields.get? handlerParams).map fun _ => Stmt.mapLinesAll origin ss) := by
  have hs : StandsAlone "print(ok)" [.mk 1 (.evaluate (.call (.identifier "print") [.identifier "ok"]))] :=
    ⟨by decide +kernel, by decide +kernel, by decide +kernel⟩
  obtain ⟨n, hn⟩ : ∃ n : Node, n = { id := "1", kind := "qb-trigger-callback", data :=
      [("callbackName", .string "it's"), ("params", .string "ok, ..."), ("arguments", .string "a.b, 1 + 2")] } :=
    ⟨_, rfl⟩
  have hcatalogued : n.catalogued? = some Catalogue.flow[0] := by
    rw [hn]
    decide +kernel
  have hleft : Catalogue.flow[0].args.Pairwise fun a b => (b.value? n).isSome → (a.value? n).isSome := by
    rw [hn]
    decide +kernel
  have hvalues : ∀ arg ∈ Catalogue.flow[0].args, ∀ text ∈ n.text? arg.key, arg.Admits text := by
    obtain ⟨ha, hb, hok⟩ : IsName "a" ∧ IsName "b" ∧ IsName "ok" := by decide
    have hmember : (Expr.member (.identifier "a") "b").IsPlain := ⟨⟨hb, ha⟩, trivial, trivial⟩
    have hsum : (Expr.binary .add (.number "1") (.number "2")).IsPlain :=
      ⟨⟨trivial, ⟨by decide, _, _, rfl, rfl⟩, by decide, _, _, rfl, rfl⟩, trivial, trivial, trivial⟩
    rw [hn]
    refine List.forall_mem_cons.mpr ⟨fun _ _ => trivial, List.forall_mem_cons.mpr ⟨?_,
      List.forall_mem_cons.mpr ⟨?_, by simp⟩⟩⟩
    · rintro _ ⟨⟩
      exact ⟨["ok", "..."], ⟨hok, .inr rfl⟩, by decide⟩
    · rintro _ ⟨⟩
      exact ⟨[.member (.identifier "a") "b", .binary .add (.number "1") (.number "2")], by simp,
        List.forall_mem_cons.mpr ⟨hmember, List.forall_mem_cons.mpr ⟨hsum, by simp⟩⟩, by decide⟩
  exact ⟨n, _, _, hn, hcatalogued, hvalues, hleft, hs, Node.reread_call hcatalogued hvalues hleft hs⟩

/-- Behind an optional value that is missing, the next one is taken for it. -/
theorem Node.not_reread_behind_gap : ∃ n entry c args,
    n = { id := "1", kind := "qb-notify", data := [("message", .string "m"), ("length", .string "5000")] } ∧
    n.catalogued? = some entry ∧ CallText.ofNode entry n = .line "QBCore.Functions.Notify('m', 5000)" ∧
    Program.parse (tokenize "QBCore.Functions.Notify('m', 5000)") = .ok [.mk 1 (.evaluate c)] ∧
    c.call? = some ("QBCore.Functions.Notify", args) ∧ CallMatch.ofCall? "QBCore.Functions.Notify" args = none := by
  have hparse : Program.parse (tokenize "QBCore.Functions.Notify('m', 5000)") = .ok [.mk 1 (.evaluate (.call
      (.member (.member (.identifier "QBCore") "Functions") "Notify") [.string "m" '\'', .number "5000"]))] := by
    decide +kernel
  exact ⟨_, Catalogue.frameworkUi[0], _, _, rfl, by decide +kernel, by decide +kernel, hparse, rfl, rfl⟩

end ScriptGraph
