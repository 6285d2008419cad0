import ScriptGraph.Proofs.Emissions
import ScriptGraph.Proofs.PrintedDerivation

namespace ScriptGraph

open Lexeme

instance (text : List Char) : Decidable (IsWord text) :=
  match text with
  | [] => .isFalse fun ⟨_, _, h, _⟩ => nomatch h
  | c :: cs => decidable_of_iff (isLetter c = true ∧ cs.all isWordChar = true)
      ⟨fun h => ⟨c, cs, rfl, h.1, h.2⟩, fun ⟨_, _, h, h1, h2⟩ => by cases h; exact ⟨h1, h2⟩⟩

instance (s : String) : Decidable (IsName s) := inferInstanceAs (Decidable (_ ∧ _))

/-- A name, a part of a path, or what a path holds under a single-quoted key. -/
def Expr.isPath : Expr → Bool
  | .identifier s => decide (IsName s)
  | .member object property => object.isPath && decide (IsName property)
  | .index object (.string value quote) =>
    object.isPath && quote == '\'' && (Text.quotedBody value.toList == value.toList) && !value.toList.contains '\n'
  | _ => false

theorem Expr.isBarePrefix_of_isPath {e : Expr} (h : e.isPath = true) : e.isBarePrefix = true := by
  unfold Expr.isPath at h
  split at h <;> first | rfl | cases h

namespace Entry

/-- The call of an entry by its first callee. -/
def call (e : Entry) (args : List Expr) : Expr :=
  match Program.parse (tokenize (e.callee ++ "()")) with
  | .ok [.mk _ (.evaluate (.call callee _))] => .call callee args
  | .ok [.mk _ (.evaluate (.methodCall object method _))] => .methodCall object method args
  | _ => .call (.identifier e.callee) args

/-- Is the callee a path, or a method of one? -/
def isCallable (e : Entry) : Bool :=
  match Program.parse (tokenize (e.callee ++ "()")) with
  | .ok [.mk _ (.evaluate (.call callee _))] => callee.isPath && callee.text == e.callee
  | .ok [.mk _ (.evaluate (.methodCall object method _))] =>
    object.isPath && decide (IsName method) && object.text ++ ":" ++ method == e.callee
  | _ => false

end Entry

theorem Catalogue.isCallable : ∀ e ∈ entries, e.isCallable = true := by
  decide +kernel

/-- Each entry is found by its first callee. -/
theorem Catalogue.lookup?_callee : ∀ e ∈ entries, lookup? e.callee = some e := by
  decide +kernel

namespace Entry

theorem call_cases {e : Entry} (he : e ∈ Catalogue.entries) :
    (∃ callee, callee.isPath = true ∧ callee.text = e.callee ∧ ∀ args, e.call args = .call callee args) ∨
    ∃ object method, object.isPath = true ∧ IsName method ∧ object.text ++ ":" ++ method = e.callee ∧
      ∀ args, e.call args = .methodCall object method args := by
  have h := Catalogue.isCallable e he
  unfold isCallable at h
  unfold call
  generalize Program.parse (tokenize (e.callee ++ "()")) = read at h ⊢
  split at h
  · simp only [Bool.and_eq_true, beq_iff_eq] at h
    exact .inl ⟨_, h.1, h.2, fun args => rfl⟩
  · simp only [Bool.and_eq_true, beq_iff_eq, decide_eq_true_eq] at h
    exact .inr ⟨_, _, h.1.1, h.1.2, h.2, fun args => rfl⟩
  · cases h

end Entry

/-- What a rule asks of the names and literals that a path is made of. -/
structure Rules.OfPaths (P : Rules) : Prop where
  identifier : ∀ s, IsName s → P.expr (.identifier s)
  member : ∀ object property, IsName property → P.expr (.member object property)
  index : ∀ object key, P.expr (.index object key)
  string : ∀ value, IsEscaped value.toList → '\n' ∉ value.toList → P.expr (.string value '\'')
  call : ∀ callee args, P.expr (.call callee args)
  methodCall : ∀ object method args, IsName method → P.expr (.methodCall object method args)

theorem Rules.OfPaths.every {P : Rules} (hP : P.OfPaths) {e : Expr} (h : e.isPath = true) : e.Every P := by
  fun_induction Expr.isPath e with
  | case1 s => exact hP.identifier s (by simpa using h)
  | case2 object property ih =>
    simp only [Bool.and_eq_true, decide_eq_true_eq] at h
    exact ⟨hP.member _ _ h.2, ih h.1⟩
  | case3 object value quote ih =>
    simp only [Bool.and_eq_true, beq_iff_eq, Bool.not_eq_eq_eq_not, Bool.not_true, List.contains_eq_mem,
      decide_eq_false_iff_not] at h
    obtain ⟨⟨⟨hobject, rfl⟩, hbody⟩, hn⟩ := h
    have hescaped : IsEscaped value.toList := hbody ▸ IsEscaped.quotedBody value.toList
    exact ⟨hP.index _ _, ih hobject, hP.string value hescaped hn⟩
  | case4 => cases h

theorem Rules.OfPaths.call_entry {P : Rules} (hP : P.OfPaths) {e : Entry} (he : e ∈ Catalogue.entries)
    {args : List Expr} (ha : Expr.EveryAll P args) : (e.call args).Every P := by
  rcases Entry.call_cases he with ⟨callee, hpath, -, hcall⟩ | ⟨object, method, hpath, hm, -, hcall⟩
  · rw [hcall, Expr.Every]
    exact ⟨hP.call _ _, hP.every hpath, ha⟩
  · rw [hcall, Expr.Every]
    exact ⟨hP.methodCall _ _ _ hm, hP.every hpath, ha⟩

theorem printable_ofPaths : printable.OfPaths where
  identifier _ h := h
  member _ _ h := h
  index _ _ := trivial
  string _ h _ := ⟨h.isContent, h.dangles_eq_false⟩
  call _ _ := trivial
  methodCall _ _ _ h := h

theorem Expr.isSpelled_of_isPath {e : Expr} (h : e.isPath = true) : e.IsSpelled defaultIndent :=
  (printable_cases rfl).expr e (printable_ofPaths.every h)

theorem Expr.lexemes_of_isPath {e : Expr} (h : e.isPath = true) : ∃ s ls, e.lexemes = name s :: ls := by
  fun_induction Expr.isPath e with
  | case1 s => exact ⟨s, [], by rw [Expr.lexemes]⟩
  | case2 object property ih =>
    simp only [Bool.and_eq_true] at h
    obtain ⟨s, ls, hls⟩ := ih h.1
    rw [Expr.lexemes, Expr.isBarePrefix_of_isPath h.1, hls]
    exact ⟨s, _, rfl⟩
  | case3 object value quote ih =>
    simp only [Bool.and_eq_true, and_assoc] at h
    obtain ⟨s, ls, hls⟩ := ih h.1
    rw [Expr.lexemes, Expr.isBarePrefix_of_isPath h.1, hls]
    exact ⟨s, _, rfl⟩
  | case4 => cases h

namespace Entry

variable {e : Entry}

/-- The call of an entry starts with a name. -/
theorem head_lexemes (he : e ∈ Catalogue.entries) (args : List Expr) :
    ∃ s ls, (e.call args).lexemes = name s :: ls := by
  rcases call_cases he with ⟨callee, hpath, -, hcall⟩ | ⟨object, method, hpath, -, -, hcall⟩
  · obtain ⟨s, ls, hls⟩ := Expr.lexemes_of_isPath hpath
    rw [hcall, Expr.lexemes, Expr.isBarePrefix_of_isPath hpath, hls]
    exact ⟨s, _, rfl⟩
  · obtain ⟨s, ls, hls⟩ := Expr.lexemes_of_isPath hpath
    rw [hcall, Expr.lexemes, Expr.isBarePrefix_of_isPath hpath, hls]
    exact ⟨s, _, rfl⟩

theorem call?_call (he : e ∈ Catalogue.entries) (args : List Expr) : (e.call args).call? = some (e.callee, args) := by
  rcases call_cases he with ⟨callee, -, htext, hcall⟩ | ⟨object, method, -, -, htext, hcall⟩
  · rw [hcall, Expr.call?, htext]
  · rw [hcall, Expr.call?, htext]

theorem text_call (he : e ∈ Catalogue.entries) (args : List Expr) :
    (e.call args).text = e.callee ++ "(" ++ ", ".intercalate (args.map Expr.text) ++ ")" := by
  have hargs : Printer.exprs defaultIndent 0 args = ", ".intercalate (args.map Expr.text) := Printer.exprs_eq ..
  rcases call_cases he with ⟨callee, hpath, htext, hcall⟩ | ⟨object, method, hpath, -, htext, hcall⟩
  · have hbare := Expr.isBarePrefix_of_isPath hpath
    rw [hcall, Expr.text, Printer.expr, hargs, hbare, ← htext]
    rfl
  · have hbare := Expr.isBarePrefix_of_isPath hpath
    rw [hcall, Expr.text, Printer.expr, hargs, hbare, ← htext]
    rfl

theorem spells_callee (he : e ∈ Catalogue.entries) :
    ∃ ls, (∀ next, breaksWord next = true → Spells e.callee.toList ls next) ∧
    ∀ args, (e.call args).lexemes = ls ++ mark "(" :: (commas (Expr.lexemesAll args) ++ [mark ")"]) := by
  rcases call_cases he with ⟨callee, hpath, htext, hcall⟩ | ⟨object, method, hpath, hm, htext, hcall⟩
  · have hbare := Expr.isBarePrefix_of_isPath hpath
    refine ⟨callee.lexemes, fun next hn => ?_, fun args => ?_⟩
    · rw [← htext]
      exact (Expr.isSpelled_of_isPath hpath).bare hbare 0 next hn
    · rw [hcall, Expr.lexemes, hbare]
      rfl
  · have hbare := Expr.isBarePrefix_of_isPath hpath
    refine ⟨object.lexemes ++ [mark ":", name method], fun next hn => ?_, fun args => ?_⟩
    · rw [← htext]
      exact ((Expr.isSpelled_of_isPath hpath).bare hbare 0 (some ':') rfl).colon hm hn
    · rw [hcall, Expr.lexemes, hbare]
      simp [enclosed]

/-- The callee spells a path before the parenthesis. -/
theorem spells_path (he : e ∈ Catalogue.entries) {next : Option Char} (hn : breaksWord next = true) :
    Spells e.callee.toList (path e.callee) next := by
  obtain ⟨ls, hls, -⟩ := spells_callee he
  have hpath : path e.callee = ls := (hls none rfl).lexemesOf_pieces
  rw [hpath]
  exact hls next hn

theorem lexemes_call (he : e ∈ Catalogue.entries) (args : List Expr) :
    (e.call args).lexemes = path e.callee ++ mark "(" :: (commas (Expr.lexemesAll args) ++ [mark ")"]) := by
  obtain ⟨ls, hls, hcall⟩ := spells_callee he
  have hpath : path e.callee = ls := (hls none rfl).lexemesOf_pieces
  rw [hpath, hcall]

end Entry

def Json.requoted : Json → Json
  | .string s => .string (Text.requoted s)
  | v => v

def Arg.isQuoted : Arg → Bool
  | .field f => f.style == .quoted
  | .handler .. => false

/-- Is the field of this kind of nodes one whose value is written as a string literal? -/
def Catalogue.isQuoted (kind key : String) : Bool :=
  entries.any fun e => e.kind == kind && e.args.any fun arg => arg.key == key && arg.isQuoted

theorem Catalogue.isQuoted_eq : ∀ e ∈ entries, (∀ arg ∈ e.args, isQuoted e.kind arg.key = arg.isQuoted) ∧
    ∀ key ∈ "label" :: e.fixed.map Prod.fst, isQuoted e.kind key = false := by
  decide +kernel

theorem Catalogue.kind_ne_structural : ∀ k ∈ NodeKind.structural, ∀ e ∈ entries, e.kind ≠ k.tag := by
  decide +kernel

/-- Only the nodes of calls have quoted fields. -/
theorem Catalogue.isQuoted_structural {k : NodeKind} (hk : k ∈ NodeKind.structural) (key : String) :
    isQuoted k.tag key = false := by
  rw [isQuoted, List.any_eq_false]
  intro e he
  simp [kind_ne_structural k hk e he]

/-- The data of a node with the values of its quoted fields as they are written. -/
def Fields.requoted (kind : String) (fields : Fields) : Fields :=
  fields.map fun f => (f.1, if Catalogue.isQuoted kind f.1 then f.2.requoted else f.2)

theorem Fields.requoted_eq_self {kind : String} {fields : Fields}
    (h : ∀ k ∈ fields.keys, Catalogue.isQuoted kind k = false) :
    fields.requoted kind = fields := by
  refine (List.map_congr_left fun f hf => ?_).trans (List.map_id fields)
  rw [h f.1 (List.mem_map_of_mem hf)]
  rfl

/-- The arguments as they are written fill the same fields, with the quoted values as they are written. -/
theorem Arg.Fill.requote {kind : String} {args : List Arg} {es : List Expr} {fs : Fields} {body : Option (List Stmt)}
    (h : Fill args es fs body) (hk : ∀ arg ∈ args, Catalogue.isQuoted kind arg.key = arg.isQuoted) :
    Fill args (Arg.requote args es) (fs.requoted kind) body := by
  have htail {arg : Arg} {args : List Arg} (h : ∀ a ∈ arg :: args, Catalogue.isQuoted kind a.key = a.isQuoted) :=
    (List.forall_mem_cons.mp h).2
  have hstyle {f : FieldSpec} {args : List Arg} {style : FieldStyle} (hf : f.style = style)
      (h : ∀ a ∈ Arg.field f :: args, Catalogue.isQuoted kind a.key = a.isQuoted) :
      Catalogue.isQuoted kind f.name = (style == .quoted) := by
    rw [← hf]
    exact h _ List.mem_cons_self
  induction h with
  | nil => exact .nil
  | handler params optional h ih =>
    rename_i args es fs names body
    have hkey : Catalogue.isQuoted kind handlerParams = false := hk _ List.mem_cons_self
    have hfill := @Fill.handler _ _ _ names body params optional (ih (htail hk))
    simpa [Arg.requote, Fields.requoted, hkey] using hfill
  | noHandler params h ih => exact .noHandler params (by simpa [requote_nil] using ih (htail hk))
  | quoted hf h ih =>
    rename_i f s quote
    have hfill := @Fill.quoted _ _ _ _ f (Text.requoted s) '\'' hf (ih (htail hk))
    simpa [Arg.requote, hf, Expr.requoted, Json.requoted, Fields.requoted, hstyle hf hk] using hfill
  | raw hf he h ih =>
    have hkey : Catalogue.isQuoted kind _ = false := hstyle hf hk
    have hfill := Fill.raw hf he (ih (htail hk))
    simpa [Arg.requote, hf, Fields.requoted, hkey] using hfill
  | absent hf ho h ih => exact .absent hf ho (by simpa [requote_nil] using ih (htail hk))
  | rest hf hes ht h ih =>
    rename_i args es fs body f
    have hkey : Catalogue.isQuoted kind f.name = false := hstyle hf hk
    have hsame : Arg.requote (.field f :: args) es = es := by cases es <;> simp [Arg.requote, hf]
    have hfill := Fill.rest hf hes ht (by simpa [requote_nil] using ih (htail hk))
    rw [hsame]
    simpa [Fields.requoted, hkey] using hfill
  | noRest hf hes ht h ih =>
    rename_i args es fs body f
    have hsame : Arg.requote (.field f :: args) es = es := by cases es <;> simp [Arg.requote, hf]
    rw [hsame]
    exact .noRest hf hes ht (by simpa [requote_nil] using ih (htail hk))

namespace Text

/-- Texts with a comma before each. -/
def commaed (texts : List String) : String := String.join (texts.map (", " ++ ·))

@[simp] theorem commaed_nil : commaed [] = "" := String.join_nil

@[simp] theorem commaed_cons (text : String) (texts : List String) :
    commaed (text :: texts) = ", " ++ text ++ commaed texts := by
  rw [commaed, List.map_cons, String.join_cons, commaed]

theorem commaed_eq_intercalate {texts : List String} (h : texts ≠ []) :
    commaed texts = ", " ++ ", ".intercalate texts := by
  induction texts with
  | nil => exact absurd rfl h
  | cons text texts ih =>
    cases texts with
    | nil => simp
    | cons next texts =>
      rw [commaed_cons, ih (by simp), String.intercalate_cons_cons]
      simp [String.append_assoc]

theorem append_join_commas (texts : List String) :
    ", " ++ String.join (texts.map (· ++ ", ")) = commaed texts ++ ", " := by
  induction texts with
  | nil => simp
  | cons text texts ih =>
    rw [List.map_cons, String.join_cons, commaed_cons, String.append_assoc, ih]
    simp [String.append_assoc]

theorem intercalate_eq_of_commaed {texts texts' : List String} (h : commaed texts = commaed texts') :
    ", ".intercalate texts = ", ".intercalate texts' := by
  by_cases ht : texts = []
  · by_cases ht' : texts' = []
    · rw [ht, ht']
    · rw [ht, commaed_eq_intercalate ht'] at h
      exact absurd h.symm (by simp)
  · by_cases ht' : texts' = []
    · rw [ht', commaed_eq_intercalate ht] at h
      exact absurd h (by simp)
    · rw [commaed_eq_intercalate ht, commaed_eq_intercalate ht'] at h
      exact String.append_right_inj _ |>.mp h

theorem join_eq_of_commaed {texts texts' : List String} (h : commaed texts = commaed texts') :
    String.join (texts.map (· ++ ", ")) = String.join (texts'.map (· ++ ", ")) := by
  have hcomma := append_join_commas texts
  rw [h, ← append_join_commas texts'] at hcomma
  exact String.append_right_inj _ |>.mp hcomma

theorem isBlankText_intercalate_cons {text : String} (h : isBlankText text = false) (texts : List String) :
    isBlankText (", ".intercalate (text :: texts)) = false := by
  rw [isBlankText, List.all_eq_false] at h ⊢
  obtain ⟨c, hc, hblank⟩ := h
  refine ⟨c, ?_, hblank⟩
  cases texts with
  | nil => simpa using hc
  | cons next texts =>
    rw [String.intercalate_cons_cons, String.append_assoc, String.toList_append]
    exact List.mem_append_left _ hc

end Text

theorem Catalogue.optional_of_rest : ∀ e ∈ entries, ∀ f ∈ e.fields, f.style = .rest → f.optional = true := by
  decide +kernel

/-- Only a handler takes a function. -/
theorem Arg.Fill.any_isFunction {args : List Arg} {es : List Expr} {fs : Fields} (h : Fill args es fs none) :
    es.any Expr.isFunction = false := by
  generalize hb : (none : Option (List Stmt)) = body at h
  induction h with
  | nil | noHandler | absent => rfl
  | handler => cases hb
  | quoted _ _ ih => exact (List.any_cons ..).trans (ih hb)
  | raw _ he _ ih => rw [List.any_cons, he, ih hb, Bool.or_self]
  | rest _ hes _ _ _ | noRest _ hes _ _ _ => exact hes

/-- A node that has the fields of a call is written with the arguments of the call. -/
theorem Arg.Fill.commaed_written {n : Node} {args : List Arg} {es : List Expr} {fs : Fields} (h : Fill args es fs none)
    (hn : (args.map Arg.key).Nodup) (hget : ∀ k ∈ args.map Arg.key, n.data.get? k = fs.get? k)
    (ho : ∀ f, Arg.field f ∈ args → f.style = .rest → f.optional = true)
    (hb : ∀ e ∈ Arg.requote args es, Text.isBlankText e.text = false) :
    Text.commaed (args.filterMap (Arg.written n)) = Text.commaed ((Arg.requote args es).map Expr.text) := by
  generalize hbody : (none : Option (List Stmt)) = body at h
  have hrest {arg : Arg} {args : List Arg} (h : ∀ f, Arg.field f ∈ arg :: args → f.style = .rest → f.optional = true) :
      ∀ f, Arg.field f ∈ args → f.style = .rest → f.optional = true := fun f hf => h f (List.mem_cons_of_mem _ hf)
  have hnothing {args : List Arg} : ∀ e ∈ Arg.requote args [], Text.isBlankText e.text = false := by simp [requote_nil]
  -- the field of the first argument is no field of the others
  have hlater {arg : Arg} {args : List Arg} {fs : Fields} {v : Json} (hn : (arg.key :: args.map Arg.key).Nodup)
      (h : ∀ k ∈ arg.key :: args.map Arg.key, n.data.get? k = Fields.get? ((arg.key, v) :: fs) k) :
      ∀ k ∈ args.map Arg.key, n.data.get? k = fs.get? k := by
    intro k hk
    have hne : arg.key ≠ k := by
      rintro rfl
      exact (List.nodup_cons.mp hn).1 hk
    rw [h k (List.mem_cons_of_mem _ hk), Fields.get?_cons_of_ne hne]
  have hfirst {f : FieldSpec} {args : List Arg} {fs : Fields} {s : String}
      (h : ∀ k ∈ f.name :: args.map Arg.key, n.data.get? k = Fields.get? ((f.name, .string s) :: fs) k) :
      n.text? f.name = some s := by
    rw [Node.text?, h f.name List.mem_cons_self, Fields.get?_cons_self]
  have hnone {f : FieldSpec} {args : List Arg} {es : List Expr} {fs : Fields} {body : Option (List Stmt)}
      (h : Fill args es fs body) (hn : (f.name :: args.map Arg.key).Nodup)
      (hget : ∀ k ∈ f.name :: args.map Arg.key, n.data.get? k = fs.get? k) (ho : f.optional = true) :
      Arg.written n (.field f) = none := by
    have hkey : f.name ∉ fs.keys := fun hm => (List.nodup_cons.mp hn).1 (h.keys_sublist.subset hm)
    have htext : n.text? f.name = none := by
      rw [Node.text?, hget f.name List.mem_cons_self, Fields.get?_eq_none hkey]
    cases hs : f.style <;> simp [Arg.written, CallText.fieldText?, hs, htext, Node.filled?, ho]
  induction h with
  | nil => rfl
  | handler => cases hbody
  | noHandler params h ih =>
    rw [List.filterMap_cons, Arg.written, ih hn.of_cons (List.forall_mem_cons.mp hget).2 (hrest ho) hnothing hbody,
      requote_nil]
    rfl
  | quoted hf h ih =>
    rename_i f s quote
    simp only [Arg.requote, hf] at hb
    obtain ⟨-, hb⟩ := List.forall_mem_cons.mp hb
    have hwritten : Arg.written n (.field f) = some (Text.quoted s) := by
      simp [Arg.written, CallText.fieldText?, hf, hfirst hget]
    have htext : (Expr.string (Text.requoted s) '\'').text = Text.quoted s := (Text.quoted_eq s).symm
    rw [List.filterMap_cons, hwritten]
    simp only [Arg.requote, hf, Expr.requoted, List.map_cons, Text.commaed_cons, htext]
    rw [ih hn.of_cons (hlater hn hget) (hrest ho) hb hbody]
  | raw hf he h ih =>
    rename_i e es fs body f
    simp only [Arg.requote, hf] at hb
    obtain ⟨he, hb⟩ := List.forall_mem_cons.mp hb
    have hwritten : Arg.written n (.field f) = some e.text := by
      simp [Arg.written, CallText.fieldText?, hf, Node.filled?_of_text? (hfirst hget) he]
    rw [List.filterMap_cons, hwritten]
    simp only [Arg.requote, hf, List.map_cons, Text.commaed_cons]
    rw [ih hn.of_cons (hlater hn hget) (hrest ho) hb hbody]
  | absent hf hopt h ih =>
    rw [List.filterMap_cons, hnone h hn hget hopt, requote_nil]
    have htail := ih hn.of_cons (List.forall_mem_cons.mp hget).2 (hrest ho) hnothing hbody
    rwa [requote_nil] at htail
  | rest hf hes ht h ih =>
    rename_i args es fs body f
    cases es with
    | nil => cases ht
    | cons e es =>
      simp only [Arg.requote, hf] at hb
      have hblank := Text.isBlankText_intercalate_cons (hb e List.mem_cons_self) (es.map Expr.text)
      have hwritten : Arg.written n (.field f) = some (", ".intercalate ((e :: es).map Expr.text)) := by
        simp only [List.map_cons] at hget ⊢
        simp [Arg.written, CallText.fieldText?, hf, Node.filled?_of_text? (hfirst hget) hblank]
      have htail := ih hn.of_cons (hlater hn hget) (hrest ho) hnothing hbody
      rw [requote_nil, List.map_nil, Text.commaed_nil] at htail
      rw [List.filterMap_cons, hwritten]
      simp only [Arg.requote, hf, Text.commaed_cons, htail, String.append_empty]
      exact (Text.commaed_eq_intercalate (by simp)).symm
  | noRest hf hes ht h ih =>
    rename_i args es fs body f
    cases es with
    | nil =>
      rw [List.filterMap_cons, hnone h hn hget (ho f List.mem_cons_self hf), requote_nil]
      have htail := ih hn.of_cons (List.forall_mem_cons.mp hget).2 (hrest ho) hnothing hbody
      rwa [requote_nil] at htail
    | cons e es =>
      simp only [Arg.requote, hf] at hb
      have hblank := Text.isBlankText_intercalate_cons (hb e List.mem_cons_self) (es.map Expr.text)
      rw [← List.map_cons, String.isEmpty_iff.mp ht] at hblank
      exact absurd hblank (by decide)

theorem Fields.get?_append (fs gs : Fields) (key : String) : (fs ++ gs).get? key = (fs.get? key).or (gs.get? key) := by
  induction fs with
  | nil => rfl
  | cons e fs ih =>
    obtain ⟨k, v⟩ := e
    by_cases hk : k = key
    · subst hk
      rw [List.cons_append, get?_cons_self, get?_cons_self, Option.some_or]
    · rw [List.cons_append, get?_cons_of_ne hk, get?_cons_of_ne hk, ih]

theorem Fields.get?_append_left {fs gs : Fields} {key : String} (h : key ∉ gs.keys) :
    (fs ++ gs).get? key = fs.get? key := by
  rw [get?_append, get?_eq_none h, Option.or_none]

theorem Fields.get?_append_right {fs gs : Fields} {key : String} (h : key ∉ fs.keys) :
    (fs ++ gs).get? key = gs.get? key := by
  rw [get?_append, get?_eq_none h, Option.none_or]

namespace CallText

variable {entry : Entry} (he : entry ∈ Catalogue.entries) {n : Node} {args : List Expr} {fs : Fields}
include he

theorem optional_of_rest {f : FieldSpec} (hf : Arg.field f ∈ entry.args) (hs : f.style = .rest) : f.optional = true :=
  Catalogue.optional_of_rest entry he f (List.mem_filterMap.mpr ⟨_, hf, rfl⟩) hs

/-- A node that has the fields of a call without a handler is written as the call of its entry, with the quoted
arguments as they are written. -/
theorem ofNode_eq_call (hfill : Arg.Fill entry.args args fs none)
    (hget : ∀ k ∈ entry.args.map Arg.key, n.data.get? k = fs.get? k)
    (hb : ∀ e ∈ Arg.requote entry.args args, Text.isBlankText e.text = false) :
    ofNode entry n = .line (entry.call (Arg.requote entry.args args)).text := by
  have hnone (params : String) (optional : Bool) (hm : Arg.handler params optional ∈ entry.args) :
      n.text? handlerParams = none := by
    have hkey : handlerParams ∉ fs.keys := by
      intro hmem
      have hnames := (Catalogue.params_free entry he).1
      have hsome := hfill.isSome_of_mem_params (fun f hf => hnames f (List.mem_filterMap.mpr ⟨_, hf, rfl⟩)) hmem
      cases hsome
    have hparams : n.data.get? handlerParams = fs.get? handlerParams := hget _ (List.mem_map_of_mem hm)
    rw [Node.text?, hparams, Fields.get?_eq_none hkey]
  have hwritten := hfill.commaed_written (Catalogue.nodup_args he) hget (fun _ => optional_of_rest he) hb
  rw [ofNode_eq_line hfill hnone, Entry.text_call he, Text.intercalate_eq_of_commaed hwritten]

/-- A node that has the fields of a call with a handler is written around the body of the handler. -/
theorem ofNode_eq_around {body : List Stmt} (hfill : Arg.Fill entry.args args fs (some body))
    (hget : ∀ k ∈ entry.args.map Arg.key, n.data.get? k = fs.get? k)
    (hb : ∀ e ∈ Arg.requote entry.args args, Text.isBlankText e.text = false) :
    ∃ before names behind, Arg.requote entry.args args = before ++ .function names body :: behind ∧
      before.any Expr.isFunction = false ∧ behind.any Expr.isFunction = false ∧ ofNode entry n = .block
        (entry.callee ++ "(" ++ String.join ((before.map Expr.text).map (· ++ ", ")) ++ "function(" ++
          ", ".intercalate names ++ ")")
        ("end" ++ Text.commaed (behind.map Expr.text) ++ ")") := by
  have hnodup := Catalogue.nodup_args he
  obtain ⟨args₁, args₂, es₁, es₂, fs₁, fs₂, params, optional, names, hargs, -, hfs, h₁, h₂, hrequote⟩ :=
    hfill.split rfl
  have hquoted (part : List Arg) (hsub : ∀ arg ∈ part, arg ∈ entry.args) :
      ∀ arg ∈ part, Catalogue.isQuoted entry.kind arg.key = arg.isQuoted :=
    fun arg hm => (Catalogue.isQuoted_eq entry he).1 arg (hsub arg hm)
  have hbefore := (h₁.requote (hquoted args₁ fun arg hm => by simp [hargs, hm])).any_isFunction
  have hbehind := (h₂.requote (hquoted args₂ fun arg hm => by simp [hargs, hm])).any_isFunction
  refine ⟨_, names, _, hrequote, hbefore, hbehind, ?_⟩
  have hopt : ∀ f, Arg.field f ∈ entry.args → f.style = .rest → f.optional = true := fun _ => optional_of_rest he
  have hkeys := hnodup
  rw [hfs] at hget
  rw [hargs] at hget hopt
  rw [hargs, List.map_append, List.map_cons] at hkeys
  obtain ⟨hkeys₁, hkeys₂, hapart⟩ := List.nodup_append.mp hkeys
  have hparams : n.text? handlerParams = some (", ".intercalate names) := by
    have hfree : handlerParams ∉ fs₁.keys := fun hm =>
      hapart _ (h₁.keys_sublist.subset hm) _ List.mem_cons_self rfl
    rw [Node.text?, hget handlerParams (by simp [Arg.key]), Fields.get?_append_right hfree, Fields.get?_cons_self]
  have hwritten₁ : Text.commaed (args₁.filterMap (Arg.written n)) =
      Text.commaed ((Arg.requote args₁ es₁).map Expr.text) := by
    refine h₁.commaed_written hkeys₁ (fun k hk => ?_) (fun f hf => hopt f (List.mem_append_left _ hf))
      (fun e hm => hb e (by simp [hrequote, hm]))
    rw [hget k (by simp [hk]), Fields.get?_append_left]
    intro hm
    have hm : k ∈ handlerParams :: args₂.map Arg.key :=
      List.mem_cons.mpr ((List.mem_cons.mp hm).imp id fun hm => h₂.keys_sublist.subset hm)
    exact hapart k hk k hm rfl
  have hwritten₂ : Text.commaed (args₂.filterMap (Arg.written n)) =
      Text.commaed ((Arg.requote args₂ es₂).map Expr.text) := by
    refine h₂.commaed_written hkeys₂.of_cons (fun k hk => ?_)
      (fun f hf => hopt f (List.mem_append_right _ (List.mem_cons_of_mem _ hf)))
        (fun e hm => hb e (by simp [hrequote, hm]))
    have hne : handlerParams ≠ k := by
      rintro rfl
      exact (List.nodup_cons.mp hkeys₂).1 hk
    rw [hget k (by simp [hk]), Fields.get?_append_right, Fields.get?_cons_of_ne hne]
    intro hm
    exact hapart k (h₁.keys_sublist.subset hm) k (List.mem_cons_of_mem _ hk) rfl
  rw [ofNode_eq_block hnodup hargs h₁ h₂ hparams, Text.join_eq_of_commaed hwritten₁, ← Text.commaed, hwritten₂]

end CallText

namespace CallMatch

variable {callee : String} {args : List Expr} {m : CallMatch}

/-- The arguments of an entry are kept apart from the label and the fixed data. -/
theorem get?_node (h : ofCall? callee args = some m) {fs : Fields} (hfields : m.fields = fs ++ m.entry.fixedFields) :
    ∀ k ∈ m.entry.args.map Arg.key, m.node.data.get? k = fs.get? k := by
  intro k hk
  have hnodup := Catalogue.nodup_keys m.entry (mem_entries h)
  obtain ⟨hlabel, hkeys⟩ := List.nodup_cons.mp hnodup
  have hne : "label" ≠ k := by
    rintro rfl
    exact hlabel (List.mem_append_left _ hk)
  have hfixed : k ∉ m.entry.fixedFields.keys := by
    intro hm
    have hm : k ∈ m.entry.fixed.map Prod.fst := by simpa [Entry.fixedFields, Fields.keys] using hm
    exact (List.nodup_append.mp hkeys).2.2 k hk k hm rfl
  change Fields.get? (("label", _) :: m.fields) k = _
  rw [Fields.get?_cons_of_ne hne, hfields, Fields.get?_append_left hfixed]

/-- A call without a handler is written as the call of its entry with the quoted arguments as they are written. -/
theorem emission_eq_line (h : ofCall? callee args = some m) (hbody : m.body = none)
    (hb : ∀ e ∈ Arg.requote m.entry.args args, Text.isBlankText e.text = false) :
    emission m.entry.kind m.data = .line (m.entry.call (Arg.requote m.entry.args args)).text := by
  obtain ⟨-, fs, hfill, hfields⟩ := ofCall?_eq_some_iff.mp h
  rw [hbody] at hfill
  rw [emission_node h, CallText.ofNode_eq_call (mem_entries h) hfill (get?_node h hfields) hb, Emission.ofCallText]

/-- A call with a handler is written around the body of the handler. -/
theorem emission_eq_block (h : ofCall? callee args = some m) {body : List Stmt} (hbody : m.body = some body)
    (hb : ∀ e ∈ Arg.requote m.entry.args args, Text.isBlankText e.text = false) :
    ∃ before names behind, Arg.requote m.entry.args args = before ++ .function names body :: behind ∧
      before.any Expr.isFunction = false ∧ emission m.entry.kind m.data = .block
        (m.entry.callee ++ "(" ++ String.join ((before.map Expr.text).map (· ++ ", ")) ++ "function(" ++
          ", ".intercalate names ++ ")")
        ("end" ++ Text.commaed (behind.map Expr.text) ++ ")") := by
  obtain ⟨-, fs, hfill, hfields⟩ := ofCall?_eq_some_iff.mp h
  rw [hbody] at hfill
  obtain ⟨before, names, behind, hargs, hbefore, -, hblock⟩ :=
    CallText.ofNode_eq_around (mem_entries h) hfill (get?_node h hfields) hb
  refine ⟨before, names, behind, hargs, hbefore, ?_⟩
  rw [emission_node h, hblock, Emission.ofCallText]

end CallMatch

end ScriptGraph
