import ScriptGraph.Proofs.HandlerBodies
import ScriptGraph.Proofs.LineIndependence
import ScriptGraph.Proofs.PrinterRoundTrip
import ScriptGraph.Proofs.StatementTexts

namespace ScriptGraph

open Lexeme

/-- No function, and no string that ends in an unpaired backslash. -/
def plain : Rules where
  expr
    | .string value _ => dangles value.toList = false
    | .function .. => False
    | _ => True
  action _ := False
  block _ := False

/-- An expression without functions that can be printed and read again. -/
structure Expr.IsPlain (e : Expr) : Prop where
  legible : e.Every legible
  plain : e.Every plain

theorem imply_separable : Rules.Imply legible plain separable where
  expr e _ h := by
    cases e with
    | string value quote => exact h
    | _ => trivial
  field _ _ _ := trivial
  action _ _ h := h.elim
  block _ _ h := h.elim

namespace Expr.IsPlain

variable {e : Expr}

theorem every_printable (h : e.IsPlain) : e.Every printable :=
  (imply_printable fun _ _ h => h).cases.expr e h.legible h.plain

theorem isSpelled (h : e.IsPlain) : e.IsSpelled defaultIndent := (printable_cases rfl).expr e h.every_printable

theorem isRead (h : e.IsPlain) : e.IsRead :=
  separable_separates.cases.expr e h.every_printable (imply_separable.cases.expr e h.legible h.plain)

theorem isFunction (h : e.IsPlain) : e.isFunction = false := by
  cases e with
  | function => exact h.plain.1.elim
  | _ => rfl

theorem isBlankText (h : e.IsPlain) : Text.isBlankText e.text = false :=
  (h.isSpelled.spells 0 none rfl).isBlankText e.lexemes_ne_nil

theorem requoted (h : e.IsPlain) : e.requoted.IsPlain := by
  cases e with
  | string value quote =>
    have hescaped := Text.isEscaped_requoted value
    exact ⟨hescaped.isContent, hescaped.dangles_eq_false⟩
  | _ => exact h

end Expr.IsPlain

theorem legible_ofPaths : legible.OfPaths where
  identifier _ h := h
  member _ _ h := h
  index _ _ := trivial
  string _ h _ := h.isContent
  call _ _ := trivial
  methodCall _ _ _ h := h

theorem plain_ofPaths : plain.OfPaths where
  identifier _ _ := trivial
  member _ _ _ := trivial
  index _ _ := trivial
  string _ h _ := h.dangles_eq_false
  call _ _ := trivial
  methodCall _ _ _ _ := trivial

theorem Expr.isPlain_of_isPath {e : Expr} (h : e.isPath = true) : e.IsPlain :=
  ⟨legible_ofPaths.every h, plain_ofPaths.every h⟩

/-- A plain expression, or a handler whatever its body is. -/
def Expr.IsArgument : Expr → Prop
  | .function names _ => IsParams names
  | e => e.IsPlain

namespace Expr.IsArgument

variable {e : Expr}

theorem of_isPlain (h : e.IsPlain) : e.IsArgument := by
  cases e with
  | function => cases h.isFunction
  | _ => exact h

theorem isPlain (h : e.IsArgument) (hf : e.isFunction = false) : e.IsPlain := by
  cases e with
  | function => cases hf
  | _ => exact h

theorem isBlankText (h : e.IsArgument) : Text.isBlankText e.text = false := by
  cases e with
  | function names body =>
    rw [Text.isBlankText, List.all_eq_false]
    refine ⟨'f', ?_, by decide⟩
    cases body <;> simp [Expr.text, Printer.expr]
  | _ => exact IsPlain.isBlankText h

theorem requoted (h : e.IsArgument) : e.requoted.IsArgument := by
  cases e with
  | string value quote => exact IsPlain.requoted h
  | _ => exact h

end Expr.IsArgument

theorem Arg.isArgument_requote {args : List Arg} {es : List Expr} (h : ∀ e ∈ es, e.IsArgument) :
    ∀ e ∈ requote args es, e.IsArgument := by
  fun_induction requote args es with
  | case1 f args e es hf ih =>
    obtain ⟨he, hes⟩ := List.forall_mem_cons.mp h
    exact List.forall_mem_cons.mpr ⟨he.requoted, ih hes⟩
  | case2 f args e es hf ih | case4 _ _ args e es ih =>
    obtain ⟨he, hes⟩ := List.forall_mem_cons.mp h
    exact List.forall_mem_cons.mpr ⟨he, ih hes⟩
  | case3 | case5 => exact h

/-- The function with this body. -/
def Expr.withBody (body : List Stmt) : Expr → Expr
  | .function names _ => .function names body
  | e => e

theorem Expr.withBody_of_isFunction {e : Expr} (h : e.isFunction = false) (body : List Stmt) : e.withBody body = e := by
  cases e with
  | function => cases h
  | _ => rfl

theorem Expr.map_withBody {es : List Expr} (h : es.any Expr.isFunction = false) (body : List Stmt) :
    es.map (Expr.withBody body) = es := by
  refine (List.map_congr_left fun e he => ?_).trans (List.map_id es)
  exact Expr.withBody_of_isFunction (Bool.eq_false_iff.mpr (List.any_eq_false.mp h e he)) body

/-- Another body of the handler fills the same fields. -/
theorem Arg.Fill.withBody {args : List Arg} {es : List Expr} {fs : Fields} {body : Option (List Stmt)}
    (h : Fill args es fs body) (ss : List Stmt) : Fill args (es.map (Expr.withBody ss)) fs (body.map fun _ => ss) := by
  induction h with
  | nil => exact .nil
  | handler params optional _ ih => exact .handler params optional ih
  | noHandler params _ ih => exact .noHandler params ih
  | quoted hf _ ih => exact .quoted hf ih
  | raw hf he _ ih =>
    rw [List.map_cons, Expr.withBody_of_isFunction he]
    exact .raw hf he ih
  | absent hf ho _ ih => exact .absent hf ho ih
  | rest hf hes ht _ ih =>
    rw [Expr.map_withBody hes]
    exact .rest hf hes ht ih
  | noRest hf hes ht _ ih =>
    rw [Expr.map_withBody hes]
    exact .noRest hf hes ht ih

/-- The lexemes of an expression, with those given for the body of a function. -/
def Expr.lexemesAround (body : List Lexeme) : Expr → List Lexeme
  | .function names _ => keyword "function" :: (params names ++ (body ++ [keyword "end"]))
  | e => e.lexemes

theorem Expr.lexemesAround_of_isFunction {e : Expr} (h : e.isFunction = false) (body : List Lexeme) :
    e.lexemesAround body = e.lexemes := by
  cases e with
  | function => cases h
  | _ => rfl

theorem Expr.lexemesAround_withBody (ss : List Stmt) (body : List Lexeme) (e : Expr) :
    (e.withBody ss).lexemesAround body = e.lexemesAround body := by
  cases e <;> rfl

theorem Expr.map_lexemesAround {es : List Expr} (h : es.any Expr.isFunction = false) (body : List Lexeme) :
    es.map (Expr.lexemesAround body) = es.map Expr.lexemes := by
  refine List.map_congr_left fun e he => ?_
  exact Expr.lexemesAround_of_isFunction (Bool.eq_false_iff.mpr (List.any_eq_false.mp h e he)) body

/-- An argument is read from its lexemes, and a function with the text that is put into it as its body. -/
theorem StandsAlone.readFrom {text : String} {ss : List Stmt} (h : StandsAlone text ss) {e : Expr} (he : e.IsArgument) :
    (e.withBody ss).ReadFrom (e.lexemesAround (code text.toList)) := by
  cases hf : e.isFunction with
  | false =>
    rw [Expr.withBody_of_isFunction hf, Expr.lexemesAround_of_isFunction hf]
    exact (he.isPlain hf).isRead.readFrom
  | true =>
    cases e with
    | function names body =>
      refine ⟨⟨_, _, rfl, by decide⟩, fun next d hc => ?_⟩
      have hbody (next : Token) (d : Nat) : Derives true d (.body (Stmt.mapLinesAll origin ss))
          (tokens (code text.toList) ++ [⟨.keyword, "end", 0, 0, none⟩]) next :=
        .body (.block (.inl rfl) (h.derives rfl (d + 1))) (.inl ⟨_, rfl, rfl⟩)
      have hfunction (next : Token) (d : Nat) :
          Derives true d (.expr .primary (.function names (Stmt.mapLinesAll origin ss)))
            (⟨.keyword, "function", 0, 0, none⟩ :: (tokens (params names) ++
              (tokens (code text.toList) ++ [⟨.keyword, "end", 0, 0, none⟩]))) next :=
        .function rfl (IsParams.derives he _) (hbody next d)
      have hreads := Reads.of_primary hfunction ⟨_, _, rfl, rfl⟩
      have hnested := Derives.nested (d := d) (.inl rfl) (hreads.whole .or next (by decide) hc (d + 1))
      simpa [Expr.withBody, Expr.lexemesAround, Expr.mapLines] using hnested
    | _ => cases hf

namespace Entry

variable {entry : Entry} (he : entry ∈ Catalogue.entries)
include he

/-- The call of an entry is read if each argument is read from its own lexemes. -/
theorem reads_call {es : List Expr} {spell : Expr → List Lexeme} (h : ∀ e ∈ es, e.ReadFrom (spell e)) :
    Reads .access (tokens (path entry.callee ++ mark "(" :: (commas (es.map spell) ++ [mark ")"])))
      ((entry.call es).mapLines origin) := by
  have hargs := derives_arguments h
  have hnone := lexemes_call he []
  rcases call_cases he with ⟨callee, hpath, -, hcall⟩ | ⟨object, method, hpath, -, -, hcall⟩
  · rw [hcall, Expr.lexemes, Expr.isBarePrefix_of_isPath hpath] at hnone
    have hlexemes : path entry.callee = callee.lexemes := List.append_cancel_right hnone.symm
    obtain ⟨l, hl, hcallee⟩ := (Expr.isPlain_of_isPath hpath).isRead.callee
    rw [Expr.isBarePrefix_of_isPath hpath] at hcallee
    rw [hcall, Expr.mapLines, Expr.mapLinesAll_eq, hlexemes, tokens_append]
    exact hcallee.call hl hargs
  · rw [hcall, Expr.lexemes, Expr.isBarePrefix_of_isPath hpath] at hnone
    have hlexemes : path entry.callee = object.lexemes ++ [mark ":", name method] := by
      apply (List.append_left_inj (mark "(" :: (commas (Expr.lexemesAll []) ++ [mark ")"]))).mp
      rw [List.append_assoc]
      exact hnone.symm
    obtain ⟨l, hl, hobject⟩ := (Expr.isPlain_of_isPath hpath).isRead.callee
    rw [Expr.isBarePrefix_of_isPath hpath] at hobject
    rw [hcall, Expr.mapLines, Expr.mapLinesAll_eq, hlexemes, tokens_append, tokens_append, List.append_assoc,
      tokens_cons, tokens_cons, tokens_nil, token_mark, token_name]
    exact hobject.methodCall hl rfl rfl hargs

theorem head_path : ∃ s ls, path entry.callee = name s :: ls := by
  obtain ⟨s, ls, hls⟩ := head_lexemes he []
  rw [lexemes_call he] at hls
  cases hpath : path entry.callee with
  | nil =>
    rw [hpath] at hls
    exact absurd (congrArg Lexeme.kind (List.cons.inj hls).1) (by simp [mark, name, verbatim])
  | cons l ms =>
    rw [hpath] at hls
    exact ⟨s, ms, by rw [(List.cons.inj hls).1]⟩

/-- Such a call is a whole script. -/
theorem derives_call {es : List Expr} {spell : Expr → List Lexeme} (h : ∀ e ∈ es, e.ReadFrom (spell e)) :
    Derives true 0 (.stmts [] (Program.mapLines origin [.mk 0 (.evaluate (entry.call es))]))
      (tokens (path entry.callee ++ mark "(" :: (commas (es.map spell) ++ [mark ")"]))) (.endOfInput 0 0) := by
  have hends : Token.endsStmt (.endOfInput 0 0) = true := rfl
  have hnested := Derives.nested (d := 0) (.inl rfl)
    ((reads_call he h).whole .or (.endOfInput 0 0) (by decide) (Token.closes_of_endsStmt hends) 1)
  obtain ⟨s, ls, hpath⟩ := head_path he
  rw [hpath, List.cons_append, tokens_cons, token_name] at hnested ⊢
  have hstmt := Derives.evaluate rfl rfl hnested (Token.assignOp?_of_endsStmt hends)
  have hnone : Derives true 0 (.stmts [] []) [] (.endOfInput 0 0) := .stmtsEnd rfl
  have hstmts := Derives.stmtsCons rfl hstmt hnone
  rwa [List.append_nil] at hstmts

end Entry

/-- The whole text of a call, with this body of the handler if it has one. -/
def CallText.around (body : String) : CallText → String
  | .line text => text
  | .block opener closer => opener ++ "\n" ++ body ++ "\n" ++ closer

/-- The text is one statement, a call that the catalogue takes apart in this way. -/
def CallMatch.IsReadFrom (m : CallMatch) (text : String) : Prop :=
  ∃ line c callee args, Program.parse (tokenize text) = .ok [.mk line (.evaluate c)] ∧
    c.call? = some (callee, args) ∧ ofCall? callee args = some m

theorem Program.eq_evaluate_of_mapLines {q : Program} {line : Nat} {e : Expr}
    (h : Program.mapLines origin q = Program.mapLines origin [.mk line (.evaluate e)]) :
    ∃ line' e', q = [.mk line' (.evaluate e')] ∧ e'.mapLines origin = e.mapLines origin := by
  rw [Program.mapLines, Program.mapLines, Stmt.mapLinesAll_eq, Stmt.mapLinesAll_eq, List.map_singleton] at h
  obtain ⟨s, rfl, hs⟩ := List.map_eq_singleton_iff.mp h
  obtain ⟨line', action⟩ := s
  have haction : action.mapLines origin = .evaluate (e.mapLines origin) := (Stmt.mk.inj hs).2
  cases action with
  | evaluate e' => exact ⟨line', e', rfl, Action.evaluate.inj haction⟩
  | _ => cases haction

/-- A call on other lines is taken apart in the same way. -/
theorem CallMatch.ofCall?_of_mapLines {c c' : Expr} (h : c'.mapLines origin = c.mapLines origin) {callee : String}
    {args : List Expr} (hc : c.call? = some (callee, args)) {m : CallMatch} (hm : ofCall? callee args = some m) :
    ∃ args' m', c'.call? = some (callee, args') ∧ ofCall? callee args' = some m' ∧
      m'.mapLines origin = m.mapLines origin := by
  have hcall (c : Expr) : (c.mapLines origin).call? =
      c.call?.map fun call => (call.1, Expr.mapLinesAll origin call.2) := by
    cases c <;> simp [Expr.mapLines, Expr.call?]
  have hsame := hcall c'
  rw [h, hcall c, hc, Option.map_some] at hsame
  obtain ⟨⟨callee', args'⟩, hc', heq⟩ := Option.map_eq_some_iff.mp hsame.symm
  obtain ⟨rfl, hargs⟩ := Prod.mk.inj heq
  have hmatch := ofCall?_mapLines origin callee' args'
  simp only at hargs
  rw [hargs, ofCall?_mapLines, hm, Option.map_some] at hmatch
  obtain ⟨m', hm', hlines⟩ := Option.map_eq_some_iff.mp hmatch.symm
  exact ⟨args', m', hc', hm', hlines⟩

namespace CallText

variable {entry : Entry} (he : entry ∈ Catalogue.entries) {n : Node} {args : List Expr} {fs : Fields}
  {body : Option (List Stmt)} {text : String} {ss : List Stmt}
include he

/-- The code of a node's text is the call of its entry, with the code of the body in the handler. -/
theorem code_around (hfill : Arg.Fill entry.args args fs body)
    (hget : ∀ k ∈ entry.args.map Arg.key, n.data.get? k = fs.get? k)
    (hargs : ∀ e ∈ Arg.requote entry.args args, e.IsArgument) (hs : EndsLine (text.toList ++ ['\n'])) :
    code ((ofNode entry n).around text).toList = path entry.callee ++ mark "(" ::
      (commas ((Arg.requote entry.args args).map (Expr.lexemesAround (code text.toList))) ++ [mark ")"]) := by
  have hblank : ∀ e ∈ Arg.requote entry.args args, Text.isBlankText e.text = false := fun e h => (hargs e h).isBlankText
  have hspelled {es : List Expr} (hsub : ∀ e ∈ es, e ∈ Arg.requote entry.args args)
      (hf : es.any Expr.isFunction = false) :
      ∀ e ∈ es, e.IsSpelled defaultIndent := by
    intro e h
    exact ((hargs e (hsub e h)).isPlain (Bool.eq_false_iff.mpr (List.any_eq_false.mp hf e h))).isSpelled
  cases body with
  | none =>
    have hf : (Arg.requote entry.args args).any Expr.isFunction = false :=
      (hfill.requote (Catalogue.isQuoted_eq entry he).1).any_isFunction
    have hcall : (entry.call (Arg.requote entry.args args)).IsSpelled defaultIndent := by
      refine (printable_cases rfl).expr _ (printable_ofPaths.call_entry he (Expr.everyAll_iff.mpr fun e h => ?_))
      exact ((hargs e h).isPlain (Bool.eq_false_iff.mpr (List.any_eq_false.mp hf e h))).every_printable
    rw [ofNode_eq_call he hfill hget hblank, Expr.map_lexemesAround hf, ← Expr.lexemesAll_eq, ← Entry.lexemes_call he]
    exact (hcall.spells 0 none rfl).code_eq
  | some body =>
    obtain ⟨before, names, behind, hrequote, hbefore, hbehind, hblock⟩ := ofNode_eq_around he hfill hget hblank
    rw [hrequote] at hargs hspelled
    have hn : IsParams names := hargs (.function names body) (by simp)
    have hopener := Spells.callOpener he (hspelled (fun e h => List.mem_append_left _ h) hbefore) hn
    have hcloser :=
      Spells.callCloser (hspelled (fun e h => List.mem_append_right _ (List.mem_cons_of_mem _ h)) hbehind) none
    have hline := (hopener (some '\n')).endsLine
    have hlines (opener text closer : List Char) :
        opener ++ ['\n'] ++ text ++ ['\n'] ++ closer = (opener ++ ['\n']) ++ ((text ++ ['\n']) ++ closer) := by simp
    have haround : (Expr.function names body).lexemesAround (code text.toList) =
        keyword "function" :: (params names ++ (code text.toList ++ [keyword "end"])) := rfl
    rw [hblock, hrequote, around, String.toList_append, String.toList_append, String.toList_append,
      String.toList_append, show "\n".toList = ['\n'] from rfl, hlines, hline.code_append, hline.code_newline,
      (hopener none).code_eq, hs.code_append, hs.code_newline, hcloser.code_eq, List.map_append, List.map_cons, haround,
      Expr.map_lexemesAround hbefore, Expr.map_lexemesAround hbehind, commas_append_cons]
    simp

/-- The text of a node is read as a call that gives the fields of the node again. -/
theorem reread (hfill : Arg.Fill entry.args args fs body)
    (hget : ∀ k ∈ entry.args.map Arg.key, n.data.get? k = fs.get? k)
    (hargs : ∀ e ∈ Arg.requote entry.args args, e.IsArgument) (hs : StandsAlone text ss) :
    (∃ line, Program.parse (tokenize ((ofNode entry n).around text)) = .error (.tooDeep maxDepth line)) ∨
      ∃ m : CallMatch, m.IsReadFrom ((ofNode entry n).around text) ∧ m.entry = entry ∧
        m.fields = fs.requoted entry.kind ++ entry.fixedFields ∧
        m.body.map (Stmt.mapLinesAll origin) = body.map fun _ => Stmt.mapLinesAll origin ss := by
  have hmap := map_moved_tokenize ((ofNode entry n).around text) 1
  rw [code_around he hfill hget hargs hs.ends] at hmap
  -- The call with the statements of the text as the body of its handler.
  let call := (Arg.requote entry.args args).map (Expr.withBody ss)
  have hspell : call.map (Expr.lexemesAround (code text.toList)) =
      (Arg.requote entry.args args).map (Expr.lexemesAround (code text.toList)) := by
    rw [List.map_map]
    exact List.map_congr_left fun e _ => Expr.lexemesAround_withBody ss _ e
  have hread : ∀ e ∈ call, e.ReadFrom (e.lexemesAround (code text.toList)) := by
    rw [List.forall_mem_map]
    intro e h
    rw [Expr.lexemesAround_withBody]
    exact hs.readFrom (hargs e h)
  have hfilled := (hfill.requote (Catalogue.isQuoted_eq entry he).1).withBody ss
  have hmatch : CallMatch.ofCall? entry.callee call =
      some ⟨entry, fs.requoted entry.kind ++ entry.fixedFields, body.map fun _ => ss⟩ :=
    CallMatch.ofCall?_eq_some_iff.mpr ⟨Catalogue.lookup?_callee entry he, _, hfilled, rfl⟩
  rw [← hspell] at hmap
  refine (Program.parse_of_derives hmap (Entry.derives_call he hread)).imp_right ?_
  intro hok
  obtain ⟨q, hparse, hlines⟩ := hok
  obtain ⟨line, c, rfl, hc⟩ := Program.eq_evaluate_of_mapLines hlines
  obtain ⟨args', m, hcall, hm, hsame⟩ := CallMatch.ofCall?_of_mapLines hc (Entry.call?_call he call) hmatch
  obtain ⟨hentry, hfields, hbody⟩ := CallMatch.mk.inj hsame
  refine ⟨m, ⟨line, c, _, args', hparse, hcall, hm⟩, hentry, hfields, hbody.trans ?_⟩
  rw [Option.map_map]
  rfl

end CallText

theorem Fields.requoted_append (kind : String) (fs gs : Fields) :
    (fs ++ gs).requoted kind = fs.requoted kind ++ gs.requoted kind := List.map_append

theorem Entry.requoted_fixedFields {entry : Entry} (he : entry ∈ Catalogue.entries) :
    entry.fixedFields.requoted entry.kind = entry.fixedFields := by
  refine Fields.requoted_eq_self fun k hk => (Catalogue.isQuoted_eq entry he).2 k (List.mem_cons_of_mem _ ?_)
  simpa [fixedFields, Fields.keys] using hk

/-- The arguments of a call that has been read. -/
theorem Expr.isArgument_of_call? {c : Expr} (hc : c.Every legible) {callee : String} {args : List Expr}
    (hcall : c.call? = some (callee, args)) (hplain : ∀ e ∈ args, e.isFunction = false → e.Every plain) :
    ∀ e ∈ args, e.IsArgument := by
  have hlegible : ∀ e ∈ args, e.Every legible := by
    cases c with
    | call =>
      obtain ⟨-, rfl⟩ := Prod.mk.inj (Option.some.inj hcall)
      exact Expr.everyAll_iff.mp hc.2.2
    | methodCall =>
      obtain ⟨-, rfl⟩ := Prod.mk.inj (Option.some.inj hcall)
      exact Expr.everyAll_iff.mp hc.2.2
    | _ => cases hcall
  intro e he
  have hlegible := hlegible e he
  cases hf : e.isFunction with
  | false => exact .of_isPlain ⟨hlegible, hplain e he hf⟩
  | true =>
    cases e with
    | function => exact hlegible.1
    | _ => cases hf

/-- What a call was taken apart into is written as a call that is taken apart into the same: the node leads back to the
entry, and its text, around any statements that stand alone if there is a handler, gives the same fields with the
quoted ones as they are written, and a handler with these statements exactly if there was one. -/
theorem CallMatch.reread_node {c : Expr} (hc : c.Every legible) {callee : String} {args : List Expr}
    (hcall : c.call? = some (callee, args)) {m : CallMatch} (hm : ofCall? callee args = some m)
    (hplain : ∀ e ∈ args, e.isFunction = false → e.Every plain) {n : Node} (hk : n.kind = m.entry.kind)
    (hd : n.data = m.fields) {text : String} {ss : List Stmt} (hs : StandsAlone text ss) :
    n.catalogued? = some m.entry ∧
    ((∃ line, Program.parse (tokenize ((CallText.ofNode m.entry n).around text)) = .error (.tooDeep maxDepth line)) ∨
      ∃ m' : CallMatch, m'.IsReadFrom ((CallText.ofNode m.entry n).around text) ∧ m'.entry = m.entry ∧
        m'.fields = m.fields.requoted m.entry.kind ∧
        m'.body.map (Stmt.mapLinesAll origin) = m.body.map fun _ => Stmt.mapLinesAll origin ss) := by
  have he := mem_entries hm
  have hnodup : n.data.keys.Nodup := hd ▸ (nodup_data hm).of_cons
  obtain ⟨-, fs, hfill, hfields⟩ := ofCall?_eq_some_iff.mp hm
  have hget : ∀ k ∈ m.entry.args.map Arg.key, n.data.get? k = fs.get? k := by
    intro k hkey
    have hnode := get?_node hm hfields k hkey
    have hlabel : "label" ≠ k := by
      rintro rfl
      exact (List.nodup_cons.mp (Catalogue.nodup_keys m.entry he)).1 (List.mem_append_left _ hkey)
    rwa [node, data, Fields.get?_cons_of_ne hlabel, ← hd] at hnode
  have hfixed : ∀ f ∈ m.entry.fixed, n.text? f.1 = some f.2 := by
    intro f hf
    refine Node.text?_of_mem hnodup ?_
    rw [hd, hfields]
    exact List.mem_append_right _ (List.mem_map_of_mem hf)
  have hquoted : m.fields.requoted m.entry.kind = fs.requoted m.entry.kind ++ m.entry.fixedFields := by
    rw [hfields, Fields.requoted_append, Entry.requoted_fixedFields he]
  rw [hquoted]
  exact ⟨Node.catalogued?_of_fixed he hk hfixed,
    CallText.reread he hfill hget (Arg.isArgument_requote (Expr.isArgument_of_call? hc hcall hplain)) hs⟩

theorem CallMatch.reread_node_handler : ∃ m ss,
    ofCall? "RegisterNetEvent" [.string "it's" '"', .function ["a", "..."] []] = some m ∧
    StandsAlone "while a do f() end -- go" ss ∧
    Node.catalogued? { id := "1", kind := m.entry.kind, data := m.fields } = some m.entry ∧
    ((∃ line, Program.parse (tokenize ((CallText.ofNode m.entry
          { id := "1", kind := m.entry.kind, data := m.fields }).around "while a do f() end -- go")) =
        .error (.tooDeep maxDepth line)) ∨
      ∃ m' : CallMatch, m'.IsReadFrom ((CallText.ofNode m.entry
          { id := "1", kind := m.entry.kind, data := m.fields }).around "while a do f() end -- go") ∧
        m'.entry = m.entry ∧ m'.fields = m.fields.requoted m.entry.kind ∧
        m'.body.map (Stmt.mapLinesAll origin) = m.body.map fun _ => Stmt.mapLinesAll origin ss) := by
  have hc :
      (Expr.call (.identifier "RegisterNetEvent") [.string "it's" '"', .function ["a", "..."] []]).Every legible :=
    ⟨trivial, (by decide : IsName "RegisterNetEvent"), ⟨.inl rfl, by decide⟩, ⟨⟨by decide, .inr rfl⟩, trivial, trivial⟩,
      trivial⟩
  have hplain : ∀ e ∈ [Expr.string "it's" '"', .function ["a", "..."] []], e.isFunction = false → e.Every plain := by
    simp only [List.forall_mem_cons]
    exact ⟨fun _ => (by decide : dangles "it's".toList = false), fun h => absurd h (by decide), by simp⟩
  have hs : StandsAlone "while a do f() end -- go"
      [.mk 1 (.whileLoop (.identifier "a") [.mk 1 (.evaluate (.call (.identifier "f") []))])] :=
    ⟨by decide +kernel, by decide +kernel, by decide +kernel⟩
  exact ⟨_, _, rfl, hs, CallMatch.reread_node hc rfl rfl hplain rfl rfl hs⟩

/-- Statements can be read alone and leave a block open, which then takes the `end` of the handler. -/
theorem CallText.around_open_block : ∃ m p,
    CallMatch.ofCall? "CreateThread" [.function [] []] = some m ∧ Program.parse (tokenize "if a then") = .ok p ∧
    (ofNode m.entry { id := "1", kind := m.entry.kind, data := m.fields }).around "if a then" =
      "CreateThread(function()\nif a then\nend)" ∧
    Program.parse (tokenize "CreateThread(function()\nif a then\nend)") = .error (.unexpected "')'" 3 4) := by
  have hread : Program.parse (tokenize "if a then") = .ok [.mk 1 (.conditional (.identifier "a") [] none)] := by
    decide +kernel
  exact ⟨_, _, rfl, hread, by decide +kernel, by decide +kernel⟩

end ScriptGraph
