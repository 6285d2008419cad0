import ScriptGraph.Proofs.StatementTexts

namespace ScriptGraph

open Lexeme Emitter

open Script

/-- An alternate that is no single conditional is written behind an `else`. -/
theorem Action.alternateLexemes_of_ne {body : List Stmt}
    (h : ∀ line condition consequent rest, body ≠ [.mk line (.conditional condition consequent rest)]) :
    alternateLexemes (some body) = keyword "else" :: (Stmt.lexemesAll body ++ [keyword "end"]) := by
  rw [alternateLexemes]
  rintro line condition consequent rest rfl
  exact h _ _ _ _ rfl

/-- Only a single conditional is written as one. -/
theorem Stmt.eq_conditional_of_canonicalAll {body consequent : List Stmt} {line : Nat} {condition : Expr}
    {alternate : Option (List Stmt)}
    (h : Stmt.canonicalAll body = [.mk line (.conditional condition consequent alternate)]) :
    ∃ consequent alternate, body = [.mk line (.conditional condition consequent alternate)] := by
  cases body with
  | nil => rw [Stmt.canonicalAll] at h; cases h
  | cons s ss =>
    obtain ⟨line', a⟩ := s
    rw [Stmt.canonicalAll, Stmt.canonical] at h
    obtain ⟨hs, hss⟩ := List.cons.inj h
    obtain ⟨rfl, ha⟩ := Stmt.mk.inj hs
    cases a with
    | conditional condition' body rest =>
      rw [Action.canonical] at ha
      cases ha
      have hnil : ss = [] := Stmt.canonicalAll_eq_nil.mp hss
      rw [hnil]
      exact ⟨body, rest, rfl⟩
    | _ => rw [Action.canonical] at ha; cases ha

variable {flush : Bool}

/-- The node of a statement is written as this script, which spells the statement in its written form. -/
structure Action.Told (flush : Bool) (line : Nat) (a : Action) (s : Script) : Prop where
  script : a.isReturn = false → ∀ {os ss}, Outline.Says os ss → Outline.Says ((Stmt.mk line a).outline :: os) (s :: ss)
  ended : a.isReturn = true → ∀ os, Outline.Says ((Stmt.mk line a).outline :: os) [s]
  tells : Tells flush [s] a.canonical.lexemes
  plain : (∀ condition consequent alternate, a ≠ .conditional condition consequent alternate) →
    ∀ condition consequent alternate, s ≠ .conditional condition consequent alternate

/-- A list of statements and its script. -/
structure Stmt.ToldAll (flush : Bool) (ss : List Stmt) (scripts : List Script) : Prop where
  script : Outline.Says (Stmt.outlines ss) scripts
  tells : Tells flush scripts (Stmt.lexemesAll (Stmt.canonicalAll ss))
  blocks : TellsBlocks scripts (Stmt.lexemesAll (Stmt.canonicalAll ss))
  plain : (∀ line condition consequent alternate, ss ≠ [.mk line (.conditional condition consequent alternate)]) →
    ∀ condition consequent alternate, scripts ≠ [.conditional condition consequent alternate]

/-- A list of statements as the alternate of a conditional, and its script. -/
structure Stmt.ToldAlternate (flush : Bool) (ss : List Stmt) (scripts : List Script) : Prop where
  script : Outline.Says (Stmt.outlines ss) scripts
  tells : TellsAlternate flush scripts (Action.alternateLexemes (Action.canonicalAlternate (some ss)))

theorem Outline.Says.eq_nil {os : List Outline} (h : Says os []) : os = [] := by
  cases h
  rfl

namespace Stmt.ToldAll

theorem nil : ToldAll flush [] [] := by
  have hcanonical : Stmt.canonicalAll [] = [] := by rw [Stmt.canonicalAll]
  refine ⟨?_, ?_, ?_, by simp⟩
  · rw [Stmt.outlines]
    exact .nil
  · rw [hcanonical]
    exact .nil
  · rw [hcanonical]
    exact .nil

theorem cons {line : Nat} {a : Action} {s : Script} {ss : List Stmt} {scripts : List Script} (h : a.Told flush line s)
    (hs : ToldAll flush ss scripts) (hr : a.isReturn = false) :
    ToldAll flush (.mk line a :: ss) (s :: scripts) := by
  have htells := h.tells.cons hs.tells
  have hlexemes : Stmt.lexemesAll (Stmt.canonicalAll (.mk line a :: ss)) =
      a.canonical.lexemes ++ Stmt.lexemesAll (Stmt.canonicalAll ss) := by
    have hgoes : ¬(Stmt.mk line a).action.isReturn = true := Bool.eq_false_iff.mp hr
    rw [Stmt.canonicalAll, if_neg hgoes, Stmt.canonical, Stmt.lexemesAll, Stmt.lexemes]
  refine ⟨?_, ?_, ?_, ?_⟩
  · rw [Stmt.outlines]
    exact h.script hr hs.script
  · rwa [hlexemes]
  · rw [hlexemes]
    cases s with
    | line text => exact .line htells
    | block | conditional => exact .cons h.tells hs.blocks (by rw [paragraphs]; simp)
  · intro hno condition consequent alternate heq
    obtain ⟨hfirst, rfl⟩ := List.cons.inj heq
    have hnone : ss = [] := by
      have hempty := hs.script.eq_nil
      cases ss with
      | nil => rfl
      | cons s' ss => rw [Stmt.outlines] at hempty; cases hempty
    refine h.plain ?_ _ _ _ hfirst
    rintro condition consequent alternate rfl
    exact hno _ _ _ _ (by rw [hnone])

/-- Nothing is written below a return. -/
theorem ended {line : Nat} {a : Action} {s : Script} (h : a.Told flush line s) (hr : a.isReturn = true)
    (ss : List Stmt) : ToldAll flush (.mk line a :: ss) [s] := by
  have hlexemes : Stmt.lexemesAll (Stmt.canonicalAll (.mk line a :: ss)) = a.canonical.lexemes := by
    have hends : (Stmt.mk line a).action.isReturn = true := hr
    rw [Stmt.canonicalAll, if_pos hends, Stmt.canonical, Stmt.lexemesAll, Stmt.lexemes, Stmt.lexemesAll,
      List.append_nil]
  have hplain := h.plain (by rintro condition consequent alternate rfl; cases hr)
  refine ⟨?_, ?_, ?_, ?_⟩
  · rw [Stmt.outlines]
    exact h.ended hr _
  · rw [hlexemes]
    exact h.tells
  · rw [hlexemes]
    cases s with
    | line text => exact .line h.tells
    | block opener closer body =>
      have hone := TellsBlocks.cons h.tells .nil (by simp [paragraphs])
      rwa [List.append_nil] at hone
    | conditional => exact absurd rfl (hplain _ _ _)
  · intro _ condition consequent alternate heq
    exact hplain _ _ _ (List.singleton_inj.mp heq)

/-- Behind an `else` the statements are further in. -/
theorem alternate {ss : List Stmt} {scripts : List Script} (h : ToldAll false ss scripts) (hne : ss ≠ [])
    (hno : ∀ line condition consequent alternate, ss ≠ [.mk line (.conditional condition consequent alternate)]) :
    ToldAlternate flush ss scripts := by
  refine ⟨h.script, ?_⟩
  obtain ⟨s, ss, rfl⟩ := List.exists_cons_of_ne_nil hne
  have hlexemes : Action.alternateLexemes (some (Stmt.canonicalAll (s :: ss))) =
      keyword "else" :: (Stmt.lexemesAll (Stmt.canonicalAll (s :: ss)) ++ [keyword "end"]) := by
    refine Action.alternateLexemes_of_ne fun line condition consequent rest heq => ?_
    obtain ⟨consequent, rest, hlone⟩ := Stmt.eq_conditional_of_canonicalAll heq
    exact hno _ _ _ _ hlone
  rw [Action.canonicalAlternate_cons, hlexemes]
  refine .otherwise h.tells ?_ (h.plain hno)
  rintro rfl
  have hempty := h.script.eq_nil
  rw [Stmt.outlines] at hempty
  cases hempty

end Stmt.ToldAll

theorem Stmt.ToldAlternate.nil : Stmt.ToldAlternate flush [] [] := by
  refine ⟨?_, ?_⟩
  · rw [Stmt.outlines]
    exact .nil
  · rw [Action.canonicalAlternate, Action.alternateLexemes]
    exact .nil

namespace Action.Told

variable {line : Nat} {a : Action}

/-- A statement that is kept as text. -/
theorem text {kind label : String} {fields : List (String × String)} (ha : a.canonical.Every (writable flush))
    (ho : (Stmt.mk line a).outline = .leaf kind (Builder.labelled label fields)) (hk : kind ≠ NodeKind.conditional.tag)
    (hn : ("label" :: fields.map Prod.fst).Nodup) (hc : ("codeBlock", (Stmt.mk line a).text) ∈ fields)
    (hsame : a.canonical = a) (hr : a.isReturn = false) : ∃ script, a.Told flush line script := by
  rw [hsame] at ha
  refine ⟨.line (Stmt.mk line a).text, fun _ _ _ h => ?_, by simp [hr], ?_, by simp⟩
  · rw [ho, Builder.labelled_eq label hn]
    refine .line hk (emission_of_codeBlock ?_ ?_ (ha.isBlankText line)) h
    · simpa [Fields.keys, Function.comp_def] using hn
    · exact List.mem_cons_of_mem _ (List.mem_map.mpr ⟨_, hc, rfl⟩)
  · rw [hsame]
    exact .line (ha.textSpells line)

/-- A statement around others. -/
theorem block {kind opener closer : String} {data : Fields} {body : List Stmt} {scripts : List Script}
    {ls ms : List Lexeme} (ho : (Stmt.mk line a).outline = .block kind data (Stmt.outlines body))
    (hk : kind ≠ NodeKind.conditional.tag) (he : emission kind data = .block opener closer)
    (hb : Stmt.ToldAll false body scripts) (hopener : TextSpells flush opener ls) (hcloser : TextSpells flush closer ms)
    (hls : a.canonical.lexemes = ls ++ Stmt.lexemesAll (Stmt.canonicalAll body) ++ ms) (hr : a.isReturn = false) :
    a.Told flush line (.block opener closer scripts) := by
  refine ⟨fun _ _ _ h => ?_, by simp [hr], ?_, by simp⟩
  · rw [ho]
    exact .block hk he hb.script h
  · rw [hls]
    exact .block hopener hcloser hb.tells

end Action.Told

theorem Node.textOr_eq {n : Node} {key text : String} (h : n.data.get? key = some (.string text))
    (hb : Text.isBlankText text = false) (fallback : String) : n.textOr key fallback = text := by
  have htext : n.text? key = some text := by rw [Node.text?, h]
  rw [Node.textOr, Node.filled?_of_text? htext hb, Option.getD_some]

/-- A node whose data are texts, without code of its own. -/
theorem emission_labelled {k : NodeKind} (hk : k ∈ NodeKind.structural) (label : String)
    {fields : List (String × String)} (hf : ("codeBlock" :: "label" :: fields.map Prod.fst).Nodup) {data : Fields}
    (hd : data = ("label", .string label) :: fields.map fun f => (f.1, .string f.2)) :
    emission k.tag (Builder.labelled label fields) = Emission.ofKind { id := "", kind := k.tag, data } k := by
  obtain ⟨hcode, hkeys⟩ := List.nodup_cons.mp hf
  rw [Builder.labelled_eq label hkeys, ← hd]
  refine emission_of_structural hk ?_
  rw [hd]
  simpa [Fields.keys, Function.comp_def] using hcode

theorem emission_whileLoop {condition : String} (hc : Text.isBlankText condition = false) :
    emission NodeKind.whileLoop.tag (Builder.titled .whileLoop [("condition", condition)]) =
      .block ("while " ++ condition ++ " do") "end" := by
  rw [Builder.titled, emission_labelled (by decide) _ (by simp) rfl, Emission.ofKind, Node.textOr_eq rfl hc]

theorem emission_forLoop {counter : String} {first last : Expr} {step : Option Expr}
    (hc : Text.isBlankText counter = false)
    (hf : Text.isBlankText first.text = false) (hl : Text.isBlankText last.text = false)
    (hs : ∀ e ∈ step, Text.isBlankText e.text = false) :
    emission NodeKind.forLoop.tag (Builder.forData counter first last step) =
      .block ("for " ++ counter ++ " = " ++ first.text ++ ", " ++ last.text ++
        ((step.map Expr.text).map (", " ++ ·)).getD "" ++ " do") "end" := by
  cases step with
  | none =>
    rw [Builder.forData, Builder.titled, emission_labelled (by decide) _ (by simp) rfl, Emission.ofKind,
      Node.textOr_eq rfl hc, Node.textOr_eq rfl hf, Node.textOr_eq rfl hl, Node.filled?_eq_none (by simp [Fields.keys])]
    rfl
  | some e =>
    rw [Builder.forData, Builder.titled, emission_labelled (by decide) _ (by simp) rfl, Emission.ofKind,
      Node.textOr_eq rfl hc, Node.textOr_eq rfl hf, Node.textOr_eq rfl hl, Node.filled?_of_text? rfl (hs e rfl)]
    rfl

theorem emission_forEach {names iterable : String} (hn : Text.isBlankText names = false)
    (hi : Text.isBlankText iterable = false) :
    emission NodeKind.forEach.tag (Builder.titled .forEach [("variables", names), ("iterable", iterable)]) =
      .block ("for " ++ names ++ " in " ++ iterable ++ " do") "end" := by
  rw [Builder.titled, emission_labelled (by decide) _ (by simp) rfl, Emission.ofKind, Node.textOr_eq rfl hn,
    Node.textOr_eq rfl hi]

theorem emission_function {s : String} (hs : Text.isBlankText s = false) (names : List String) (isLocal : Bool) :
    emission NodeKind.function.tag (Builder.functionData s names isLocal) =
      .block ((if isLocal then "local " else "") ++ "function " ++ s ++ "(" ++ Text.trim (", ".intercalate names) ++
        ")")
        "end" := by
  rw [Builder.functionData_eq, emission_of_structural (by decide) (by simp [Fields.keys]), Emission.ofKind,
    Node.textOr_eq rfl hs]
  cases isLocal <;> rfl

theorem emission_giveBack {value : String} (hv : Text.isBlankText value = false) :
    emission NodeKind.giveBack.tag (Builder.titled .giveBack [("returnValue", value)]) =
      .terminal ("return " ++ value) := by
  rw [Builder.titled, emission_labelled (by decide) _ (by simp) rfl, Emission.ofKind, Node.filled?_of_text? rfl hv]

theorem emission_conditional (condition : String) :
    emission NodeKind.conditional.tag (Builder.titled .conditional [("condition", condition)]) = .conditional := by
  rw [Builder.titled, emission_labelled (by decide) _ (by simp) rfl, Emission.ofKind]

namespace Action.Told

variable {line : Nat}

theorem define {s : String} {names : List String} {body : List Stmt} {isLocal isMethod : Bool} {scripts : List Script}
    (hs : IsPath s isMethod) (hn : IsParams names) (hb : Stmt.ToldAll false body scripts) :
    ∃ script, (Action.define s names body isLocal isMethod).Told flush line script := by
  refine ⟨_, block (by rw [Stmt.outline, Action.outline]) (by decide) (emission_function hs.isBlankText names isLocal)
    hb (.define hs hn isLocal) (.keyword rfl) ?_ rfl⟩
  simp [Action.canonical, Action.lexemes]

theorem whileLoop {condition : Expr} {body : List Stmt} {scripts : List Script} (hc : condition.IsWritten flush)
    (hb : Stmt.ToldAll false body scripts) : ∃ script, (Action.whileLoop condition body).Told flush line script := by
  have hopener : TextSpells flush ("while " ++ condition.text ++ " do")
      (keyword "while" :: (condition.lexemes ++ [keyword "do"])) := .between hc rfl rfl (by simp)
  refine ⟨_, block (by rw [Stmt.outline, Action.outline]) (by decide) (emission_whileLoop hc.isBlankText) hb
    hopener (.keyword rfl) ?_ rfl⟩
  simp [Action.canonical, Action.lexemes]

theorem forLoop {counter : String} {first last : Expr} {step : Option Expr} {body : List Stmt} {scripts : List Script}
    (hc : IsName counter) (hf : first.IsWritten flush) (hl : last.IsWritten flush) (hs : ∀ e ∈ step, e.IsWritten flush)
    (hb : Stmt.ToldAll false body scripts) :
    ∃ script, (Action.forLoop counter first last step body).Told flush line script := by
  refine ⟨_, block (by rw [Stmt.outline, Action.outline]) (by decide)
    (emission_forLoop hc.isBlankText hf.isBlankText hl.isBlankText fun e he => (hs e he).isBlankText) hb
    (.forLoop hc hf hl hs) (.keyword rfl) ?_ rfl⟩
  cases step <;> simp [Action.canonical, Action.lexemes]

theorem forEach {names : List String} {iterable : Expr} {body : List Stmt} {scripts : List Script} (hne : names ≠ [])
    (hn : ∀ s ∈ names, IsName s) (hi : iterable.IsWritten flush) (hb : Stmt.ToldAll false body scripts) :
    ∃ script, (Action.forEach names iterable body).Told flush line script := by
  have hnames : Text.isBlankText (", ".intercalate names) = false := by
    cases names with
    | nil => exact absurd rfl hne
    | cons s names => exact Text.isBlankText_intercalate_cons (hn s List.mem_cons_self).isBlankText names
  refine ⟨_, block (by rw [Stmt.outline, Action.outline]) (by decide) (emission_forEach hnames hi.isBlankText) hb
    (.forEach hn hi) (.keyword rfl) ?_ rfl⟩
  simp [Action.canonical, Action.lexemes]

theorem giveBack {values : List Expr} (h : ∀ e ∈ values, e.IsWritten flush) :
    ∃ script, (Action.giveBack values).Told flush line script := by
  have hmain {text : String} (he : emission NodeKind.giveBack.tag (Builder.titled .giveBack
      [("returnValue", ", ".intercalate (values.map Expr.text))]) = .terminal text)
      (ht : TextSpells flush text (keyword "return" :: commas (Expr.lexemesAll values))) :
      (Action.giveBack values).Told flush line (.line text) := by
    refine ⟨by simp [Action.isReturn], fun _ os => ?_, ?_, by simp⟩
    · rw [Stmt.outline, Action.outline]
      exact .last (by decide) he
    · rw [Action.canonical, Action.lexemes]
      exact .line ht
  cases values with
  | nil => exact ⟨_, hmain rfl (.keyword rfl)⟩
  | cons e es =>
    refine ⟨_, hmain (emission_giveBack ?_) (.giveBack h)⟩
    exact Text.isBlankText_intercalate_cons (h e List.mem_cons_self).isBlankText _

/-- The alternate of a conditional, and its script. -/
theorem alternate {alternate : Option (List Stmt)} {as : List Script}
    (h : Stmt.ToldAlternate flush (alternate.getD []) as) : Outline.Says (Stmt.alternateOutlines alternate) as ∧
      TellsAlternate flush as (Action.alternateLexemes (Action.canonicalAlternate alternate)) := by
  obtain ⟨hscript, htells⟩ := h
  cases alternate with
  | none =>
    rw [Option.getD_none, Action.canonicalAlternate] at htells
    rw [Option.getD_none, Stmt.outlines] at hscript
    rw [Stmt.alternateOutlines, Action.canonicalAlternate]
    exact ⟨hscript, htells⟩
  | some body =>
    rw [Stmt.alternateOutlines]
    exact ⟨hscript, htells⟩

theorem conditional {condition : Expr} {consequent : List Stmt} {rest : Option (List Stmt)} {cs as : List Script}
    (hc : condition.IsWritten flush) (ht : Stmt.ToldAll false consequent cs)
    (ha : Stmt.ToldAlternate flush (rest.getD []) as) :
    (Action.conditional condition consequent rest).Told flush line (.conditional condition.text cs as) ∧
      Stmt.ToldAlternate flush [.mk line (.conditional condition consequent rest)]
        [.conditional condition.text cs as] := by
  obtain ⟨houtlines, halternate⟩ := alternate ha
  have hif : TextSpells flush ("if " ++ condition.text ++ " then")
      (keyword "if" :: (condition.lexemes ++ [keyword "then"])) := .between hc rfl rfl (by simp)
  have helseif : TextSpells flush ("elseif " ++ condition.text ++ " then")
      (keyword "elseif" :: (condition.lexemes ++ [keyword "then"])) := .between hc rfl rfl (by simp)
  have hscript {os : List Outline} {ss : List Script} (h : Outline.Says os ss) :
      Outline.Says ((Stmt.mk line (.conditional condition consequent rest)).outline :: os)
        (.conditional condition.text cs as :: ss) := by
    rw [Stmt.outline, Action.outline]
    exact .branch (emission_conditional _) rfl (Node.textOr_eq rfl hc.isBlankText _) ht.script houtlines h
  refine ⟨⟨fun _ _ _ => hscript, by simp [Action.isReturn], ?_, by simp⟩, ?_, ?_⟩
  · have htells := Tells.conditional hif ht.tells halternate
    rw [Action.canonical, Action.lexemes]
    simpa using htells
  · rw [Stmt.outlines, Stmt.outlines]
    exact hscript .nil
  · have htells := TellsAlternate.elseif helseif ht.tells halternate
    have hlone : Stmt.canonicalAll [.mk line (.conditional condition consequent rest)] =
        [.mk line (.conditional condition (Stmt.canonicalAll consequent) (Action.canonicalAlternate rest))] := by
      simp [Stmt.canonicalAll, Stmt.canonical, Action.canonical]
    rw [Action.canonicalAlternate_cons, hlone, Action.alternateLexemes]
    simpa using htells

end Action.Told

theorem Expr.handler_append {before : List Expr} (h : before.any Expr.isFunction = false) (names : List String)
    (body : List Stmt) (behind : List Expr) : Expr.handler (before ++ .function names body :: behind) = body := by
  induction before with
  | nil => rfl
  | cons e before ih =>
    rw [List.any_cons, Bool.or_eq_false_iff] at h
    rw [List.cons_append, Expr.handler, ih h.2]
    rintro names body rfl
    cases h.1

theorem Expr.isBlankText_function (names : List String) (body : List Stmt) :
    Text.isBlankText (Expr.function names body).text = false := by
  have hfirst : Text.isBlank 'f' = false := by decide
  cases body <;> simp [Expr.text, Printer.expr, Text.isBlankText, hfirst]

theorem Expr.mem_canonicalHandler {e : Expr} {es : List Expr} (h : e ∈ es) (hf : e.isFunction = false) :
    e ∈ Expr.canonicalHandler es := by
  induction es with
  | nil => cases h
  | cons e' es ih =>
    rcases e'.function_or with ⟨names, body, rfl⟩ | he'
    · rw [Expr.canonicalHandler]
      rcases List.mem_cons.mp h with rfl | h
      · cases hf
      · exact List.mem_cons_of_mem _ h
    · rw [Expr.canonicalHandler_cons he']
      rcases List.mem_cons.mp h with rfl | h
      · exact List.mem_cons_self
      · exact List.mem_cons_of_mem _ (ih h)

namespace Action.Told

variable {line : Nat} {e : Expr} {callee : String} {args : List Expr} {m : CallMatch}

theorem code (h : e.canonical.Every (writable flush)) (hsame : e.canonical = e) (label : String)
    (ho : e.outline (Stmt.mk line (.evaluate e)).text =
      .leaf NodeKind.code.tag (Builder.labelled label [("codeBlock", (Stmt.mk line (.evaluate e)).text)])) :
    ∃ script, (Action.evaluate e).Told flush line script := by
  have hcanonical : (Action.evaluate e).canonical = .evaluate e := by rw [Action.canonical, hsame]
  refine text ?_ (by rw [Stmt.outline, Action.outline, ho]) (by decide) (by simp) (by simp) hcanonical rfl
  rw [hcanonical]
  exact ⟨trivial, hsame ▸ h⟩

/-- The arguments of a written call are not blank. -/
theorem isBlankText_requote (hc : e.call? = some (callee, args)) (hm : CallMatch.ofCall? callee args = some m)
    (h : e.canonical.Every (writable flush)) :
    ∀ a ∈ Arg.requote m.entry.args args, Text.isBlankText a.text = false := by
  intro a ha
  rcases a.function_or with ⟨names, body, rfl⟩ | hf
  · exact Expr.isBlankText_function names body
  · rw [Expr.canonical_of_some hc hm, Arg.requote_canonicalHandler] at h
    have hargs := h.arguments (Entry.call?_call (CallMatch.mem_entries hm) _)
    exact (Expr.everyAll_iff.mp hargs a (Expr.mem_canonicalHandler ha hf)).isWritten.isBlankText

/-- The call of an entry in one line. -/
theorem entryLine (hc : e.call? = some (callee, args)) (hm : CallMatch.ofCall? callee args = some m)
    (hb : m.body = none)
    (h : e.canonical.Every (writable flush)) : ∃ script, (Action.evaluate e).Told flush line script := by
  have he := CallMatch.mem_entries hm
  have hcanonical : e.canonical = m.entry.call (Arg.requote m.entry.args args) := by
    obtain ⟨-, fs, hfill, -⟩ := CallMatch.ofCall?_eq_some_iff.mp hm
    rw [hb] at hfill
    rw [Expr.canonical_of_some hc hm, Expr.canonicalHandler_eq_self hfill.any_isFunction]
  have hblank := isBlankText_requote hc hm h
  rw [hcanonical] at h
  refine ⟨.line (m.entry.call (Arg.requote m.entry.args args)).text,
    fun _ _ _ hos => ?_, by simp [Action.isReturn], ?_, by simp⟩
  · rw [Stmt.outline, Action.outline, Expr.outline_of_call? hc, Outline.ofCall_of_some hm, hb]
    exact .line (Catalogue.kind_ne_conditional m.entry he) (CallMatch.emission_eq_line hm hb hblank) hos
  · rw [Action.canonical, Action.lexemes, hcanonical]
    exact .line h.isWritten.textSpells

/-- The call of an entry around the body of its handler. -/
theorem entryBlock (hc : e.call? = some (callee, args)) (hm : CallMatch.ofCall? callee args = some m) {body : List Stmt}
    (hb : m.body = some body) (h : e.canonical.Every (writable flush)) {scripts : List Script}
    (htold : Stmt.ToldAll false (Expr.handler args) scripts) :
    ∃ script, (Action.evaluate e).Told flush line script := by
  have he := CallMatch.mem_entries hm
  obtain ⟨before, names, behind, hargs, hbefore, hemission⟩ :=
    CallMatch.emission_eq_block hm hb (isBlankText_requote hc hm h)
  have hhandler : Expr.handler args = body := by
    rw [← Expr.handler_requote m.entry.args args, hargs, Expr.handler_append hbefore]
  have hcanonical : e.canonical = m.entry.call (before ++ .function names (Stmt.canonicalAll body) :: behind) := by
    rw [Expr.canonical_of_some hc hm, Arg.requote_canonicalHandler, hargs, Expr.canonicalHandler_append hbefore,
      Expr.canonicalHandler]
  rw [hcanonical] at h
  have hwritten := h.arguments (Entry.call?_call he _)
  rw [Expr.everyAll_iff, List.forall_mem_append, List.forall_mem_cons] at hwritten
  obtain ⟨hfirst, hfunction, hlast⟩ := hwritten
  refine ⟨_, block ?_ (Catalogue.kind_ne_conditional m.entry he) hemission htold
    (.callOpener he (fun e hm => (hfirst e hm).isWritten) hfunction.1.1)
      (.callCloser fun e hm => (hlast e hm).isWritten)
    ?_ rfl⟩
  · rw [Stmt.outline, Action.outline, Expr.outline_of_call? hc, Outline.ofCall_of_some hm, hb, Expr.handlerOutlines_eq]
    rfl
  · rw [Action.canonical, Action.lexemes, hcanonical, Entry.lexemes_call he, Expr.lexemesAll_eq, List.map_append,
      List.map_cons, Lexeme.commas_append_cons, Expr.lexemes, hhandler]
    simp

theorem evaluate (h : e.canonical.Every (writable flush))
    (hb : e.fits = true → ∀ body ∈ (Action.evaluate e).bodies, ∃ scripts, Stmt.ToldAll false body scripts) :
    ∃ script, (Action.evaluate e).Told flush line script := by
  cases hc : e.call? with
  | none =>
    refine code h (Expr.canonical_of_call?_none hc) NodeKind.code.title ?_
    cases e with
    | call | methodCall => cases hc
    | _ => rw [Expr.outline] <;> simp
  | some call =>
    obtain ⟨callee, args⟩ := call
    cases hm : CallMatch.ofCall? callee args with
    | none =>
      refine code h (Expr.canonical_of_none hc hm) callee ?_
      rw [Expr.outline_of_call? hc, Outline.ofCall, hm]
    | some m =>
      cases hbody : m.body with
      | none => exact entryLine hc hm hbody h
      | some body =>
        obtain ⟨scripts, hscripts⟩ := hb (Expr.fits_of_some hc hm) _ (Expr.handler_mem_bodies hc)
        exact entryBlock hc hm hbody h hscripts

end Action.Told

/-- The blocks that are written further in than the statement. An alternate that is a single conditional is written
as `elseif`, no further in than the statement itself. -/
def Action.indented : Action → List (List Stmt)
  | .conditional _ consequent (some [.mk _ (.conditional condition body rest)]) =>
    consequent :: (Action.conditional condition body rest).indented
  | .conditional _ consequent alternate => [consequent, alternate.getD []]
  | .evaluate e => if e.fits then (Action.evaluate e).bodies else []
  | a => a.bodies

/-- What lets statements be written one below the other: inside the blocks that are indented, and in the statements
themselves unless they stand at the margin, no string goes over the end of a line. -/
structure Stmt.WritableAll (flush : Bool) (ss : List Stmt) : Prop where
  every : Stmt.EveryAll (writable flush) ss
  indented : ∀ s ∈ ss, ∀ body ∈ s.action.indented, Stmt.EveryAll (writable false) body

/-- What lets statements be written as the alternate of a conditional. -/
structure Stmt.WritableAlternate (flush : Bool) (ss : List Stmt) : Prop where
  every : Stmt.EveryAll (writable flush) ss
  elseif : ∀ line condition consequent rest, ss = [.mk line (.conditional condition consequent rest)] →
    ∀ body ∈ (Action.conditional condition consequent rest).indented, Stmt.EveryAll (writable false) body
  otherwise : (∀ line condition consequent rest, ss ≠ [.mk line (.conditional condition consequent rest)]) →
    Stmt.EveryAll (writable false) ss

theorem Action.indented_of_ne {condition : Expr} {consequent : List Stmt} {alternate : Option (List Stmt)}
    (h : ∀ line condition body rest, alternate.getD [] ≠ [.mk line (.conditional condition body rest)]) :
    (Action.conditional condition consequent alternate).indented = [consequent, alternate.getD []] := by
  rw [Action.indented]
  rintro line condition body rest rfl
  exact h _ _ _ _ rfl

theorem Action.Every.indented {P : Rules} {a : Action} (h : a.Every P) : ∀ body ∈ a.indented, Stmt.EveryAll P body := by
  fun_induction Action.indented a with
  | case1 _ consequent _ condition body rest ih =>
    exact List.forall_mem_cons.mpr ⟨h.2.2.1.2, ih h.2.2.2.2.1⟩
  | case2 => exact fun body hm => (h.bodies body hm).2
  | case3 => exact fun body hm => (h.bodies body hm).2
  | case4 => simp
  | case5 => exact fun body hm => (h.bodies body hm).2

/-- The body of a handler is written further in than the call. -/
theorem Expr.canonicalAll_mem_indented {e : Expr} (hf : e.fits = true) {body : List Stmt}
    (hm : body ∈ (Action.evaluate e).bodies) : Stmt.canonicalAll body ∈ (Action.evaluate e.canonical).indented := by
  rw [Expr.fits, Option.isSome_iff_exists] at hf
  obtain ⟨m, hf⟩ := hf
  obtain ⟨⟨callee, args⟩, hc, hm'⟩ := Option.bind_eq_some_iff.mp hf
  have hbody : body = Expr.handler args := by
    cases e <;> cases hc <;> exact List.mem_singleton.mp hm
  have hcall := Entry.call?_call (CallMatch.mem_entries hm') (Arg.requote m.entry.args (Expr.canonicalHandler args))
  rw [Expr.canonical_of_some hc hm', Action.indented,
    if_pos (Expr.fits_of_some hcall (CallMatch.ofCall?_written hm')), hbody, ← Expr.handler_canonicalHandler,
    ← Expr.handler_requote m.entry.args]
  exact Expr.handler_mem_bodies hcall

namespace Stmt

theorem WritableAll.of_unbroken {ss : List Stmt} (h : Stmt.EveryAll (writable false) ss) :
    Stmt.WritableAll flush ss := by
  have himply : Rules.Imply (writable false) (writable false) (writable flush) :=
    ⟨fun _ h _ => ⟨h.1, fun _ => h.2 rfl⟩, fun _ h _ => h, fun _ h _ => h, fun _ _ _ => trivial⟩
  rw [Stmt.everyAll_iff] at h
  refine ⟨Stmt.everyAll_iff.mpr fun s hs => himply.cases.statement s (h s hs) (h s hs), fun s hs => ?_⟩
  exact (h s hs).action_every.indented

theorem WritableAll.every_printable {ss : List Stmt} (h : Stmt.WritableAll flush ss) : Stmt.EveryAll printable ss := by
  have hevery := Stmt.everyAll_iff.mp h.every
  exact Stmt.everyAll_iff.mpr fun s hs => (writable_imply_printable flush).cases.statement s (hevery s hs) (hevery s hs)

/-- A conditional can be written if its blocks and its alternate can. -/
theorem WritableAlternate.of_conditional {condition : Expr} {consequent : List Stmt} {alternate : Option (List Stmt)}
    (h : (Action.conditional condition consequent alternate).Every (writable flush))
    (hi : ∀ body ∈ (Action.conditional condition consequent alternate).indented, Stmt.EveryAll (writable false) body) :
    Stmt.EveryAll (writable false) consequent ∧ Stmt.WritableAlternate flush (alternate.getD []) := by
  have hevery : Stmt.EveryAll (writable flush) (alternate.getD []) := by
    cases alternate with
    | none => trivial
    | some body => exact h.2.2.2.2
  by_cases hlone : ∃ line condition body rest, alternate.getD [] = [.mk line (.conditional condition body rest)]
  · obtain ⟨line, condition', body, rest, hbody⟩ := hlone
    cases alternate with
    | none => cases hbody
    | some ss =>
      obtain rfl : ss = _ := hbody
      rw [Action.indented, List.forall_mem_cons] at hi
      refine ⟨hi.1, hevery, ?_, fun hno => absurd rfl (hno _ _ _ _)⟩
      intro line condition body rest heq
      cases heq
      exact hi.2
  · push Not at hlone
    rw [Action.indented_of_ne hlone, List.forall_mem_cons, List.forall_mem_singleton] at hi
    exact ⟨hi.1, hevery, fun line c b r heq => absurd heq (hlone _ _ _ _), fun _ => hi.2⟩

/-- The statements have a script that spells their written form, and so do they as the alternate of a conditional. -/
structure HasScripts (ss : List Stmt) : Prop where
  told : ∀ flush, Stmt.WritableAll flush (Stmt.canonicalAll ss) → ∃ scripts, Stmt.ToldAll flush ss scripts
  alternate : ∀ flush, Stmt.WritableAlternate flush (Stmt.canonicalAll ss) →
    ∃ scripts, Stmt.ToldAlternate flush ss scripts

end Stmt

theorem Action.getD_canonicalAlternate (alternate : Option (List Stmt)) :
    (Action.canonicalAlternate alternate).getD [] = Stmt.canonicalAll (alternate.getD []) := by
  rcases alternate with _ | _ | ⟨s, ss⟩
  · simp [Action.canonicalAlternate, Stmt.canonicalAll]
  · simp [Action.canonicalAlternate, Stmt.canonicalAll]
  · rw [Action.canonicalAlternate_cons]
    rfl

namespace Action

variable {line : Nat}

theorem exists_told_conditional {condition : Expr} {consequent : List Stmt} {rest : Option (List Stmt)}
    (h : (Action.conditional condition consequent rest).canonical.Every (writable flush))
    (hi : ∀ body ∈ (Action.conditional condition consequent rest).canonical.indented,
      Stmt.EveryAll (writable false) body)
    (hb : ∀ body ∈ (Action.conditional condition consequent rest).bodies, Stmt.HasScripts body) :
    ∃ script, (Action.conditional condition consequent rest).Told flush line script ∧
      Stmt.ToldAlternate flush [.mk line (.conditional condition consequent rest)] [script] := by
  rw [Action.canonical] at h hi
  obtain ⟨hthen, helse⟩ := Stmt.WritableAlternate.of_conditional h hi
  rw [Action.getD_canonicalAlternate] at helse
  obtain ⟨cs, hcs⟩ := (hb consequent (by simp [Action.bodies])).told false (.of_unbroken hthen)
  obtain ⟨as, has⟩ := (hb (rest.getD []) (by simp [Action.bodies])).alternate flush helse
  exact ⟨_, Action.Told.conditional h.2.1.isWritten hcs has⟩

theorem exists_told {a : Action} (h : a.canonical.Every (writable flush))
    (hin : ∀ body ∈ a.canonical.indented, Stmt.EveryAll (writable false) body)
    (hb : ∀ body ∈ a.bodies, Stmt.HasScripts body) : ∃ script, a.Told flush line script := by
  have hbody (body : List Stmt) (hm : body ∈ a.bodies) (hi : Stmt.canonicalAll body ∈ a.canonical.indented) :
      ∃ scripts, Stmt.ToldAll false body scripts := (hb body hm).told false (.of_unbroken (hin _ hi))
  cases a with
  | declare s value =>
    exact Told.text h (by rw [Stmt.outline, outline, Builder.titled]) (by decide) (by simp) (by simp)
      (by rw [canonical]) rfl
  | assign target op value =>
    exact Told.text h (by rw [Stmt.outline, outline, Builder.titled]) (by decide) (by simp) (by simp)
      (by rw [canonical]) rfl
  | define s names body isLocal isMethod =>
    rw [canonical] at h hbody
    obtain ⟨bs, hbs⟩ := hbody body (by simp [bodies]) (by simp [indented, bodies])
    exact Told.define h.1.1 h.1.2.2 hbs
  | conditional condition consequent alternate =>
    obtain ⟨script, hscript, -⟩ := exists_told_conditional h hin hb
    exact ⟨script, hscript⟩
  | whileLoop condition body =>
    rw [canonical] at h hbody
    obtain ⟨bs, hbs⟩ := hbody body (by simp [bodies]) (by simp [indented, bodies])
    exact Told.whileLoop h.2.1.isWritten hbs
  | forLoop counter first last step body =>
    rw [canonical] at h hbody
    obtain ⟨bs, hbs⟩ := hbody body (by simp [bodies]) (by simp [indented, bodies])
    exact Told.forLoop h.1 h.2.1.isWritten h.2.2.1.isWritten
      (fun e he => (Expr.everyOption_iff.mp h.2.2.2.1 e he).isWritten) hbs
  | forEach names iterable body =>
    rw [canonical] at h hbody
    obtain ⟨bs, hbs⟩ := hbody body (by simp [bodies]) (by simp [indented, bodies])
    exact Told.forEach h.1.1 h.1.2 h.2.1.isWritten hbs
  | giveBack values =>
    rw [canonical] at h
    exact Told.giveBack fun e he => (Expr.everyAll_iff.mp h.2 e he).isWritten
  | leaveLoop =>
    exact Told.text h (by rw [Stmt.outline, outline]) (by decide) (by simp) (by simp) (by rw [canonical]) rfl
  | evaluate e =>
    rw [canonical] at h hbody
    exact Told.evaluate h.2 fun hf body hm => hbody body hm (Expr.canonicalAll_mem_indented hf hm)

end Action

/-- Every list of statements whose written form can be written line by line has a script that spells it. -/
theorem Stmt.hasScripts (ss : List Stmt) : Stmt.HasScripts ss := by
  induction ss using Stmt.bodyInduction with
  | nil => exact ⟨fun _ _ => ⟨[], .nil⟩, fun _ _ => ⟨[], .nil⟩⟩
  | cons line action ss hb hss =>
    have htold : ∀ flush, Stmt.WritableAll flush (Stmt.canonicalAll (.mk line action :: ss)) →
        ∃ scripts, Stmt.ToldAll flush (.mk line action :: ss) scripts := by
      intro flush h
      rw [Stmt.canonicalAll, Stmt.canonical] at h
      obtain ⟨script, hscript⟩ := @Action.exists_told flush line action h.every.1 (h.indented _ List.mem_cons_self) hb
      cases hr : action.isReturn with
      | true => exact ⟨[script], .ended hscript hr ss⟩
      | false =>
        have hgoes : ¬(Stmt.mk line action).action.isReturn = true := Bool.eq_false_iff.mp hr
        rw [if_neg hgoes] at h
        obtain ⟨scripts, hscripts⟩ :=
          hss.told flush ⟨h.every.2, fun s hs => h.indented s (List.mem_cons_of_mem _ hs)⟩
        exact ⟨script :: scripts, .cons hscript hscripts hr⟩
    refine ⟨htold, fun flush h => ?_⟩
    by_cases hlone : ∃ condition body rest, action = .conditional condition body rest ∧ ss = []
    · obtain ⟨condition, body, rest, rfl, rfl⟩ := hlone
      have hcanonical : Stmt.canonicalAll [.mk line (.conditional condition body rest)] =
          [.mk line (Action.conditional condition body rest).canonical] := by simp [Stmt.canonicalAll, Stmt.canonical]
      rw [hcanonical] at h
      have hi := h.elseif
      rw [Action.canonical] at hi
      obtain ⟨script, -, hscript⟩ := @Action.exists_told_conditional flush line _ _ _ h.every.1
        (by rw [Action.canonical]; exact hi _ _ _ _ rfl) hb
      exact ⟨[script], hscript⟩
    · have hno : ∀ line' condition body rest,
          Stmt.mk line action :: ss ≠ [.mk line' (.conditional condition body rest)] := by
        rintro line' condition body rest heq
        cases heq
        exact hlone ⟨_, _, _, rfl, rfl⟩
      have hunbroken := h.otherwise fun line' condition body rest heq => by
        obtain ⟨_, _, heq'⟩ := Stmt.eq_conditional_of_canonicalAll heq
        exact hno _ _ _ _ heq'
      obtain ⟨scripts, hscripts⟩ := htold false (.of_unbroken hunbroken)
      exact ⟨scripts, hscripts.alternate (List.cons_ne_nil _ _) hno⟩

/-- The text of a graph is the text of the script of its program. -/
theorem Rendered.text_ofProgram {layout : Layout} {mark : String} (hl : layout.Descends) {p : Program}
    {scripts : List Script}
    (hs : Outline.Says (Stmt.outlines p) scripts) (hfits : Outline.FitsAll maxDepth (Stmt.outlines p))
    (header : String) :
    (Rendered.ofGraph {} (Graph.ofProgram layout p mark) header).text =
      Balance.close (Rendered.join header (Script.blocks defaultIndent scripts)) := by
  have hblocks := Draft.blocks_ofProgram hl hs {} (hfits.mono (by decide)) mark
  rw [Rendered.ofGraph, hblocks]
  simp

theorem Rendered.toList_paragraphs (parts : List String) :
    (String.join (parts.map (· ++ "\n\n"))).toList = parts.flatMap fun b => (b ++ "\n\n").toList := by
  induction parts with
  | nil => simp
  | cons b parts ih => simp only [List.map_cons, String.join_cons, String.toList_append, List.flatMap_cons, ih]

theorem Rendered.toList_join_empty (blocks : List String) : (Rendered.join "" blocks).toList =
    Text.trimEndChars ((blocks.filter fun b => !Text.isBlankText b).flatMap fun b => (b ++ "\n\n").toList) := by
  have hblank : Text.isBlankText "" = true := rfl
  rw [Rendered.join, hblank, if_pos rfl, List.nil_append, Text.trimEnd, String.toList_ofList, toList_paragraphs]

theorem Rendered.spells_join {scripts : List Script} {ls : List Lexeme} (h : TellsBlocks scripts ls) :
    Spells (Rendered.join "" (Script.blocks defaultIndent scripts)).toList ls none := by
  rw [Rendered.toList_join_empty]
  exact (h defaultIndent rfl none).trimEnd rfl

namespace Balance

/-- Blocks are counted by lexemes. -/
theorem countP_rawTokens {f : Token → Bool} (hf : ∀ t : Token, f t.unplaced = f t) (heof : f (.endOfInput 0 0) = false)
    (text : String) :
    (rawTokens text).countP f = ((lexemesOf (pieces text.toList)).map (·.token ⟨0, 0⟩)).countP f := by
  have hmap : (rawTokens text).countP f = ((rawTokens text).map Token.unplaced).countP f := by
    rw [List.countP_map]
    exact List.countP_congr fun t _ => by rw [Function.comp_apply, hf]
  rw [hmap, rawTokens, map_unplaced_placed, List.countP_append, List.countP_singleton, heof]
  simp

theorem ofText_eq (text : String) : ofText text =
    ⟨((lexemesOf (pieces text.toList)).map (·.token ⟨0, 0⟩)).countP isOpener,
      ((lexemesOf (pieces text.toList)).map (·.token ⟨0, 0⟩)).countP isCloser⟩ := by
  rw [ofText, countP_rawTokens (fun _ => rfl) rfl, countP_rawTokens (fun _ => rfl) rfl]

theorem close_of_missing {text : String} (h : (ofText text).missing = 0) : close text = text := by
  rw [close, h]
  rfl

theorem missing_of_spells {text : String} {ls : List Lexeme} (h : Spells text.toList ls none) {P : Lexeme → Prop}
    (hb : Bracketed P ls) : (ofText text).missing = 0 := by
  rw [ofText_eq, h.lexemesOf_pieces, missing, hb.countP_eq, Nat.sub_self]

end Balance

/-- A program without strings over two lines can be written line by line. -/
theorem Stmt.WritableAll.of_program {p : Program} (hp : Program.Every printable p) (hu : Program.Every unbroken p) :
    Stmt.WritableAll true (Stmt.canonicalAll p) := by
  have hprintable := printable_settles.program hp
  have hunbroken := unbroken_settles.program hu
  exact .of_unbroken ((imply_writable false).program hprintable hunbroken).2

theorem Stmt.bracketed {ss : List Stmt} (h : Stmt.EveryAll printable ss) :
    Bracketed (fun _ => True) (Stmt.lexemesAll ss) := by
  refine .stmts fun s hs => ?_
  have hcases := @bracketed_cases printable (fun _ => True) (fun _ _ _ => trivial) fun _ _ _ _ _ h => h.1.bracketed
  have hs' := hcases.statement s (Stmt.everyAll_iff.mp h s hs)
  obtain ⟨line, action⟩ := s
  exact hs'.all

/-- The text of a program that can be written line by line spells its written form. -/
theorem Rendered.spells_ofProgram {layout : Layout} (hl : layout.Descends) {p : Program}
    (h : Stmt.WritableAll true (Stmt.canonicalAll p)) (hfits : Outline.FitsAll maxDepth (Stmt.outlines p))
    (mark : String) :
    Spells (Rendered.ofGraph {} (Graph.ofProgram layout p mark) "").text.toList
      (Stmt.lexemesAll (Stmt.canonicalAll p)) none := by
  obtain ⟨scripts, hscripts⟩ := (Stmt.hasScripts p).told true h
  have hspells := Rendered.spells_join hscripts.blocks
  have hclosed := Balance.close_of_missing (Balance.missing_of_spells hspells (Stmt.bracketed h.every_printable))
  rwa [Rendered.text_ofProgram hl hscripts.script hfits, hclosed]

end ScriptGraph
