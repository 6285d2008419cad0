import ScriptGraph.Proofs.Bracketing
import ScriptGraph.Proofs.Canonical
import ScriptGraph.Proofs.ScriptText

namespace ScriptGraph

open Lexeme

theorem Lexeme.Whole.exists_first {l : Lexeme} (h : l.Whole) : ∃ c cs, l.source = c :: cs ∧ Text.isBlank c = false := by
  have hscan := scan?_of_whole h [] rfl
  cases hs : l.source with
  | nil => exact absurd hs (source_ne_nil_of_whole h)
  | cons c cs =>
    refine ⟨c, cs, rfl, ?_⟩
    rw [hs, List.append_nil] at hscan
    by_contra hc
    rw [Bool.not_eq_false] at hc
    exact absurd hscan (by simp [scan?, first?_of_isBlank hc])

namespace Spells

variable {cs : List Char} {ls : List Lexeme} {next : Option Char}

theorem trimEnd (h : Spells cs ls next) (hn : breaks next = true) : Spells (Text.trimEndChars cs) ls next := by
  obtain ⟨ps, rfl, rfl, hp⟩ := h
  induction ps with
  | nil => exact Spells.nil
  | cons p ps ih =>
    cases p with
    | gap c =>
      obtain ⟨hc, hp⟩ := hp
      rw [sourceOf_gap, lexemesOf_gap, Text.trimEndChars_cons]
      split
      · rename_i hnil
        have hrest := ih hp
        rwa [hnil.1] at hrest
      · have hblank : [c].all Text.isBlank = true := by simp [hc]
        exact blanks_append hblank (ih hp)
    | lexeme l =>
      obtain ⟨hl, he, hp⟩ := hp
      obtain ⟨as, c, hsource, hc⟩ := hl.exists_last
      rw [sourceOf_lexeme, lexemesOf_lexeme, hsource, Text.trimEndChars_append_of_last hc, ← hsource]
      refine lexeme_append hl ?_ (ih hp)
      rcases Text.head?_trimEndChars (sourceOf ps) with hnil | hhead
      · rw [hnil]
        exact endsBefore_of_breaks hn
      · rwa [hhead]

theorem dropBlanks (h : Spells cs ls next) : Spells (cs.dropWhile Text.isBlank) ls next := by
  obtain ⟨ps, rfl, rfl, hp⟩ := h
  induction ps with
  | nil => exact Spells.nil
  | cons p ps ih =>
    cases p with
    | gap c =>
      obtain ⟨hc, hp⟩ := hp
      rw [sourceOf_gap, lexemesOf_gap, List.dropWhile_cons_of_pos hc]
      exact ih hp
    | lexeme l =>
      obtain ⟨c, cs, hsource, hc⟩ := hp.1.exists_first
      rw [sourceOf_lexeme, hsource, List.cons_append, List.dropWhile_cons_of_neg (by simp [hc]), ← List.cons_append,
        ← hsource]
      exact ⟨.lexeme l :: ps, rfl, rfl, hp⟩

theorem trim {s : String} (h : Spells s.toList ls next) (hn : breaks next = true) :
    Spells (Text.trim s).toList ls next := by
  rw [Text.trim, String.toList_ofList]
  exact h.dropBlanks.trimEnd hn

theorem isBlankText {s : String} (h : Spells s.toList ls next) (hne : ls ≠ []) : Text.isBlankText s = false := by
  by_contra hb
  rw [Bool.not_eq_false] at hb
  exact hne (h.eq_nil_of_isBlank hb)

end Spells

theorem IsName.isBlankText {s : String} (h : IsName s) : Text.isBlankText s = false :=
  (h.spells (rfl : breaksWord none = true)).isBlankText (by simp)

theorem IsPath.isBlankText {s : String} {isMethod : Bool} (h : IsPath s isMethod) : Text.isBlankText s = false := by
  refine (h.spells (rfl : breaksWord none = true)).isBlankText ?_
  cases h with
  | name h => simp [h.path_eq]
  | dot hp h => simp [hp.path_dot h]
  | colon hp h => simp [hp.path_colon h]

theorem Expr.lexemes_ne_nil (e : Expr) : e.lexemes ≠ [] := by
  cases e <;> simp [Expr.lexemes]

theorem Action.lexemes_ne_nil (a : Action) : a.lexemes ≠ [] := by
  cases a with
  | declare s value => cases value <;> simp [Action.lexemes]
  | forLoop counter first last step body => cases step <;> simp [Action.lexemes]
  | evaluate e =>
    rw [Action.lexemes]
    exact e.lexemes_ne_nil
  | _ => simp [Action.lexemes]

/-- No string goes over the end of a line. -/
def Lexeme.Unbroken (ls : List Lexeme) : Prop := ∀ l ∈ ls, l.kind = .string → '\n' ∉ l.text

namespace Lexeme

@[simp] theorem unbroken_nil : Unbroken [] := fun _ hl => nomatch hl

@[simp] theorem unbroken_append {ls ms : List Lexeme} : Unbroken (ls ++ ms) ↔ Unbroken ls ∧ Unbroken ms :=
  List.forall_mem_append

@[simp] theorem unbroken_keyword {s : String} {ls : List Lexeme} : Unbroken (keyword s :: ls) ↔ Unbroken ls := by
  simp [Unbroken, keyword, verbatim]

@[simp] theorem unbroken_name {s : String} {ls : List Lexeme} : Unbroken (name s :: ls) ↔ Unbroken ls := by
  simp [Unbroken, name, verbatim]

@[simp] theorem unbroken_operator {s : String} {ls : List Lexeme} : Unbroken (operator s :: ls) ↔ Unbroken ls := by
  simp [Unbroken, operator, verbatim]

@[simp] theorem unbroken_mark {s : String} {ls : List Lexeme} : Unbroken (mark s :: ls) ↔ Unbroken ls := by
  simp [Unbroken, mark, verbatim]

theorem unbroken_of_bracketed {ls : List Lexeme} (h : Bracketed (fun l => '\n' ∉ l.text) ls) : Unbroken ls := h.string

theorem unbroken_commas {lss : List (List Lexeme)} (h : ∀ ls ∈ lss, Unbroken ls) : Unbroken (commas lss) := by
  induction lss with
  | nil => exact unbroken_nil
  | cons ls lss ih =>
    obtain ⟨hls, hlss⟩ := List.forall_mem_cons.mp h
    cases lss with
    | nil => exact hls
    | cons ms lss =>
      rw [commas_cons_cons, unbroken_append, unbroken_mark]
      exact ⟨hls, ih hlss⟩

theorem unbroken_params (names : List String) : Unbroken (params names) := unbroken_of_bracketed (.params names)

end Lexeme

/-- What a text needs to be written line by line: names and literals can be read again, and no string goes over the
end of a line, unless the text is written at the margin. -/
def writable (flush : Bool) : Rules where
  expr e := printable.expr e ∧ (flush = false → unbroken.expr e)
  field := printable.field
  action := printable.action

theorem imply_writable (flush : Bool) : Rules.Imply printable unbroken (writable flush) :=
  ⟨fun _ hp hu => ⟨hp, fun _ => hu⟩, fun _ h _ => h, fun _ h _ => h, fun _ _ _ => trivial⟩

theorem printable_imply_writable : Rules.Imply printable printable (writable true) :=
  ⟨fun _ h _ => ⟨h, by simp⟩, fun _ h _ => h, fun _ h _ => h, fun _ _ _ => trivial⟩

theorem writable_imply_printable (flush : Bool) : Rules.Imply (writable flush) (writable flush) printable :=
  ⟨fun _ h _ => h.1, fun _ h _ => h, fun _ h _ => h, fun _ _ _ => trivial⟩

theorem writable_cases : SyntaxCases (fun e => e.Every (writable false) → Bracketed (fun l => '\n' ∉ l.text) e.lexemes)
    (fun f => f.Every (writable false) → Bracketed (fun l => '\n' ∉ l.text) f.lexemes)
    (fun a => a.Every (writable false) → a.IsBracketed (fun l => '\n' ∉ l.text))
    (fun s => s.Every (writable false) → s.action.IsBracketed (fun l => '\n' ∉ l.text)) :=
  bracketed_cases (fun _ _ h => h.2 rfl) fun _ _ _ _ _ h => h.1.bracketed

theorem writable_ofPaths : (writable false).OfPaths where
  identifier _ h := ⟨h, fun _ => trivial⟩
  member _ _ h := ⟨h, fun _ => trivial⟩
  index _ _ := ⟨trivial, fun _ => trivial⟩
  string _ h hn := ⟨⟨h.isContent, h.dangles_eq_false⟩, fun _ => hn⟩
  call _ _ := ⟨trivial, fun _ => trivial⟩
  methodCall _ _ _ h := ⟨h, fun _ => trivial⟩

variable {flush : Bool}

/-- What the text of an expression in a node needs to be cut into lines. -/
structure Expr.IsWritten (flush : Bool) (e : Expr) : Prop where
  spelled : e.IsSpelled defaultIndent
  unbroken : flush = false → Unbroken e.lexemes

theorem Expr.Every.isWritten {e : Expr} (h : e.Every (writable flush)) : e.IsWritten flush := by
  refine ⟨(printable_cases rfl).expr e ((writable_imply_printable flush).cases.expr e h h), ?_⟩
  rintro rfl
  exact (writable_cases.expr e h).string

theorem Expr.IsWritten.isBlankText {e : Expr} (h : e.IsWritten flush) : Text.isBlankText e.text = false :=
  (h.spelled.spells 0 none rfl).isBlankText e.lexemes_ne_nil

open Emitter

theorem Expr.IsWritten.textSpells {e : Expr} (h : e.IsWritten flush) : TextSpells flush e.text e.lexemes :=
  .of_spells (h.spelled.spells 0 (some '\n') rfl) h.unbroken

theorem Action.Every.textSpells {a : Action} (h : a.Every (writable flush)) (line : Nat) :
    TextSpells flush (Stmt.mk line a).text a.lexemes := by
  have hspelled := (printable_cases (rfl : Text.isBlankText defaultIndent = true)).action a
    ((writable_imply_printable flush).cases.action a h h)
  refine .of_spells (hspelled.1 line 0 (some '\n') rfl) ?_
  rintro rfl
  exact (writable_cases.action a h).all.string

theorem Action.Every.isBlankText {a : Action} (h : a.Every (writable flush)) (line : Nat) :
    Text.isBlankText (Stmt.mk line a).text = false :=
  (h.textSpells line).spells.isBlankText a.lexemes_ne_nil

namespace Emitter.TextSpells

/-- An expression between two keywords. -/
theorem between {e : Expr} (h : e.IsWritten flush) {s t text : String} (hs : isKeyword s = true)
    (ht : isKeyword t = true) (htext : text.toList = s.toList ++ ' ' :: (e.text.toList ++ ' ' :: t.toList)) :
    TextSpells flush text (.keyword s :: (e.lexemes ++ [.keyword t])) := by
  refine .of_spells ?_ ?_
  · have hlast := Spells.space (Spells.keyword t ht rfl (@Spells.nil (some '\n')))
    rw [List.append_nil] at hlast
    rw [htext]
    exact Spells.keywordSpace s hs ((h.spelled.spells 0 (some ' ') rfl).append hlast)
  · intro hf
    change Unbroken _
    simpa using h.unbroken hf

theorem forLoop {counter : String} {first last : Expr} (hc : IsName counter) (hf : first.IsWritten flush)
    (hl : last.IsWritten flush) {step : Option Expr} (hs : ∀ e ∈ step, e.IsWritten flush) :
    TextSpells flush ("for " ++ counter ++ " = " ++ first.text ++ ", " ++ last.text ++
        ((step.map Expr.text).map (", " ++ ·)).getD "" ++ " do")
      (.keyword "for" :: .name counter :: .operator "=" :: (first.lexemes ++ .mark "," :: (last.lexemes ++
        ((step.map fun e => .mark "," :: e.lexemes).getD [] ++ [.keyword "do"])))) := by
  have hdo : Spells [' ', 'd', 'o'] [.keyword "do"] (some '\n') :=
    Spells.space (Spells.keyword "do" rfl rfl Spells.nil)
  have hopen {bs : List Char} {ms : List Lexeme} (hb : breaks (bs.head?.or (some '\n')) = true)
      (h : Spells bs ms (some '\n')) :=
    Spells.keywordSpace "for" rfl (Spells.name hc rfl (Spells.space (Spells.operatorSpace "=" (by decide)
      ((hf.spelled.spells 0 (some ',') rfl).append (Spells.mark "," ',' (by decide)
        (Spells.space ((hl.spelled.spells 0 _ hb).append h)))))))
  cases step with
  | none =>
    refine .of_spells ?_ ?_
    · have hall := hopen rfl hdo
      simpa [Expr.text] using hall
    · intro hflush
      change Unbroken _
      simpa using ⟨hf.unbroken hflush, hl.unbroken hflush⟩
  | some e =>
    have he := hs e rfl
    refine .of_spells ?_ ?_
    · have hall :=
        hopen rfl (Spells.mark "," ',' (by decide) (Spells.space ((he.spelled.spells 0 (some ' ') rfl).append hdo)))
      simpa [Expr.text] using hall
    · intro hflush
      change Unbroken _
      simpa using ⟨hf.unbroken hflush, hl.unbroken hflush, he.unbroken hflush⟩

theorem forEach {names : List String} {iterable : Expr} (hn : ∀ s ∈ names, IsName s) (hi : iterable.IsWritten flush) :
    TextSpells flush ("for " ++ ", ".intercalate names ++ " in " ++ iterable.text ++ " do")
      (.keyword "for" :: (commas (names.map fun s => [.name s]) ++ .keyword "in" :: (iterable.lexemes ++
        [.keyword "do"]))) := by
  refine .of_spells ?_ ?_
  · have hdo : Spells [' ', 'd', 'o'] [.keyword "do"] (some '\n') :=
      Spells.space (Spells.keyword "do" rfl rfl Spells.nil)
    have hin := Spells.keywordSpace "in" rfl ((hi.spelled.spells 0 (some ' ') rfl).append hdo)
    have hnames :
        Spells (", ".intercalate (names.map id)).toList (commas (names.map fun s => [Lexeme.name s])) (some ' ') :=
      Spells.commas rfl fun s hs next hb => (hn s hs).spells (breaksWord_of_breaks hb)
    rw [List.map_id] at hnames
    have hall := Spells.keywordSpace "for" rfl (hnames.append (Spells.space hin))
    simpa [Expr.text] using hall
  · intro hf
    have hcommas : Unbroken (commas (names.map fun s => [.name s])) := by
      refine unbroken_commas fun ls hls => ?_
      obtain ⟨s, -, rfl⟩ := List.mem_map.mp hls
      simp
    change Unbroken _
    simpa using ⟨hcommas, hi.unbroken hf⟩

/-- The opener of a function. -/
theorem define {s : String} {names : List String} {isMethod : Bool} (hs : IsPath s isMethod) (hn : IsParams names)
    (isLocal : Bool) :
    TextSpells flush
      ((if isLocal then "local " else "") ++ "function " ++ s ++ "(" ++ Text.trim (", ".intercalate names) ++ ")")
      ((if isLocal then [.keyword "local"] else []) ++ .keyword "function" :: (path s ++ Lexeme.params names)) := by
  refine .of_spells ?_ ?_
  · have hnames : Spells (", ".intercalate (names.map id)).toList (commas (names.map fun s => [param s])) (some ')') :=
      Spells.commas rfl fun s hm next hb => spells_param (hn.isName_or s hm) hb
    rw [List.map_id] at hnames
    have hparams := Spells.mark "(" '(' (by decide) ((hnames.trim rfl).append
      (Spells.mark ")" ')' (by decide) (@Spells.nil (some '\n'))))
    have hparen : breaksWord (some '(') = true := rfl
    have hfunction := Spells.keywordSpace "function" rfl ((hs.spells hparen).append hparams)
    cases isLocal with
    | false => simpa [Lexeme.params] using hfunction
    | true =>
      have hall := Spells.keywordSpace "local" rfl hfunction
      simpa [Lexeme.params] using hall
  · intro _
    have hpath : Unbroken (path s) := unbroken_of_bracketed hs.bracketed
    change Unbroken _
    cases isLocal <;> simpa using ⟨hpath, unbroken_params names⟩

theorem giveBack {values : List Expr} (h : ∀ e ∈ values, e.IsWritten flush) :
    TextSpells flush ("return " ++ ", ".intercalate (values.map Expr.text))
      (.keyword "return" :: commas (Expr.lexemesAll values)) := by
  rw [Expr.lexemesAll_eq]
  refine .of_spells ?_ ?_
  · have hvalues :
        Spells (", ".intercalate (values.map Expr.text)).toList (commas (values.map Expr.lexemes)) (some '\n') :=
      Spells.commas rfl fun e he next hb => (h e he).spelled.spells 0 next hb
    have hall := Spells.keywordSpace "return" rfl hvalues
    simpa using hall
  · intro hf
    have hcommas : Unbroken (commas (values.map Expr.lexemes)) := by
      refine unbroken_commas fun ls hls => ?_
      obtain ⟨e, he, rfl⟩ := List.mem_map.mp hls
      exact (h e he).unbroken hf
    change Unbroken _
    simpa using hcommas

end Emitter.TextSpells

theorem Lexeme.commas_append_cons (as : List (List Lexeme)) (b : List Lexeme) (cs : List (List Lexeme)) :
    commas (as ++ b :: cs) = as.flatMap (· ++ [mark ","]) ++ b ++ cs.flatMap (mark "," :: ·) := by
  have htail (b : List Lexeme) (cs : List (List Lexeme)) : commas (b :: cs) = b ++ cs.flatMap (mark "," :: ·) := by
    induction cs generalizing b with
    | nil => simp [commas]
    | cons c cs ih => rw [commas_cons_cons, ih, List.flatMap_cons, List.cons_append]
  induction as with
  | nil => simpa using htail b cs
  | cons a as ih =>
    have hcons : commas (a :: (as ++ b :: cs)) = a ++ mark "," :: commas (as ++ b :: cs) := by
      cases as <;> rfl
    rw [List.cons_append, hcons, ih]
    simp

/-- Arguments that others follow. -/
theorem Spells.headed {es : List Expr} (h : ∀ e ∈ es, e.IsSpelled defaultIndent) {bs : List Char} {ms : List Lexeme}
    {next : Option Char}
    (hb : Spells bs ms next) : Spells ((String.join ((es.map Expr.text).map (· ++ ", "))).toList ++ bs)
      ((es.map Expr.lexemes).flatMap (· ++ [.mark ","]) ++ ms) next := by
  induction es with
  | nil => simpa using hb
  | cons e es ih =>
    obtain ⟨he, hes⟩ := List.forall_mem_cons.mp h
    have hall := (he.spells 0 (some ',') rfl).append (Spells.mark "," ',' (by decide) (Spells.space (ih hes)))
    simpa [String.join_cons, Expr.text] using hall

/-- Arguments that follow others. -/
theorem Spells.tailed {es : List Expr} (h : ∀ e ∈ es, e.IsSpelled defaultIndent) {bs : List Char} {ms : List Lexeme}
    {next : Option Char} (hn : breaks (bs.head?.or next) = true) (hb : Spells bs ms next) :
    Spells ((Text.commaed (es.map Expr.text)).toList ++ bs) ((es.map Expr.lexemes).flatMap (.mark "," :: ·) ++ ms)
      next := by
  induction es with
  | nil => simpa using hb
  | cons e es ih =>
    obtain ⟨he, hes⟩ := List.forall_mem_cons.mp h
    have hbreak : breaks (((Text.commaed (es.map Expr.text)).toList ++ bs).head?.or next) = true := by
      cases es with
      | nil => simpa using hn
      | cons e es => simp [Text.commaed_cons]; rfl
    have hall := Spells.mark "," ',' (by decide) (Spells.space ((he.spells 0 _ hbreak).append (ih hes)))
    simpa [Expr.text] using hall

theorem Spells.callOpener {entry : Entry} (he : entry ∈ Catalogue.entries) {before : List Expr} {names : List String}
    (hb : ∀ e ∈ before, e.IsSpelled defaultIndent) (hn : IsParams names) (next : Option Char) :
    Spells (entry.callee ++ "(" ++ String.join ((before.map Expr.text).map (· ++ ", ")) ++ "function(" ++
        ", ".intercalate names ++ ")").toList
      (path entry.callee ++ .mark "(" :: ((before.map Expr.lexemes).flatMap (· ++ [.mark ","]) ++
        .keyword "function" :: Lexeme.params names)) next := by
  have hparen : breaksWord (some '(') = true := rfl
  have hfunction := Spells.keyword "function" rfl rfl (@IsParams.spells names hn next)
  have hall := (Entry.spells_path he hparen).append (Spells.mark "(" '(' (by decide) (Spells.headed hb hfunction))
  simpa using hall

theorem Spells.callCloser {behind : List Expr} (hb : ∀ e ∈ behind, e.IsSpelled defaultIndent) (next : Option Char) :
    Spells ("end" ++ Text.commaed (behind.map Expr.text) ++ ")").toList
      (.keyword "end" :: ((behind.map Expr.lexemes).flatMap (.mark "," :: ·) ++ [.mark ")"])) next := by
  have hclose := Spells.tailed hb rfl (Spells.mark ")" ')' (by decide) (@Spells.nil next))
  have hbreak : breaksWord (((Text.commaed (behind.map Expr.text)).toList ++ [')']).head?.or next) = true := by
    cases behind with
    | nil => rfl
    | cons e es => simp [Text.commaed_cons]; rfl
  have hall := Spells.keyword "end" rfl hbreak hclose
  simpa using hall

theorem Lexeme.unbroken_flatMap {α : Type} {as : List α} {f : α → List Lexeme} (h : ∀ a ∈ as, Unbroken (f a)) :
    Unbroken (as.flatMap f) := by
  intro l hl
  obtain ⟨a, ha, hl⟩ := List.mem_flatMap.mp hl
  exact h a ha l hl

namespace Emitter.TextSpells

theorem callOpener {entry : Entry} (he : entry ∈ Catalogue.entries) {before : List Expr} {names : List String}
    (hb : ∀ e ∈ before, e.IsWritten flush) (hn : IsParams names) :
    TextSpells flush (entry.callee ++ "(" ++ String.join ((before.map Expr.text).map (· ++ ", ")) ++ "function(" ++
        ", ".intercalate names ++ ")")
      (path entry.callee ++ .mark "(" :: ((before.map Expr.lexemes).flatMap (· ++ [.mark ","]) ++
        .keyword "function" :: Lexeme.params names)) := by
  refine .of_spells (Spells.callOpener he (fun e he => (hb e he).spelled) hn _) fun hf => ?_
  have hpath : Unbroken (path entry.callee) := by
    have hcall : (entry.call []).Every (writable false) := writable_ofPaths.call_entry he trivial
    have hunbroken := hcall.isWritten.unbroken rfl
    rw [Entry.lexemes_call he, unbroken_append] at hunbroken
    exact hunbroken.1
  have hbefore : Unbroken ((before.map Expr.lexemes).flatMap (· ++ [.mark ","])) := by
    refine unbroken_flatMap fun ls hls => ?_
    obtain ⟨e, he, rfl⟩ := List.mem_map.mp hls
    simpa using (hb e he).unbroken hf
  change Unbroken _
  simpa using ⟨hpath, hbefore, unbroken_params names⟩

theorem callCloser {behind : List Expr} (hb : ∀ e ∈ behind, e.IsWritten flush) :
    TextSpells flush ("end" ++ Text.commaed (behind.map Expr.text) ++ ")")
      (.keyword "end" :: ((behind.map Expr.lexemes).flatMap (.mark "," :: ·) ++ [.mark ")"])) := by
  refine .of_spells (Spells.callCloser (fun e he => (hb e he).spelled) _) fun hf => ?_
  have hbehind : Unbroken ((behind.map Expr.lexemes).flatMap (.mark "," :: ·)) := by
    refine unbroken_flatMap fun ls hls => ?_
    obtain ⟨e, he, rfl⟩ := List.mem_map.mp hls
    simpa using (hb e he).unbroken hf
  change Unbroken _
  simpa using hbehind

end Emitter.TextSpells

end ScriptGraph
