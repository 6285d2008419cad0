import ScriptGraph.Proofs.ParserSound
import ScriptGraph.Proofs.PrintedText

namespace ScriptGraph

/-- The kind, the text and the quote of the token are what the scanner cuts together. -/
def Token.Legible (t : Token) : Prop := Lexeme.Cut t.kind t.text.toList t.quote

theorem cut_of_mem_piecesWithin {l : Lexeme} {budget cs : List Char} (h : Piece.lexeme l ∈ piecesWithin budget cs) :
    Lexeme.Cut l.kind l.text l.quote := by
  fun_induction piecesWithin budget cs with
  | case1 _ budget c cs m hm ih =>
    rcases List.mem_cons.mp h with heq | h
    · cases heq
      exact Lexeme.cut_of_first? hm
    · exact ih h
  | case2 _ budget c cs hm ih =>
    rcases List.mem_cons.mp h with heq | h
    · cases heq
    · exact ih h
  | case3 => cases h

theorem placed_eq_append (p : Place) {ps : List Piece}
    (h : ∀ l, Piece.lexeme l ∈ ps → Lexeme.Cut l.kind l.text l.quote) :
    ∃ ts line column, placed p ps = ts ++ [.endOfInput line column] ∧ ∀ t ∈ ts, t.Legible := by
  induction ps generalizing p with
  | nil => exact ⟨[], p.line, p.column, rfl, by simp⟩
  | cons q ps ih =>
    have hrest : ∀ l, Piece.lexeme l ∈ ps → Lexeme.Cut l.kind l.text l.quote :=
      fun l hl => h l (List.mem_cons_of_mem _ hl)
    cases q with
    | gap c => exact ih (p.step c) hrest
    | lexeme l =>
      obtain ⟨ts, line, column, hts, hlegible⟩ := ih (p.after l.source) hrest
      refine ⟨l.token p :: ts, line, column, by simp [placed, hts], List.forall_mem_cons.mpr ⟨?_, hlegible⟩⟩
      simpa [Token.Legible, Lexeme.token] using h l List.mem_cons_self

/-- The tokens of a text are legible up to the end of input, which comes last. -/
theorem tokenize_eq_append (s : String) (firstLine : Nat) :
    ∃ ts line column, tokenize s firstLine = ts ++ [.endOfInput line column] ∧ ∀ t ∈ ts, t.Legible := by
  have hcut : ∀ l, Piece.lexeme l ∈ pieces s.toList → Lexeme.Cut l.kind l.text l.quote :=
    fun l hl => cut_of_mem_piecesWithin hl
  obtain ⟨ts, line, column, hts, h⟩ := placed_eq_append ⟨max firstLine 1, 1⟩ hcut
  refine ⟨ts.filter (·.kind ≠ .comment), line, column, ?_, fun t ht => h t (List.mem_filter.mp ht).1⟩
  rw [tokenize, rawTokens, hts, List.filter_append]
  rfl

namespace Token.Legible

variable {t : Token} (h : t.Legible)
include h

theorem isName (hk : t.isName = true) : IsName t.text := by
  unfold Token.Legible at h
  rw [Token.isName_iff.mp hk] at h
  simpa [IsName, Lexeme.Cut] using h

theorem isNumber (hk : t.kind = .number) : Lexeme.IsNumber t.text.toList := by
  unfold Token.Legible at h
  rwa [hk] at h

theorem isContent (hk : t.kind = .string) : Lexeme.IsContent (t.quote.getD '"') t.text.toList := by
  unfold Token.Legible at h
  rw [hk] at h
  obtain ⟨q, hq, hc⟩ := h
  rwa [hq]

theorem isEof : t.isEof = false := by
  cases hk : t.kind with
  | eof =>
    unfold Token.Legible at h
    rw [hk] at h
    exact h.elim
  | _ => simp [Token.isEof, hk]

end Token.Legible

/-- What holds of the names and literals in any program that was read from a text. -/
def legible : Rules where
  expr
    | .string value quote => Lexeme.IsContent quote value.toList
    | e => printable.expr e
  field := printable.field
  action := printable.action

theorem ParamNames.isParams {names : List String} {ts : List Token} {next : Token} (h : ParamNames names ts next)
    (hl : ∀ t ∈ ts, t.Legible) : IsParams names := by
  induction h with
  | ellipsis => exact .inr rfl
  | last ht => exact .inl ((hl _ (by simp)).isName ht)
  | @cons t u next names ts ht hu h ih =>
    have hrest := ih fun t ht => hl t (by simp [ht])
    have hname := (hl t (by simp)).isName ht
    cases names with
    | nil => cases h
    | cons s names => exact ⟨hname, hrest⟩

theorem Params.isParams {names : List String} {ts : List Token} {next : Token} (h : Params names ts next)
    (hl : ∀ t ∈ ts, t.Legible) : IsParams names := by
  cases h with
  | none => trivial
  | some ht hs h hu => exact h.isParams fun t ht => hl t (by simp [ht])

theorem Path.isPath {a b : String × Bool} {ts : List Token} {next : Token} (h : Path a b ts next)
    (hl : ∀ t ∈ ts, t.Legible) (ha : IsPath a.1 a.2) : IsPath b.1 b.2 := by
  induction h with
  | done => exact ha
  | @dot s whole t m next ts ht hm h ih =>
    exact ih (fun t ht => hl t (by simp [ht])) (.dot ha ((hl m (by simp)).isName hm))
  | @colon s whole t m next ts ht hm h ih =>
    exact ih (fun t ht => hl t (by simp [ht])) (.colon ha ((hl m (by simp)).isName hm))

theorem MoreNames.isName {names : List String} {ts : List Token} {next : Token} (h : MoreNames names ts next)
    (hl : ∀ t ∈ ts, t.Legible) : ∀ s ∈ names, IsName s := by
  induction h with
  | done => simp
  | @cons t m next names ts ht hm h ih =>
    exact List.forall_mem_cons.mpr ⟨(hl m (by simp)).isName hm, ih fun t ht => hl t (by simp [ht])⟩

/-- The rules hold of what the phrase stands for, if they hold of what was read before it. -/
def Phrase.Every (P : Rules) : Phrase → Prop
  | nested e | expr _ e => e.Every P
  | chain _ left whole | trail left whole => left.Every P → whole.Every P
  | exprs es | arguments es => Expr.EveryAll P es
  | fields fs => TableField.EveryAll P fs
  | field f => f.Every P
  | stmts _ ss | block _ ss | body ss => Stmt.EveryAll P ss
  | stmt o => ∀ s ∈ o, s.Every P
  | step o => Expr.EveryOption P o
  | tail _ s => s.Every P

theorem Derives.every_legible {free : Bool} {d : Nat} {ph : Phrase} {ts : List Token} {next : Token}
    (h : Derives free d ph ts next) (hl : ∀ t ∈ ts, t.Legible) : ph.Every legible := by
  induction h with
  | nested _ _ ih => exact ih hl
  | unaryEnd _ _ ih => exact ih hl
  | concatEnd _ _ ih => exact ih hl
  | powerEnd _ _ ih => exact ih hl
  | chainEnd | trailEnd => exact id
  | trueWord | falseWord | nilWord | vararg | noArguments | fieldsEnd | stmtsEnd | noStep => trivial
  | chained _ _ _ ih ihc =>
    simp only [List.forall_mem_append] at hl
    exact ihc hl.2 (ih hl.1)
  | chainStep _ _ _ _ ih ihc =>
    simp only [List.forall_mem_append, List.forall_mem_cons] at hl
    exact fun ha => ihc hl.2.2 ⟨trivial, ha, ih hl.2.1⟩
  | concat _ _ _ _ iha ihb =>
    simp only [List.forall_mem_append, List.forall_mem_cons] at hl
    exact ⟨trivial, iha hl.1, ihb hl.2.2⟩
  | power _ _ _ _ iha ihb =>
    simp only [List.forall_mem_append, List.forall_mem_cons] at hl
    exact ⟨trivial, iha hl.1, ihb hl.2.2⟩
  | unary _ _ _ ih =>
    simp only [List.forall_mem_cons] at hl
    exact ⟨trivial, ih hl.2⟩
  | access _ _ ih iht =>
    simp only [List.forall_mem_append] at hl
    exact iht hl.2 (ih hl.1)
  | call _ _ _ ih ihr =>
    simp only [List.forall_mem_append] at hl
    exact fun ha => ihr hl.2 ⟨trivial, ha, ih hl.1⟩
  | methodCall _ _ hm _ _ ih ihr =>
    simp only [List.forall_mem_append, List.forall_mem_cons] at hl
    exact fun ha => ihr hl.2.2.2 ⟨hl.2.1.isName hm, ha, ih hl.2.2.1⟩
  | member _ _ hm _ ihr =>
    simp only [List.forall_mem_cons] at hl
    exact fun ha => ihr hl.2.2 ⟨hl.2.1.isName hm, ha⟩
  | index _ _ _ _ _ ih ihr =>
    simp only [List.forall_mem_append, List.forall_mem_cons] at hl
    exact fun ha => ihr hl.2.2.2 ⟨trivial, ha, ih hl.2.1⟩
  | string ht => exact (hl _ List.mem_cons_self).isContent ht
  | number ht => exact (hl _ List.mem_cons_self).isNumber ht
  | identifier ht => exact (hl _ List.mem_cons_self).isName ht
  | parens _ _ _ _ ih =>
    simp only [List.forall_mem_append, List.forall_mem_cons] at hl
    exact ih hl.2.1
  | table _ _ _ _ ih =>
    simp only [List.forall_mem_append, List.forall_mem_cons] at hl
    exact ⟨trivial, ih hl.2.1⟩
  | function _ hp _ ih =>
    simp only [List.forall_mem_append, List.forall_mem_cons] at hl
    exact ⟨hp.isParams hl.2.1, trivial, ih hl.2.2⟩
  | one _ _ ih => exact ⟨ih hl, trivial⟩
  | cons _ _ _ ih ihr =>
    simp only [List.forall_mem_append, List.forall_mem_cons] at hl
    exact ⟨ih hl.1, ihr hl.2.2⟩
  | arguments _ _ _ _ ih =>
    simp only [List.forall_mem_append, List.forall_mem_cons] at hl
    exact ih hl.2.1
  | keyed _ _ _ _ _ ihk ih =>
    simp only [List.forall_mem_append, List.forall_mem_cons] at hl
    exact ⟨trivial, ihk hl.2.1, ih hl.2.2.2.2⟩
  | named ht _ _ ih =>
    simp only [List.forall_mem_cons] at hl
    exact ⟨hl.1.isName ht, ih hl.2.2⟩
  | positional _ _ _ ih => exact ⟨trivial, ih hl⟩
  | fieldsLast _ _ _ _ ih => exact ⟨ih hl, trivial⟩
  | fieldsCons _ _ _ _ ih ihr =>
    simp only [List.forall_mem_append, List.forall_mem_cons] at hl
    exact ⟨ih hl.1, ihr hl.2.2⟩
  | stmtsSkip _ _ _ _ ihr =>
    simp only [List.forall_mem_append] at hl
    exact ihr hl.2
  | stmtsCons _ _ _ ih ihr =>
    simp only [List.forall_mem_append] at hl
    exact ⟨ih hl.1 _ rfl, ihr hl.2⟩
  | block _ _ ih => exact ih hl
  | body _ _ ih =>
    simp only [List.forall_mem_append] at hl
    exact ih hl.1
  | skip => exact fun _ hs => nomatch hs
  | declare _ hm _ =>
    simp only [List.forall_mem_cons] at hl
    exact fun _ hs => Option.some.inj hs ▸ ⟨hl.2.1.isName hm, trivial⟩
  | declareAs _ hm _ _ ih =>
    simp only [List.forall_mem_cons] at hl
    exact fun _ hs => Option.some.inj hs ▸ ⟨hl.2.1.isName hm, ih hl.2.2.2⟩
  | localFunction _ _ hm hp _ ih =>
    simp only [List.forall_mem_append, List.forall_mem_cons] at hl
    have hname := hl.2.2.1.isName hm
    exact fun _ hs => Option.some.inj hs ▸ ⟨⟨.name hname, fun _ => hname, hp.isParams hl.2.2.2.1⟩, trivial,
      ih hl.2.2.2.2⟩
  | define _ hm hs hp _ ih =>
    simp only [List.forall_mem_append, List.forall_mem_cons] at hl
    have hpath := hs.isPath hl.2.2.1 (.name (hl.2.1.isName hm))
    exact fun _ hs => Option.some.inj hs ▸ ⟨⟨hpath, by simp, hp.isParams hl.2.2.2.1⟩, trivial, ih hl.2.2.2.2⟩
  | conditional _ _ ih =>
    simp only [List.forall_mem_cons] at hl
    exact fun _ hs => Option.some.inj hs ▸ ih hl.2
  | whileLoop _ _ _ _ ihc ih =>
    simp only [List.forall_mem_append, List.forall_mem_cons] at hl
    exact fun _ hs => Option.some.inj hs ▸ ⟨trivial, ihc hl.2.1, trivial, ih hl.2.2.2⟩
  | step _ _ ih =>
    simp only [List.forall_mem_cons] at hl
    exact ih hl.2
  | forLoop _ hm _ _ _ _ _ _ _ ihf ihl ihs ih =>
    simp only [List.forall_mem_append, List.forall_mem_cons] at hl
    exact fun _ hs => Option.some.inj hs ▸ ⟨hl.2.1.isName hm, ihf hl.2.2.2.1, ihl hl.2.2.2.2.2.1,
      ihs hl.2.2.2.2.2.2.1, trivial, ih hl.2.2.2.2.2.2.2.2⟩
  | forEach _ hm _ hn _ _ _ _ ihe ih =>
    simp only [List.forall_mem_append, List.forall_mem_cons] at hl
    have hnames := List.forall_mem_cons.mpr ⟨hl.2.1.isName hm, hn.isName hl.2.2.1⟩
    exact fun _ hs => Option.some.inj hs ▸ ⟨⟨List.cons_ne_nil _ _, hnames⟩, ihe hl.2.2.2.2.1, trivial,
      ih hl.2.2.2.2.2.2⟩
  | giveNothing => exact fun _ hs => Option.some.inj hs ▸ ⟨trivial, trivial⟩
  | giveBack _ _ _ _ ih =>
    simp only [List.forall_mem_append, List.forall_mem_cons] at hl
    exact fun _ hs => Option.some.inj hs ▸ ⟨trivial, ih hl.2.1⟩
  | leaveLoop => exact fun _ hs => Option.some.inj hs ▸ trivial
  | evaluate _ _ _ _ ih => exact fun _ hs => Option.some.inj hs ▸ ⟨trivial, ih hl⟩
  | assign _ _ _ _ ha _ iht ihv =>
    simp only [List.forall_mem_append, List.forall_mem_cons] at hl
    exact fun _ hs => Option.some.inj hs ▸ ⟨ha, iht hl.1, ihv hl.2.2⟩
  | tailElseif _ _ _ _ _ ihc ihb ihr =>
    simp only [List.forall_mem_append, List.forall_mem_cons] at hl
    exact ⟨trivial, ihc hl.1, ⟨trivial, ihb hl.2.2.1⟩, trivial, ihr hl.2.2.2.2, trivial⟩
  | tailElse _ _ _ _ _ ihc ihb ihr =>
    simp only [List.forall_mem_append, List.forall_mem_cons] at hl
    exact ⟨trivial, ihc hl.1, ⟨trivial, ihb hl.2.2.1⟩, trivial, ihr hl.2.2.2.2⟩
  | tailEnd _ _ _ _ _ _ ihc ihb =>
    simp only [List.forall_mem_append] at hl
    exact ⟨trivial, ihc hl.1, ⟨trivial, ihb hl.2.2.1⟩, trivial⟩

theorem Program.every_legible {s : String} {firstLine : Nat} {p : Program}
    (h : Program.parse (tokenize s firstLine) = .ok p) : Program.Every legible p := by
  obtain ⟨ts, line, column, hts, hlegible⟩ := tokenize_eq_append s firstLine
  obtain ⟨us, t, hbehind, -, hderives⟩ := Program.derives_of_parse h
  have hpending : (Cursor.ofTokens (tokenize s firstLine)).pending = ts := by
    simp [Cursor.ofTokens, hts, Token.isEof, Token.endOfInput]
  refine ⟨trivial, hderives.every_legible fun u hu => hlegible u ?_⟩
  rw [← hpending, hbehind.pending]
  exact List.mem_append_left _ hu

end ScriptGraph
