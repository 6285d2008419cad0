import ScriptGraph.Proofs.PrintedLexemes

namespace ScriptGraph

open Lexeme

section Equations

-- The equations of the mutual functions are derived here, once for all lemmas below.
attribute [local simp] Printer.expr Printer.exprs Printer.tableFields Printer.tableField Printer.block Printer.stmt
  Printer.actionText Printer.alternate Expr.lexemes Expr.lexemesAll TableField.lexemes TableField.lexemesAll
  Action.lexemes Action.alternateLexemes Stmt.lexemes Stmt.lexemesAll

end Equations

/-- An identifier: a word that is no keyword. -/
def IsName (s : String) : Prop := IsWord s.toList ∧ isKeyword s = false

/-- Names, of which the last may be an ellipsis. -/
def IsParams : List String → Prop
  | [] => True
  | [s] => IsName s ∨ s = "..."
  | s :: names => IsName s ∧ IsParams names

/-- The name of a defined function, and whether a colon makes it a method. -/
inductive IsPath : String → Bool → Prop
  | name {s : String} (h : IsName s) : IsPath s false
  | dot {p s : String} (hp : IsPath p false) (h : IsName s) : IsPath (p ++ "." ++ s) false
  | colon {p s : String} (hp : IsPath p false) (h : IsName s) : IsPath (p ++ ":" ++ s) true

/-- What holds of the names and literals in a program that was read from a text. A string may end in
a backslash only if the text ended there, too. -/
def printable : Rules where
  expr
    | .identifier s => IsName s
    | .string value quote => IsContent quote value.toList ∧ dangles value.toList = false
    | .number text => IsNumber text.toList
    | .methodCall _ method _ => IsName method
    | .member _ property => IsName property
    | .function names _ => IsParams names
    | _ => True
  field
    | .named s _ => IsName s
    | _ => True
  action
    | .declare s _ => IsName s
    | .assign target _ _ => target.isAssignable = true
    | .define s names _ isLocal isMethod =>
      IsPath s isMethod ∧ (isLocal = true → IsName s) ∧ IsParams names
    | .forLoop s .. => IsName s
    | .forEach names .. => names ≠ [] ∧ ∀ s ∈ names, IsName s
    | _ => True

namespace Lexeme

theorem isWord_of_isKeyword {s : String} (h : isKeyword s = true) : IsWord s.toList := by
  have hall : ∀ s ∈ keywords, ∃ c cs, s.toList = c :: cs ∧ isLetter c = true ∧ cs.all isWordChar = true := by
    intro s hs
    simp only [keywords, List.mem_cons, List.not_mem_nil, or_false] at hs
    rcases hs with rfl | rfl | rfl | rfl | rfl | rfl | rfl | rfl | rfl | rfl | rfl | rfl | rfl | rfl |
      rfl | rfl | rfl | rfl | rfl | rfl | rfl <;> exact ⟨_, _, rfl, rfl, rfl⟩
  exact hall s (by simpa [isKeyword] using h)

theorem whole_keyword {s : String} (h : isKeyword s = true) : (keyword s).Whole :=
  .keyword s (isWord_of_isKeyword h) h

theorem whole_name {s : String} (h : IsName s) : (name s).Whole := .name s h.1 h.2

instance (text : List Char) : Decidable (IsOperator text) :=
  decidable_of_iff (text ∈ longOperators ∨ shortOperators.any (text == [·]) = true) (by simp [IsOperator])

theorem whole_operator {s : String} (h : IsOperator s.toList) : (operator s).Whole := .operator s h

theorem whole_mark {s : String} (c : Char) (h : c ∈ marks ∧ s.toList = [c]) : (mark s).Whole :=
  .mark s c h.1 h.2

/-- Operators are made of these characters. -/
def operatorChars : List Char := ['.', '=', '~', '<', '>', '+', '-', '*', '/', '%', '^', '#']

/-- Does `next` end whatever lexeme comes before it? -/
def breaks (next : Option Char) : Bool :=
  next.all fun c => !isWordChar c && !operatorChars.contains c

/-- Does `next` end a word that comes before it? -/
def breaksWord (next : Option Char) : Bool := next.all (!isWordChar ·)

theorem breaksWord_of_breaks {next : Option Char} (h : breaks next = true) : breaksWord next = true := by
  cases next with
  | none => rfl
  | some c => simp_all [breaks, breaksWord]

theorem mem_operatorChars_of_longOperators {op : List Char} (h : op ∈ longOperators) :
    ∀ c ∈ op, c ∈ operatorChars := by
  simp only [longOperators, List.mem_cons, List.not_mem_nil, or_false] at h
  rcases h with rfl | rfl | rfl | rfl | rfl | rfl | rfl | rfl | rfl | rfl | rfl <;> simp [operatorChars]

theorem endsBefore_of_breaks {l : Lexeme} {next : Option Char} (h : breaks next = true) :
    l.endsBefore next = true := by
  cases next with
  | none => rfl
  | some c =>
    simp only [breaks, Option.all_some, Bool.and_eq_true, Bool.not_eq_eq_eq_not, Bool.not_true,
      List.contains_eq_mem, decide_eq_false_iff_not] at h
    obtain ⟨hw, ho⟩ := h
    have hne : ∀ d ∈ operatorChars, c ≠ d := fun d hd he => ho (he ▸ hd)
    have hdigit : isDigit c = false := by
      cases hd : isDigit c with
      | false => rfl
      | true => simp [isWordChar, hd] at hw
    simp only [endsBefore, Option.all_some]
    split
    · simp [hw]
    · simp [hw]
    · simp [hw, hne '.' (by decide), hne '+' (by decide), hne '-' (by decide)]
    · have hlong : (longOperators.any fun op => (l.text ++ [c]).isPrefixOf op) = false := by
        rw [List.any_eq_false]
        intro op hop hpre
        obtain ⟨rest, hrest⟩ := List.isPrefixOf_iff_prefix.mp hpre
        exact ho (mem_operatorChars_of_longOperators hop c (by simp [← hrest]))
      simp [hlong, hne '-' (by decide), hdigit]
    · rfl

theorem endsBefore_keyword {s : String} {next : Option Char} (h : breaksWord next = true) :
    (keyword s).endsBefore next = true := h

theorem endsBefore_name {s : String} {next : Option Char} (h : breaksWord next = true) :
    (name s).endsBefore next = true := h

theorem endsBefore_mark {s : String} {next : Option Char} : (mark s).endsBefore next = true := by
  cases next <;> rfl

theorem endsBefore_literal {v : String} {q : Char} {next : Option Char} :
    (literal v q).endsBefore next = true := by
  cases next <;> rfl

end Lexeme

namespace Spells

variable {next : Option Char} {bs : List Char} {ms : List Lexeme}

theorem space (hb : Spells bs ms next) : Spells (' ' :: bs) ms next :=
  blanks_append (by decide : [' '].all Text.isBlank = true) hb

theorem keyword (s : String) (hs : isKeyword s = true) (hn : breaksWord (bs.head?.or next) = true)
    (hb : Spells bs ms next) : Spells (s.toList ++ bs) (.keyword s :: ms) next :=
  lexeme_append (whole_keyword hs) (endsBefore_keyword hn) hb

theorem name {s : String} (hs : IsName s) (hn : breaksWord (bs.head?.or next) = true)
    (hb : Spells bs ms next) : Spells (s.toList ++ bs) (.name s :: ms) next :=
  lexeme_append (whole_name hs) (endsBefore_name hn) hb

theorem mark (s : String) (c : Char) (hs : c ∈ marks ∧ s.toList = [c]) (hb : Spells bs ms next) :
    Spells (c :: bs) (.mark s :: ms) next := by
  have h := lexeme_append (whole_mark c hs) endsBefore_mark hb
  have hsource : (Lexeme.mark s).source = [c] := hs.2
  rwa [hsource] at h

theorem operator (s : String) (hs : IsOperator s.toList)
    (hn : (Lexeme.operator s).endsBefore (bs.head?.or next) = true) (hb : Spells bs ms next) :
    Spells (s.toList ++ bs) (.operator s :: ms) next :=
  lexeme_append (whole_operator hs) hn hb

theorem keywordSpace (s : String) (hs : isKeyword s = true) (hb : Spells bs ms next) :
    Spells (s.toList ++ ' ' :: bs) (.keyword s :: ms) next :=
  keyword s hs rfl hb.space

theorem operatorSpace (s : String) (hs : IsOperator s.toList) (hb : Spells bs ms next) :
    Spells (s.toList ++ ' ' :: bs) (.operator s :: ms) next :=
  operator s hs (endsBefore_of_breaks rfl) hb.space

end Spells

theorem Lexeme.endsBefore_dot {c : Char} (h : isLetter c = true) :
    (operator ".").endsBefore (some c) = true := by
  have hdot : '.' ≠ c := by intro he; subst he; exact absurd h (by decide)
  have hdigit : isDigit c = false := by
    cases hd : isDigit c with
    | false => rfl
    | true => simp [isLetter_eq_false_of_isDigit hd] at h
  simp [endsBefore, operator, verbatim, longOperators, List.isPrefixOf, hdot.symm, hdigit]

theorem IsName.spells {s : String} (h : IsName s) {next : Option Char} (hn : breaksWord next = true) :
    Spells s.toList [.name s] next := by
  simpa using Spells.name h (by simpa using hn) (@Spells.nil next)

theorem Spells.dot {p s : String} {ls : List Lexeme} {next : Option Char}
    (hp : Spells p.toList ls (some '.')) (h : IsName s) (hn : breaksWord next = true) :
    Spells (p ++ "." ++ s).toList (ls ++ [.operator ".", .name s]) next := by
  obtain ⟨c, cs, hs, hc, -⟩ := h.1
  have he : (Lexeme.operator ".").endsBefore (s.toList.head?.or next) = true := by
    rw [hs]
    exact endsBefore_dot hc
  have hdot := Spells.operator "." (by decide) he (h.spells hn)
  simpa using Spells.append hp hdot

theorem Spells.colon {p s : String} {ls : List Lexeme} {next : Option Char}
    (hp : Spells p.toList ls (some ':')) (h : IsName s) (hn : breaksWord next = true) :
    Spells (p ++ ":" ++ s).toList (ls ++ [.mark ":", .name s]) next := by
  simpa using Spells.append hp (Spells.mark ":" ':' (by decide) (h.spells hn))

theorem IsPath.exists_spells {s : String} {isMethod : Bool} (h : IsPath s isMethod) :
    ∃ ls, ∀ next, breaksWord next = true → Spells s.toList ls next := by
  induction h with
  | name h => exact ⟨_, fun next hn => h.spells hn⟩
  | dot hp h ih =>
    obtain ⟨ls, hls⟩ := ih
    exact ⟨_, fun next hn => (hls (some '.') rfl).dot h hn⟩
  | colon hp h ih =>
    obtain ⟨ls, hls⟩ := ih
    exact ⟨_, fun next hn => (hls (some ':') rfl).colon h hn⟩

theorem IsPath.spells {s : String} {isMethod : Bool} (h : IsPath s isMethod) {next : Option Char}
    (hn : breaksWord next = true) : Spells s.toList (path s) next := by
  obtain ⟨ls, hls⟩ := h.exists_spells
  have hpath : path s = ls := (hls none rfl).lexemesOf_pieces
  rw [hpath]
  exact hls next hn

theorem IsName.path_eq {s : String} (h : IsName s) : path s = [.name s] :=
  Spells.lexemesOf_pieces (h.spells rfl)

theorem IsPath.path_dot {p s : String} (hp : IsPath p false) (h : IsName s) :
    path (p ++ "." ++ s) = path p ++ [.operator ".", .name s] :=
  ((hp.spells rfl).dot h rfl).lexemesOf_pieces

theorem IsPath.path_colon {p s : String} (hp : IsPath p false) (h : IsName s) :
    path (p ++ ":" ++ s) = path p ++ [.mark ":", .name s] :=
  ((hp.spells rfl).colon h rfl).lexemesOf_pieces

theorem Lexeme.commas_cons_cons (ls ms : List Lexeme) (more : List (List Lexeme)) :
    commas (ls :: ms :: more) = ls ++ mark "," :: commas (ms :: more) := rfl

theorem Spells.commas {α : Type} {as : List α} {text : α → String} {lexemes : α → List Lexeme}
    {next : Option Char} (hn : breaks next = true)
    (h : ∀ a ∈ as, ∀ next, breaks next = true → Spells (text a).toList (lexemes a) next) :
    Spells (", ".intercalate (as.map text)).toList (commas (as.map lexemes)) next := by
  induction as with
  | nil => exact Spells.nil
  | cons a as ih =>
    cases as with
    | nil => exact h a (by simp) next hn
    | cons b bs =>
      have ha := h a (by simp) (some ',') rfl
      have hrest := ih fun c hc => h c (by simp [hc])
      have hall := Spells.append ha (Spells.mark "," ',' (by decide) hrest.space)
      simp only [List.map_cons] at hall ⊢
      rw [commas_cons_cons, String.intercalate_cons_cons, String.append_assoc, String.toList_append,
        String.toList_append]
      exact hall

theorem IsParams.isName_or {names : List String} (h : IsParams names) :
    ∀ s ∈ names, IsName s ∨ s = "..." := by
  induction names with
  | nil => simp
  | cons s names ih =>
    cases names with
    | nil => exact List.forall_mem_singleton.mpr h
    | cons t names =>
      obtain ⟨h1, h2⟩ := h
      exact List.forall_mem_cons.mpr ⟨.inl h1, ih h2⟩

theorem IsName.ne_ellipsis {s : String} (h : IsName s) : s ≠ "..." := by
  intro he
  obtain ⟨c, cs, hs, hc, -⟩ := h.1
  rw [he] at hs
  have : c = '.' := (List.cons.inj hs).1.symm
  subst this
  exact absurd hc (by decide)

theorem spells_param {s : String} (h : IsName s ∨ s = "...") {next : Option Char}
    (hn : breaks next = true) : Spells s.toList [param s] next := by
  rcases h with h | h
  · rw [param, if_neg h.ne_ellipsis]
    exact h.spells (breaksWord_of_breaks hn)
  · subst h
    have := Spells.operator "..." (by decide) (endsBefore_of_breaks (by simpa using hn)) (@Spells.nil next)
    simpa [param] using this

theorem Printer.toList_params (names : List String) :
    (Printer.params names).toList = '(' :: ((", ".intercalate names).toList ++ [')']) := by
  rw [Printer.params, String.toList_append, String.toList_append]
  rfl

theorem IsParams.spells {names : List String} (h : IsParams names) {next : Option Char} :
    Spells ('(' :: ((", ".intercalate names).toList ++ [')'])) (Lexeme.params names) next := by
  have hnames : Spells (", ".intercalate (names.map id)).toList
      (Lexeme.commas (names.map fun s => [param s])) (some ')') :=
    Spells.commas rfl fun s hs next hn => spells_param (h.isName_or s hs) hn
  rw [List.map_id] at hnames
  exact Spells.mark "(" '(' (by decide) (hnames.append (Spells.mark ")" ')' (by decide) Spells.nil))

theorem Spells.enclosed {p : Bool} {s : String} {ls : List Lexeme} {next : Option Char}
    (hin : Spells s.toList ls (some ')')) (hout : p = false → Spells s.toList ls next) :
    Spells (Printer.parens p s).toList (enclosed p ls) next := by
  cases p with
  | false => simpa [Printer.parens, Lexeme.enclosed] using hout rfl
  | true =>
    have := Spells.mark "(" '(' (by decide) (hin.append (Spells.mark ")" ')' (by decide) (@Spells.nil next)))
    rw [Printer.parens, if_pos rfl, String.toList_append, String.toList_append]
    exact this

theorem whole_binaryOp (op : BinaryOp) : op.lexeme.Whole ∧ op.lexeme.source = op.symbol.toList := by
  cases op
  case or => exact ⟨whole_keyword rfl, rfl⟩
  case and => exact ⟨whole_keyword rfl, rfl⟩
  all_goals exact ⟨whole_operator (by decide), rfl⟩

theorem isOperator_assignOp (op : AssignOp) : IsOperator op.symbol.toList := by
  cases op <;> decide

theorem Printer.exprs_eq (unit : String) (level : Nat) (es : List Expr) :
    Printer.exprs unit level es = ", ".intercalate (es.map (Printer.expr unit level)) := by
  induction es with
  | nil => simp [Printer.exprs]
  | cons e es ih =>
    cases es with
    | nil => simp [Printer.exprs]
    | cons f fs =>
      rw [Printer.exprs, ih, List.map_cons, List.map_cons, List.map_cons, String.intercalate_cons_cons]
      simp

theorem Printer.tableFields_eq (unit : String) (level : Nat) (fs : List TableField) :
    Printer.tableFields unit level fs = ", ".intercalate (fs.map (Printer.tableField unit level)) := by
  induction fs with
  | nil => simp [Printer.tableFields]
  | cons e es ih =>
    cases es with
    | nil => simp [Printer.tableFields]
    | cons f fs =>
      rw [Printer.tableFields, ih, List.map_cons, List.map_cons, List.map_cons,
        String.intercalate_cons_cons]
      simp

theorem Text.isBlankText_repeated {unit : String} (hu : Text.isBlankText unit = true) (n : Nat) :
    Text.isBlankText (Text.repeated unit n) = true := by
  induction n with
  | zero => rfl
  | succ n ih =>
    simp only [Text.isBlankText, Text.repeated, String.toList_append, List.all_append] at hu ih ⊢
    rw [hu, ih, Bool.and_self]

theorem Printer.isBlankText_lineBreak {unit : String} (hu : Text.isBlankText unit = true) (n : Nat) :
    Text.isBlankText (Printer.lineBreak unit n) = true := by
  have h := Text.isBlankText_repeated hu n
  simp only [Text.isBlankText, Printer.lineBreak, String.toList_append, List.all_append] at h ⊢
  rw [h]
  rfl

/-- The text starts with a character other than an equals sign. -/
def StartsClear (s : String) : Prop := ∃ c, s.toList.head? = some c ∧ c ≠ '='

theorem StartsClear.append {s : String} (h : StartsClear s) (t : String) : StartsClear (s ++ t) := by
  obtain ⟨c, hs, hc⟩ := h
  refine ⟨c, ?_, hc⟩
  rw [String.toList_append, List.head?_append, hs, Option.some_or]

theorem StartsClear.parens {s : String} (h : StartsClear s) (p : Bool) :
    StartsClear (Printer.parens p s) := by
  cases p with
  | false => exact h
  | true => exact ⟨'(', by simp [Printer.parens], by decide⟩

theorem IsName.startsClear {s : String} (h : IsName s) : StartsClear s := by
  obtain ⟨c, cs, hs, hc, -⟩ := h.1
  refine ⟨c, congrArg List.head? hs, ?_⟩
  intro he
  subst he
  exact absurd hc (by decide)

/-- How the text of an expression spells its lexemes: an expression must not run into what comes
next, a bare prefix only must not run into a word. -/
structure Expr.IsSpelled (unit : String) (e : Expr) : Prop where
  spells : ∀ level next, breaks next = true → Spells (Printer.expr unit level e).toList e.lexemes next
  bare : e.isBarePrefix = true → ∀ level next, breaksWord next = true →
    Spells (Printer.expr unit level e).toList e.lexemes next
  startsClear : ∀ level, StartsClear (Printer.expr unit level e)

def TableField.IsSpelled (unit : String) (f : TableField) : Prop :=
  ∀ level next, breaks next = true → Spells (Printer.tableField unit level f).toList f.lexemes next

def Stmt.IsSpelled (unit : String) (s : Stmt) : Prop :=
  ∀ level next, breaks next = true → Spells (Printer.stmt unit level s).toList s.lexemes next

theorem Expr.IsSpelled.ofBare {unit : String} {e : Expr}
    (h : ∀ level next, breaksWord next = true → Spells (Printer.expr unit level e).toList e.lexemes next)
    (hc : ∀ level, StartsClear (Printer.expr unit level e)) : e.IsSpelled unit :=
  ⟨fun level next hn => h level next (breaksWord_of_breaks hn), fun _ => h, hc⟩

/-- A callee or object, in parentheses unless it can do without. -/
theorem Expr.IsSpelled.callee {unit : String} {e : Expr} (h : e.IsSpelled unit) (level : Nat)
    {next : Option Char} (hn : breaksWord next = true) :
    Spells (Printer.parens (!e.isBarePrefix) (Printer.expr unit level e)).toList
      (enclosed (!e.isBarePrefix) e.lexemes) next :=
  Spells.enclosed (h.spells level _ rfl) fun hb => h.bare (by simpa using hb) level next hn

theorem Expr.IsSpelled.operand {unit : String} {e : Expr} (h : e.IsSpelled unit) (p : Bool) (level : Nat)
    {next : Option Char} (hn : breaks next = true) :
    Spells (Printer.parens p (Printer.expr unit level e)).toList (enclosed p e.lexemes) next :=
  Spells.enclosed (h.spells level _ rfl) fun _ => h.spells level next hn

theorem spells_arguments {unit : String} {args : List Expr} (h : ∀ e ∈ args, e.IsSpelled unit) (level : Nat)
    (next : Option Char) :
    Spells ('(' :: ((Printer.exprs unit level args).toList ++ [')']))
      (.mark "(" :: (commas (Expr.lexemesAll args) ++ [.mark ")"])) next := by
  have hargs : Spells (Printer.exprs unit level args).toList (commas (Expr.lexemesAll args)) (some ')') := by
    rw [Printer.exprs_eq, Expr.lexemesAll_eq]
    exact Spells.commas rfl fun e he next hn => (h e he).spells level next hn
  exact Spells.mark "(" '(' (by decide) (hargs.append (Spells.mark ")" ')' (by decide) Spells.nil))

theorem spells_block {unit : String} (hu : Text.isBlankText unit = true) {ss : List Stmt}
    (h : ∀ s ∈ ss, s.IsSpelled unit) (level : Nat) {next : Option Char} :
    Spells (Printer.block unit level ss).toList (Stmt.lexemesAll ss) next := by
  induction ss with
  | nil => exact Spells.blanks (Printer.isBlankText_lineBreak hu level)
  | cons s ss ih =>
    have hrest := ih fun s hs => h s (by simp [hs])
    -- every block ends with a line break, so it starts with one, too
    have hbreak : ((Printer.block unit level ss).toList.head?.or next) = some '\n' := by
      cases ss <;> simp [Printer.block, Printer.lineBreak]
    have hfirst := h s List.mem_cons_self (level + 1) (some '\n') rfl
    rw [← hbreak] at hfirst
    rw [Printer.block, Stmt.lexemesAll, String.append_assoc, String.toList_append, String.toList_append]
    exact Spells.blanks_append (Printer.isBlankText_lineBreak hu (level + 1)) (hfirst.append hrest)

theorem spells_body {unit : String} (hu : Text.isBlankText unit = true) {ss : List Stmt}
    (h : ∀ s ∈ ss, s.IsSpelled unit) (level : Nat) {next : Option Char} (hn : breaks next = true) :
    Spells (Printer.block unit level ss ++ "end").toList (Stmt.lexemesAll ss ++ [.keyword "end"]) next := by
  have hend := Spells.keyword "end" rfl (by simpa using breaksWord_of_breaks hn) (@Spells.nil next)
  rw [String.toList_append]
  simpa using (spells_block hu h level).append hend

namespace Expr.IsSpelled

variable {unit : String}

theorem lexeme {e : Expr} {l : Lexeme} (hl : l.Whole)
    (htext : ∀ level, (Printer.expr unit level e).toList = l.source) (hls : e.lexemes = [l])
    (hb : e.isBarePrefix = false) (hs : l.source.head? ≠ some '=') : e.IsSpelled unit where
  spells level next hn := by
    rw [htext, hls]
    exact Spells.lexeme hl (endsBefore_of_breaks hn)
  bare h := by rw [hb] at h; cases h
  startsClear level := by
    obtain ⟨c, cs, hc⟩ := List.exists_cons_of_ne_nil (source_ne_nil_of_whole hl)
    refine ⟨c, congrArg List.head? ((htext level).trans hc), ?_⟩
    intro he
    exact hs (by rw [hc, he]; rfl)

theorem identifier {s : String} (h : IsName s) : (Expr.identifier s).IsSpelled unit :=
  ofBare (fun _ _ hn => h.spells hn) fun _ => h.startsClear

theorem string {value : String} {quote : Char} (h : IsContent quote value.toList)
    (hd : dangles value.toList = false) : (Expr.string value quote).IsSpelled unit := by
  refine lexeme (.literal value quote h hd) ?_ rfl rfl ?_
  · intro level
    simp [Printer.expr, literal]
  · intro he
    have hquote : quote = '=' := Option.some.inj he
    rcases h.1 with hq | hq <;> exact absurd (hquote.symm.trans hq) (by decide)

theorem number {text : String} (h : IsNumber text.toList) : (Expr.number text).IsSpelled unit := by
  refine lexeme (.numeral text h) (fun _ => rfl) rfl rfl ?_
  intro he
  obtain ⟨-, d, ds, hd, hfirst⟩ := h
  have : d = '=' := Option.some.inj ((congrArg List.head? hd).symm.trans he)
  subst this
  exact absurd hfirst (by simp [isDigit])

theorem keyword {e : Expr} {s : String} (hk : isKeyword s = true)
    (htext : ∀ level, Printer.expr unit level e = s) (hls : e.lexemes = [.keyword s])
    (hb : e.isBarePrefix = false) (hs : s.toList.head? ≠ some '=') : e.IsSpelled unit :=
  lexeme (whole_keyword hk) (fun level => congrArg String.toList (htext level)) hls hb hs

theorem vararg : Expr.vararg.IsSpelled unit :=
  lexeme (whole_operator (s := "...") (by decide)) (fun _ => rfl) rfl rfl (by decide)

theorem binary {op : BinaryOp} {left right : Expr} (hl : left.IsSpelled unit) (hr : right.IsSpelled unit) :
    (Expr.binary op left right).IsSpelled unit where
  spells level next hn := by
    obtain ⟨hop, hsource⟩ := whole_binaryOp op
    have hright := hr.operand (right.precedence < (Printer.operandBounds op).2) level hn
    have hrest := Spells.lexeme_append hop (endsBefore_of_breaks rfl) hright.space
    have hspace : breaks (some ' ') = true := rfl
    have hleft := hl.operand (left.precedence < (Printer.operandBounds op).1) level hspace
    have := hleft.append hrest.space
    simpa [Printer.expr, Expr.lexemes, hsource] using this
  bare h := by cases h
  startsClear level := by
    have := (hl.startsClear level).parens (left.precedence < (Printer.operandBounds op).1)
    simp only [Printer.expr, String.append_assoc]
    exact this.append _

theorem unary {op : UnaryOp} {operand : Expr} (h : operand.IsSpelled unit) :
    (Expr.unary op operand).IsSpelled unit where
  spells level next hn := by
    have hin := h.operand (operand.precedence < UnaryOp.precedence) level hn
    obtain ⟨c, hc, hne⟩ := (h.startsClear level).parens (operand.precedence < UnaryOp.precedence)
    have hlen : (operator "#").endsBefore (some c) = true := by
      simp [endsBefore, operator, verbatim, longOperators, List.isPrefixOf]
    have hneg : c ≠ '-' → (operator "-").endsBefore (some c) = true := by
      intro hm
      simp [endsBefore, operator, verbatim, longOperators, List.isPrefixOf, hm, hne]
    cases op with
    | not =>
      simpa [Printer.expr, Printer.unaryText, Expr.lexemes, UnaryOp.lexeme] using
        Spells.keywordSpace "not" rfl hin
    | neg =>
      simp only [Printer.expr, Printer.unaryText, Expr.lexemes, UnaryOp.lexeme, UnaryOp.symbol, hc]
      split
      · simpa using Spells.operatorSpace "-" (by decide) hin
      · rename_i hminus
        have hend := hneg (by simpa using hminus)
        rw [String.toList_append]
        exact Spells.operator "-" (by decide) (by rwa [hc]) hin
    | len =>
      simp only [Printer.expr, Printer.unaryText, Expr.lexemes, UnaryOp.lexeme, UnaryOp.symbol]
      rw [String.toList_append]
      exact Spells.operator "#" (by decide) (by rw [hc]; exact hlen) hin
  bare h := by cases h
  startsClear level := by
    have hnot : StartsClear "not " := ⟨'n', rfl, by decide⟩
    have hminus : StartsClear "- " ∧ StartsClear "-" := ⟨⟨'-', rfl, by decide⟩, ⟨'-', rfl, by decide⟩⟩
    have hlen : StartsClear "#" := ⟨'#', rfl, by decide⟩
    cases op with
    | not => exact hnot.append _
    | neg =>
      simp only [Printer.expr, Printer.unaryText]
      split
      · exact hminus.1.append _
      · exact hminus.2.append _
    | len => exact hlen.append _

theorem call {callee : Expr} {args : List Expr} (hc : callee.IsSpelled unit)
    (ha : ∀ e ∈ args, e.IsSpelled unit) : (Expr.call callee args).IsSpelled unit := by
  refine ofBare (fun level next _ => ?_) fun level => ?_
  · have hparen : breaksWord (some '(') = true := rfl
    have := (hc.callee level hparen).append (spells_arguments ha level next)
    simpa [Printer.expr, Expr.lexemes] using this
  · simp only [Printer.expr, String.append_assoc]
    exact ((hc.startsClear level).parens _).append _

theorem methodCall {object : Expr} {method : String} {args : List Expr} (ho : object.IsSpelled unit)
    (hm : IsName method) (ha : ∀ e ∈ args, e.IsSpelled unit) :
    (Expr.methodCall object method args).IsSpelled unit := by
  refine ofBare (fun level next _ => ?_) fun level => ?_
  · have hcolon : breaksWord (some ':') = true := rfl
    have hrest := Spells.mark ":" ':' (by decide)
      (Spells.name hm rfl (spells_arguments ha level next))
    have := (ho.callee level hcolon).append hrest
    simpa [Printer.expr, Expr.lexemes] using this
  · simp only [Printer.expr, String.append_assoc]
    exact ((ho.startsClear level).parens _).append _

theorem member {object : Expr} {property : String} (ho : object.IsSpelled unit) (hp : IsName property) :
    (Expr.member object property).IsSpelled unit := by
  refine ofBare (fun level next hn => ?_) fun level => ?_
  · have hdot : breaksWord (some '.') = true := rfl
    exact (ho.callee level hdot).dot hp hn
  · simp only [Printer.expr, String.append_assoc]
    exact ((ho.startsClear level).parens _).append _

theorem index {object key : Expr} (ho : object.IsSpelled unit) (hk : key.IsSpelled unit) :
    (Expr.index object key).IsSpelled unit := by
  refine ofBare (fun level next hn => ?_) fun level => ?_
  · have hbracket : breaksWord (some '[') = true := rfl
    have hclose := Spells.mark "]" ']' (by decide) (@Spells.nil next)
    have hrest := Spells.mark "[" '[' (by decide) ((hk.spells level (some ']') rfl).append hclose)
    have := (ho.callee level hbracket).append hrest
    simpa [Printer.expr, Expr.lexemes] using this
  · simp only [Printer.expr, String.append_assoc]
    exact ((ho.startsClear level).parens _).append _

theorem table {fields : List TableField}
    (h : ∀ f ∈ fields, f.IsSpelled unit) :
    (Expr.table fields).IsSpelled unit where
  spells level next _ := by
    have hfields : Spells (Printer.tableFields unit level fields).toList
        (commas (TableField.lexemesAll fields)) (some '}') := by
      rw [Printer.tableFields_eq, TableField.lexemesAll_eq]
      exact Spells.commas rfl fun f hf next hn => h f hf level next hn
    have hclose := Spells.mark "\x7d" '}' (by decide) (@Spells.nil next)
    have := Spells.mark "\x7b" '{' (by decide) (hfields.append hclose)
    simpa [Printer.expr, Expr.lexemes] using this
  bare h := by cases h
  startsClear level := by
    simp only [Printer.expr, String.append_assoc]
    have hopen : StartsClear "\x7b" := ⟨'{', rfl, by decide⟩
    exact hopen.append _

theorem function (hu : Text.isBlankText unit = true) {names : List String} {body : List Stmt}
    (hp : IsParams names) (h : ∀ s ∈ body, s.IsSpelled unit) :
    (Expr.function names body).IsSpelled unit where
  spells level next hn := by
    cases body with
    | nil =>
      have hend := Spells.keyword "end" rfl (by simpa using breaksWord_of_breaks hn) (@Spells.nil next)
      have := Spells.keyword "function" rfl rfl (hp.spells.append hend.space)
      simpa [Printer.expr, Printer.toList_params, Expr.lexemes, Stmt.lexemesAll] using this
    | cons s ss =>
      have := Spells.keyword "function" rfl rfl (hp.spells.append (spells_body hu h level hn))
      simpa [Printer.expr, Printer.toList_params, Expr.lexemes] using this
  bare h := by cases h
  startsClear level := by
    have hopen : StartsClear "function" := ⟨'f', rfl, by decide⟩
    cases body with
    | nil =>
      simp only [Printer.expr, String.append_assoc]
      exact hopen.append _
    | cons s ss =>
      simp only [Printer.expr, String.append_assoc]
      exact hopen.append _

end Expr.IsSpelled

namespace Action

variable {unit : String}

/-- What a conditional spells behind its `if` or `elseif`. -/
def TailSpelled (unit : String) (condition : Expr) (consequent : List Stmt) (rest : Option (List Stmt)) :
    Prop :=
  ∀ level next, breaks next = true →
    Spells (' ' :: ((Printer.expr unit level condition).toList ++ ' ' :: ("then".toList ++
        ((Printer.block unit level consequent).toList ++ (Printer.alternate unit level rest).toList))))
      (condition.lexemes ++ .keyword "then" :: (Stmt.lexemesAll consequent ++ alternateLexemes rest)) next

/-- The action as a statement, and if it is a conditional, also as the tail of another. -/
def IsSpelled (unit : String) (a : Action) : Prop :=
  (∀ line, (Stmt.mk line a).IsSpelled unit) ∧
    match a with
    | .conditional condition consequent rest => TailSpelled unit condition consequent rest
    | _ => True

theorem IsSpelled.stmt {s : Stmt} (h : s.action.IsSpelled unit) : s.IsSpelled unit := by
  cases s with
  | mk line action => exact h.1 line

theorem spells_else (hu : Text.isBlankText unit = true) {body : List Stmt}
    (h : ∀ s ∈ body, s.IsSpelled unit) (level : Nat) {next : Option Char} (hn : breaks next = true) :
    Spells ("else" ++ Printer.block unit level body ++ "end").toList
      (.keyword "else" :: (Stmt.lexemesAll body ++ [.keyword "end"])) next := by
  have hbreak : breaksWord ((Printer.block unit level body ++ "end").toList.head?.or next) = true := by
    cases body <;> simp [Printer.block, Printer.lineBreak] <;> decide
  have := Spells.keyword "else" rfl hbreak (spells_body hu h level hn)
  simpa using this

theorem spells_alternate (hu : Text.isBlankText unit = true) {rest : Option (List Stmt)}
    (h : ∀ body ∈ rest, ∀ s ∈ body, s.action.IsSpelled unit) (level : Nat) {next : Option Char}
    (hn : breaks next = true) :
    Spells (Printer.alternate unit level rest).toList (alternateLexemes rest) next := by
  have hend := Spells.keyword "end" rfl (by simpa using breaksWord_of_breaks hn) (@Spells.nil next)
  unfold Printer.alternate
  split
  · simpa [alternateLexemes] using hend
  · rename_i line condition consequent rest
    have htail := (h _ rfl _ List.mem_cons_self).2 level next hn
    have := Spells.keyword "elseif" rfl rfl htail
    simpa [alternateLexemes] using this
  · rename_i body hne
    have hls : alternateLexemes (some body) =
        .keyword "else" :: (Stmt.lexemesAll body ++ [.keyword "end"]) := by
      unfold alternateLexemes
      split
      · rename_i heq; cases heq
      · rename_i heq; exact absurd (Option.some.inj heq) (hne _ _ _ _)
      · rename_i heq; cases heq; rfl
    rw [hls]
    exact spells_else hu (fun s hs => (h body rfl s hs).stmt) level hn

theorem IsSpelled.conditional (hu : Text.isBlankText unit = true) {condition : Expr}
    {consequent : List Stmt} {rest : Option (List Stmt)} (hc : condition.IsSpelled unit)
    (ht : ∀ s ∈ consequent, s.IsSpelled unit) (hr : ∀ body ∈ rest, ∀ s ∈ body, s.action.IsSpelled unit) :
    (Action.conditional condition consequent rest).IsSpelled unit := by
  have htail : TailSpelled unit condition consequent rest := by
    intro level next hn
    have hblock := (spells_block hu ht level).append (spells_alternate hu hr level hn)
    have hbreak : breaksWord (((Printer.block unit level consequent).toList ++
        (Printer.alternate unit level rest).toList).head?.or next) = true := by
      cases consequent <;> simp [Printer.block, Printer.lineBreak] <;> decide
    have hthen := Spells.keyword "then" rfl hbreak hblock
    exact ((hc.spells level (some ' ') rfl).append hthen.space).space
  refine ⟨fun line level next hn => ?_, htail⟩
  have := Spells.keyword "if" rfl rfl (htail level next hn)
  simpa [Printer.stmt, Printer.actionText.eq_def, Stmt.lexemes, Action.lexemes] using this

theorem IsSpelled.declare {s : String} {value : Option Expr} (h : IsName s)
    (hv : ∀ e ∈ value, e.IsSpelled unit) : (Action.declare s value).IsSpelled unit := by
  refine ⟨fun line level next hn => ?_, trivial⟩
  cases value with
  | none =>
    have := Spells.keywordSpace "local" rfl (h.spells (breaksWord_of_breaks hn))
    simpa [Printer.stmt, Printer.actionText.eq_def, Stmt.lexemes, Action.lexemes] using this
  | some e =>
    have hequals := Spells.operatorSpace "=" (by decide) ((hv e rfl).spells level next hn)
    have := Spells.keywordSpace "local" rfl (Spells.name h rfl hequals.space)
    simpa [Printer.stmt, Printer.actionText.eq_def, Stmt.lexemes, Action.lexemes] using this

theorem IsSpelled.assign {target value : Expr} {op : AssignOp} (ht : target.IsSpelled unit)
    (hv : value.IsSpelled unit) : (Action.assign target op value).IsSpelled unit := by
  refine ⟨fun line level next hn => ?_, trivial⟩
  have hequals := Spells.operatorSpace op.symbol (isOperator_assignOp op) (hv.spells level next hn)
  have := (ht.spells level (some ' ') rfl).append hequals.space
  simpa [Printer.stmt, Printer.actionText.eq_def, Stmt.lexemes, Action.lexemes] using this

theorem IsSpelled.define (hu : Text.isBlankText unit = true) {s : String} {names : List String}
    {body : List Stmt} {isLocal isMethod : Bool} (hs : IsPath s isMethod) (hp : IsParams names)
    (hb : ∀ s ∈ body, s.IsSpelled unit) : (Action.define s names body isLocal isMethod).IsSpelled unit := by
  refine ⟨fun line level next hn => ?_, trivial⟩
  have hparams := hp.spells.append (spells_body hu hb level hn)
  have hparen : breaksWord (some '(') = true := rfl
  have hpath := (hs.spells hparen).append hparams
  have hfunction := Spells.keywordSpace "function" rfl hpath
  cases isLocal with
  | false =>
    simpa [Printer.stmt, Printer.actionText.eq_def, Printer.toList_params, Stmt.lexemes, Action.lexemes] using
      hfunction
  | true =>
    simpa [Printer.stmt, Printer.actionText.eq_def, Printer.toList_params, Stmt.lexemes, Action.lexemes] using
      Spells.keywordSpace "local" rfl hfunction

theorem spells_do (hu : Text.isBlankText unit = true) {body : List Stmt}
    (hb : ∀ s ∈ body, s.IsSpelled unit) (level : Nat) {next : Option Char} (hn : breaks next = true) :
    Spells (' ' :: 'd' :: 'o' :: ((Printer.block unit level body).toList ++ ['e', 'n', 'd']))
      (.keyword "do" :: (Stmt.lexemesAll body ++ [.keyword "end"])) next := by
  have hbreak : breaksWord ((Printer.block unit level body ++ "end").toList.head?.or next) = true := by
    cases body <;> simp [Printer.block, Printer.lineBreak] <;> decide
  have := Spells.keyword "do" rfl hbreak (spells_body hu hb level hn)
  simpa using this.space

theorem IsSpelled.whileLoop (hu : Text.isBlankText unit = true) {condition : Expr} {body : List Stmt}
    (hc : condition.IsSpelled unit) (hb : ∀ s ∈ body, s.IsSpelled unit) :
    (Action.whileLoop condition body).IsSpelled unit := by
  refine ⟨fun line level next hn => ?_, trivial⟩
  have := Spells.keywordSpace "while" rfl
    ((hc.spells level (some ' ') rfl).append (spells_do hu hb level hn))
  simpa [Printer.stmt, Printer.actionText.eq_def, Stmt.lexemes, Action.lexemes] using this

theorem IsSpelled.forLoop (hu : Text.isBlankText unit = true) {counter : String} {first last : Expr}
    {step : Option Expr} {body : List Stmt} (hs : IsName counter) (hf : first.IsSpelled unit)
    (hl : last.IsSpelled unit) (ht : ∀ e ∈ step, e.IsSpelled unit) (hb : ∀ s ∈ body, s.IsSpelled unit) :
    (Action.forLoop counter first last step body).IsSpelled unit := by
  refine ⟨fun line level next hn => ?_, trivial⟩
  have hdo := spells_do hu hb level hn
  have hopen {bs : List Char} {ms : List Lexeme} (h : Spells bs ms next) :=
    Spells.keywordSpace "for" rfl (Spells.name hs rfl (Spells.operatorSpace "=" (by decide)
      ((hf.spells level (some ',') rfl).append (Spells.mark "," ',' (by decide) h.space))).space)
  cases step with
  | none =>
    simpa [Printer.stmt, Printer.actionText.eq_def, Stmt.lexemes, Action.lexemes] using
      hopen ((hl.spells level (some ' ') rfl).append hdo)
  | some e =>
    have hstep := ((ht e rfl).spells level (some ' ') rfl).append hdo
    simpa [Printer.stmt, Printer.actionText.eq_def, Stmt.lexemes, Action.lexemes] using
      hopen ((hl.spells level (some ',') rfl).append (Spells.mark "," ',' (by decide) hstep.space))

theorem IsSpelled.forEach (hu : Text.isBlankText unit = true) {names : List String} {iterable : Expr}
    {body : List Stmt} (hs : ∀ s ∈ names, IsName s) (hi : iterable.IsSpelled unit)
    (hb : ∀ s ∈ body, s.IsSpelled unit) : (Action.forEach names iterable body).IsSpelled unit := by
  refine ⟨fun line level next hn => ?_, trivial⟩
  have hnames : Spells (", ".intercalate (names.map id)).toList
      (commas (names.map fun s => [Lexeme.name s])) (some ' ') :=
    Spells.commas rfl fun s hs' next hn => (hs s hs').spells (breaksWord_of_breaks hn)
  rw [List.map_id] at hnames
  have hin := Spells.keywordSpace "in" rfl
    ((hi.spells level (some ' ') rfl).append (spells_do hu hb level hn))
  have := Spells.keywordSpace "for" rfl (hnames.append hin.space)
  simpa [Printer.stmt, Printer.actionText.eq_def, Stmt.lexemes, Action.lexemes] using this

theorem IsSpelled.giveBack {values : List Expr} (h : ∀ e ∈ values, e.IsSpelled unit) :
    (Action.giveBack values).IsSpelled unit := by
  refine ⟨fun line level next hn => ?_, trivial⟩
  cases values with
  | nil =>
    have := Spells.keyword "return" rfl (by simpa using breaksWord_of_breaks hn) (@Spells.nil next)
    simpa [Printer.stmt, Printer.actionText.eq_def, Stmt.lexemes, Action.lexemes, Expr.lexemesAll, commas] using this
  | cons e es =>
    have hvalues : Spells (Printer.exprs unit level (e :: es)).toList
        (commas (Expr.lexemesAll (e :: es))) next := by
      rw [Printer.exprs_eq, Expr.lexemesAll_eq]
      exact Spells.commas hn fun e he next hn => (h e he).spells level next hn
    simpa [Printer.stmt, Printer.actionText.eq_def, Stmt.lexemes, Action.lexemes] using
      Spells.keywordSpace "return" rfl hvalues

theorem IsSpelled.leaveLoop : Action.leaveLoop.IsSpelled unit := by
  refine ⟨fun line level next hn => ?_, trivial⟩
  have := Spells.keyword "break" rfl (by simpa using breaksWord_of_breaks hn) (@Spells.nil next)
  simpa [Printer.stmt, Printer.actionText.eq_def, Stmt.lexemes, Action.lexemes] using this

theorem IsSpelled.evaluate {e : Expr} (h : e.IsSpelled unit) : (Action.evaluate e).IsSpelled unit :=
  ⟨fun _ level next hn => h.spells level next hn, trivial⟩

end Action

theorem TableField.IsSpelled.named {unit s : String} {value : Expr} (hs : IsName s)
    (hv : value.IsSpelled unit) : (TableField.named s value).IsSpelled unit := by
  intro level next hn
  have hequals := Spells.operatorSpace "=" (by decide) (hv.spells level next hn)
  have := Spells.name hs rfl hequals.space
  simpa [Printer.tableField, TableField.lexemes] using this

theorem TableField.IsSpelled.keyed {unit : String} {key value : Expr} (hk : key.IsSpelled unit)
    (hv : value.IsSpelled unit) : (TableField.keyed key value).IsSpelled unit := by
  intro level next hn
  have hequals := Spells.operatorSpace "=" (by decide) (hv.spells level next hn)
  have hclose := Spells.mark "]" ']' (by decide) hequals.space
  have := Spells.mark "[" '[' (by decide) ((hk.spells level (some ']') rfl).append hclose)
  simpa [Printer.tableField, TableField.lexemes] using this

/-- Every printable tree spells its lexemes. -/
theorem printable_cases {unit : String} (hu : Text.isBlankText unit = true) :
    SyntaxCases (fun e => e.Every printable → e.IsSpelled unit)
      (fun f => f.Every printable → f.IsSpelled unit)
      (fun a => a.Every printable → a.IsSpelled unit)
      (fun s => s.Every printable → s.action.IsSpelled unit) where
  identifier _ h := .identifier h
  string _ _ h := .string h.1 h.2
  number _ h := .number h
  bool value _ := .keyword (s := if value then "true" else "false") (by cases value <;> rfl)
    (fun _ => rfl) rfl rfl (by cases value <;> decide)
  nil _ := .keyword (s := "nil") rfl (fun _ => rfl) rfl rfl (by decide)
  vararg _ := .vararg
  binary _ _ _ ihl ihr h := .binary (ihl h.2.1) (ihr h.2.2)
  unary _ _ ih h := .unary (ih h.2)
  call _ _ ihc iha h := .call (ihc h.2.1) fun e he => iha e he (Expr.everyAll_iff.mp h.2.2 e he)
  methodCall _ _ _ iho iha h :=
    .methodCall (iho h.2.1) h.1 fun e he => iha e he (Expr.everyAll_iff.mp h.2.2 e he)
  member _ _ ih h := .member (ih h.2) h.1
  index _ _ iho ihk h := .index (iho h.2.1) (ihk h.2.2)
  table _ ih h := .table fun f hf => ih f hf (TableField.everyAll_iff.mp h.2 f hf)
  function _ _ ih h := .function hu h.1 fun s hs => (ih s hs (Stmt.everyAll_iff.mp h.2.2 s hs)).stmt
  named _ _ ih h := .named h.1 (ih h.2)
  keyed _ _ ihk ihv h := .keyed (ihk h.2.1) (ihv h.2.2)
  positional _ ih h := (ih h.2).spells
  declare _ _ ih h := .declare h.1 fun e he => ih e he (Expr.everyOption_iff.mp h.2 e he)
  assign _ _ _ iht ihv h := .assign (iht h.2.1) (ihv h.2.2)
  define _ _ _ _ _ ih h :=
    .define hu h.1.1 h.1.2.2 fun s hs => (ih s hs (Stmt.everyAll_iff.mp h.2.2 s hs)).stmt
  conditional _ _ _ ihc iht ihr h :=
    .conditional hu (ihc h.2.1) (fun s hs => (iht s hs (Stmt.everyAll_iff.mp h.2.2.1.2 s hs)).stmt)
      fun body hb s hs => ihr body hb s hs ((Stmt.everyOption_iff.mp h.2.2.2 body hb).2 s hs)
  whileLoop _ _ ihc ihb h :=
    .whileLoop hu (ihc h.2.1) fun s hs => (ihb s hs (Stmt.everyAll_iff.mp h.2.2.2 s hs)).stmt
  forLoop _ _ _ _ _ ihf ihl ihs ihb h :=
    .forLoop hu h.1 (ihf h.2.1) (ihl h.2.2.1)
      (fun e he => ihs e he (Expr.everyOption_iff.mp h.2.2.2.1 e he))
      fun s hs => (ihb s hs (Stmt.everyAll_iff.mp h.2.2.2.2.2 s hs)).stmt
  forEach _ _ _ ihi ihb h :=
    .forEach hu h.1.2 (ihi h.2.1) fun s hs => (ihb s hs (Stmt.everyAll_iff.mp h.2.2.2 s hs)).stmt
  giveBack _ ih h := .giveBack fun e he => ih e he (Expr.everyAll_iff.mp h.2 e he)
  leaveLoop _ := .leaveLoop
  evaluate _ ih h := .evaluate (ih h.2)
  stmt _ _ ih h := ih h

/-- The printed text of a program spells the lexemes of its statements. -/
theorem Program.spells {unit : String} (hu : Text.isBlankText unit = true) {p : Program}
    (h : Program.Every printable p) :
    Spells (Printer.program unit p).toList (Stmt.lexemesAll p) none := by
  have hall : ∀ s ∈ p, s.IsSpelled unit := fun s hs =>
    ((printable_cases hu).statement s (Stmt.everyAll_iff.mp h.2 s hs)).stmt
  clear h
  unfold Printer.program
  induction p with
  | nil => exact Spells.nil
  | cons s ss ih =>
    cases ss with
    | nil => simpa [Stmt.lexemesAll] using hall s (by simp) 0 none rfl
    | cons t ts =>
      have hrest := ih fun u hu => hall u (by simp [hu])
      have hfirst := hall s (by simp) 0 (some '\n') rfl
      have hbreak := Spells.blanks_append (by decide : ['\n'].all Text.isBlank = true) hrest
      simp only [List.map_cons] at hbreak ⊢
      rw [String.intercalate_cons_cons, String.append_assoc, String.toList_append, String.toList_append]
      exact hfirst.append hbreak

end ScriptGraph
