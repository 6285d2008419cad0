import ScriptGraph.Balance
import ScriptGraph.Proofs.PrintedLexemes
import ScriptGraph.Proofs.PrintedText

namespace ScriptGraph

open Lexeme

/-- Neither a bracket nor a keyword that opens or closes a block. -/
def Lexeme.isPlain (l : Lexeme) : Bool :=
  match l.kind with
  | .keyword => !(Balance.opening ++ Balance.closing).contains (String.ofList l.text)
  | .punctuation => !(["(", "\x7b", "[", ")", "\x7d", "]"].contains (String.ofList l.text))
  | _ => true

/-- Blocks and brackets are closed in the order in which they are opened. `P` holds of the strings. -/
inductive Bracketed (P : Lexeme → Prop) : List Lexeme → Prop
  | nil : Bracketed P []
  | append {ls ms : List Lexeme} (h : Bracketed P ls) (h' : Bracketed P ms) : Bracketed P (ls ++ ms)
  | plain {l : Lexeme} (hl : l.isPlain = true) (hp : l.kind = .string → P l) : Bracketed P [l]
  | block {s : String} {ls : List Lexeme} (hs : s ∈ ["function", "if", "do"]) (h : Bracketed P ls) :
      Bracketed P (keyword s :: (ls ++ [keyword "end"]))
  | brackets {o c : String} {ls : List Lexeme} (hs : (o, c) ∈ [("(", ")"), ("\x7b", "\x7d"), ("[", "]")])
      (h : Bracketed P ls) : Bracketed P (mark o :: (ls ++ [mark c]))

namespace Bracketed

variable {P : Lexeme → Prop} {ls ms : List Lexeme}

theorem cons {l : Lexeme} (hl : l.isPlain = true) (hp : l.kind = .string → P l) (h : Bracketed P ls) :
    Bracketed P (l :: ls) := append (plain hl hp) h

theorem keyword {s : String} (h : (Balance.opening ++ Balance.closing).contains s = false) (h' : Bracketed P ls) :
    Bracketed P (.keyword s :: ls) :=
  cons (by simpa [isPlain, Lexeme.keyword, verbatim] using h) (nomatch ·) h'

theorem name (s : String) (h : Bracketed P ls) : Bracketed P (.name s :: ls) := cons rfl (nomatch ·) h

theorem operator (s : String) (h : Bracketed P ls) : Bracketed P (.operator s :: ls) := cons rfl (nomatch ·) h

theorem mark {s : String} (h : ["(", "\x7b", "[", ")", "\x7d", "]"].contains s = false) (h' : Bracketed P ls) :
    Bracketed P (.mark s :: ls) :=
  cons (by simpa [isPlain, Lexeme.mark, verbatim] using h) (nomatch ·) h'

theorem flatten {lss : List (List Lexeme)} (h : ∀ ls ∈ lss, Bracketed P ls) : Bracketed P lss.flatten := by
  induction lss with
  | nil => exact nil
  | cons ls lss ih =>
    obtain ⟨hls, hlss⟩ := List.forall_mem_cons.mp h
    exact append hls (ih hlss)

theorem commas {lss : List (List Lexeme)} (h : ∀ ls ∈ lss, Bracketed P ls) : Bracketed P (Lexeme.commas lss) := by
  induction lss with
  | nil => exact nil
  | cons ls lss ih =>
    obtain ⟨hls, hlss⟩ := List.forall_mem_cons.mp h
    cases lss with
    | nil => exact hls
    | cons ms lss => exact append hls (mark (by decide) (ih hlss))

theorem enclosed (p : Bool) (h : Bracketed P ls) : Bracketed P (Lexeme.enclosed p ls) := by
  cases p with
  | false => exact h
  | true => exact brackets (by decide) h

theorem params (names : List String) : Bracketed P (Lexeme.params names) := by
  refine brackets (by decide) (commas ?_)
  intro ls hls
  obtain ⟨s, -, rfl⟩ := List.mem_map.mp hls
  rw [param]
  split
  · exact operator _ nil
  · exact name _ nil

theorem binaryOp (op : BinaryOp) (h : Bracketed P ls) : Bracketed P (op.lexeme :: ls) := by
  cases op
  case or | and => exact keyword (by decide) h
  all_goals exact operator _ h

theorem unaryOp (op : UnaryOp) (h : Bracketed P ls) : Bracketed P (op.lexeme :: ls) := by
  cases op
  case not => exact keyword (by decide) h
  all_goals exact operator _ h

theorem arguments {es : List Expr} (h : ∀ e ∈ es, Bracketed P e.lexemes) :
    Bracketed P (.mark "(" :: (Lexeme.commas (Expr.lexemesAll es) ++ [.mark ")"])) := by
  refine brackets (by decide) (commas ?_)
  rw [Expr.lexemesAll_eq]
  intro ls hls
  obtain ⟨e, he, rfl⟩ := List.mem_map.mp hls
  exact h e he

theorem stmts {ss : List Stmt} (h : ∀ s ∈ ss, Bracketed P s.lexemes) : Bracketed P (Stmt.lexemesAll ss) := by
  rw [Stmt.lexemesAll_eq, List.flatMap_def]
  refine flatten fun ls hls => ?_
  obtain ⟨s, hs, rfl⟩ := List.mem_map.mp hls
  exact h s hs

/-- A loop: its head is plain, its body is a block. -/
theorem doBlock {ss : List Stmt} (h : Bracketed P (Stmt.lexemesAll ss)) :
    Bracketed P (.keyword "do" :: (Stmt.lexemesAll ss ++ [.keyword "end"])) :=
  block (by decide) h

end Bracketed

/-- What follows the first branch of a conditional is closed with it. -/
def Action.AlternateBracketed (P : Lexeme → Prop) (rest : Option (List Stmt)) : Prop :=
  ∃ ls, Action.alternateLexemes rest = ls ++ [keyword "end"] ∧ Bracketed P ls

/-- A statement is bracketed, and so is a conditional behind its first word. -/
structure Action.IsBracketed (P : Lexeme → Prop) (a : Action) : Prop where
  all : Bracketed P a.lexemes
  tail : ∀ condition consequent rest, a = .conditional condition consequent rest →
    Bracketed P condition.lexemes ∧ Bracketed P (Stmt.lexemesAll consequent) ∧ Action.AlternateBracketed P rest

theorem Action.IsBracketed.stmts {P : Lexeme → Prop} {ss : List Stmt} (h : ∀ s ∈ ss, s.action.IsBracketed P) :
    Bracketed P (Stmt.lexemesAll ss) := by
  refine .stmts fun s hs => ?_
  obtain ⟨line, action⟩ := s
  exact (h _ hs).all

theorem Action.IsBracketed.of_lexemes {P : Lexeme → Prop} {a : Action} (h : Bracketed P a.lexemes)
    (hne : ∀ condition consequent rest, a ≠ .conditional condition consequent rest) : a.IsBracketed P :=
  ⟨h, fun condition consequent rest he => absurd he (hne condition consequent rest)⟩

theorem Action.IsBracketed.conditional {P : Lexeme → Prop} {condition : Expr} {consequent : List Stmt}
    {rest : Option (List Stmt)} (hc : Bracketed P condition.lexemes) (ht : ∀ s ∈ consequent, s.action.IsBracketed P)
    (hr : ∀ body ∈ rest, ∀ s ∈ body, s.action.IsBracketed P) :
    (Action.conditional condition consequent rest).IsBracketed P := by
  have halternate : Action.AlternateBracketed P rest := by
    rcases Action.alternateLexemes_cases rest with ⟨rfl, hls⟩ | ⟨line, c, ss, r, rfl, hls⟩ | ⟨body, rfl, hls⟩
    · exact ⟨[], hls, .nil⟩
    · obtain ⟨hcond, hss, ls, hr', hls'⟩ := (hr _ rfl _ List.mem_cons_self).tail c ss r rfl
      refine ⟨keyword "elseif" :: (c.lexemes ++ keyword "then" :: (Stmt.lexemesAll ss ++ ls)), by rw [hls, hr']; simp,
        ?_⟩
      exact .keyword (by decide) (.append hcond (.keyword (by decide) (.append hss hls')))
    · refine ⟨_, by rw [hls, ← List.cons_append], .keyword (by decide) (stmts (hr body rfl))⟩
  refine ⟨?_, fun _ _ _ he => by cases he; exact ⟨hc, stmts ht, halternate⟩⟩
  obtain ⟨ls, hls, hb⟩ := halternate
  have hall := Bracketed.block (by decide : "if" ∈ ["function", "if", "do"])
    (.append hc (.keyword (by decide : (Balance.opening ++ Balance.closing).contains "then" = false)
      (.append (stmts ht) hb)))
  rw [Action.lexemes, hls]
  simpa using hall

/-- Every statement closes what it opens. -/
theorem bracketed_cases {R : Rules} {P : Lexeme → Prop}
    (hR : ∀ value quote, R.expr (.string value quote) → P (literal value quote))
    (hpath : ∀ s names body isLocal isMethod, R.action (.define s names body isLocal isMethod) → Bracketed P (path s)) :
    SyntaxCases (fun e => e.Every R → Bracketed P e.lexemes) (fun f => f.Every R → Bracketed P f.lexemes)
      (fun a => a.Every R → a.IsBracketed P) (fun s => s.Every R → s.action.IsBracketed P) where
  identifier s _ := by
    rw [Expr.lexemes]
    exact .name s .nil
  string value quote h := by
    rw [Expr.lexemes]
    exact .plain rfl fun _ => hR value quote h
  number text _ := by
    rw [Expr.lexemes]
    exact .plain rfl (nomatch ·)
  bool value _ := by
    rw [Expr.lexemes]
    cases value <;> exact .keyword (by decide) .nil
  nil _ := by
    rw [Expr.lexemes]
    exact .keyword (by decide) .nil
  vararg _ := by
    rw [Expr.lexemes]
    exact .operator _ .nil
  binary op left right ihl ihr h := by
    rw [Expr.lexemes]
    exact .append (.enclosed _ (ihl h.2.1)) (.binaryOp op (.enclosed _ (ihr h.2.2)))
  unary op operand ih h := by
    rw [Expr.lexemes]
    exact .unaryOp op (.enclosed _ (ih h.2))
  call callee args ihc iha h := by
    rw [Expr.lexemes]
    exact .append (.enclosed _ (ihc h.2.1)) (.arguments fun e he => iha e he (Expr.everyAll_iff.mp h.2.2 e he))
  methodCall object method args iho iha h := by
    rw [Expr.lexemes]
    have hargs := Bracketed.arguments fun e he => iha e he (Expr.everyAll_iff.mp h.2.2 e he)
    exact .append (.enclosed _ (iho h.2.1)) (.mark (by decide) (.name method hargs))
  member object property ih h := by
    rw [Expr.lexemes]
    exact .append (.enclosed _ (ih h.2)) (.operator _ (.name property .nil))
  index object key iho ihk h := by
    rw [Expr.lexemes]
    exact .append (.enclosed _ (iho h.2.1)) (.brackets (by decide) (ihk h.2.2))
  table fields ih h := by
    rw [Expr.lexemes]
    refine .brackets (by decide) (.commas ?_)
    rw [TableField.lexemesAll_eq]
    intro ls hls
    obtain ⟨f, hf, rfl⟩ := List.mem_map.mp hls
    exact ih f hf (TableField.everyAll_iff.mp h.2 f hf)
  function names body ih h := by
    have hbody := Action.IsBracketed.stmts fun s hs => ih s hs (Stmt.everyAll_iff.mp h.2.2 s hs)
    rw [Expr.lexemes]
    exact .block (by decide) (.append (.params names) hbody)
  named s value ih h := by
    rw [TableField.lexemes]
    exact .name s (.operator _ (ih h.2))
  keyed key value ihk ihv h := by
    have hkey : Bracketed P (.mark "[" :: (key.lexemes ++ [.mark "]"])) := .brackets (by decide) (ihk h.2.1)
    have hall := Bracketed.append hkey (.operator "=" (ihv h.2.2))
    rw [TableField.lexemes]
    simpa using hall
  positional value ih h := by
    rw [TableField.lexemes]
    exact ih h.2
  declare s value ih h := by
    refine .of_lexemes ?_ (by simp)
    cases value with
    | none =>
      rw [Action.lexemes]
      exact .keyword (by decide) (.name s .nil)
    | some value =>
      rw [Action.lexemes]
      exact .keyword (by decide) (.name s (.operator _ (ih value rfl h.2)))
  assign target op value iht ihv h := by
    refine .of_lexemes ?_ (by simp)
    rw [Action.lexemes]
    exact .append (iht h.2.1) (.operator _ (ihv h.2.2))
  define s names body isLocal isMethod ih h := by
    refine .of_lexemes ?_ (by simp)
    have hbody := Action.IsBracketed.stmts fun s hs => ih s hs (Stmt.everyAll_iff.mp h.2.2 s hs)
    have hlocal : Bracketed P (if isLocal then [keyword "local"] else []) := by
      cases isLocal
      · exact .nil
      · exact .keyword (by decide) .nil
    rw [Action.lexemes]
    exact .append hlocal (.block (by decide) (.append (.append (hpath _ _ _ _ _ h.1) (.params names)) hbody))
  conditional condition consequent rest ihc iht ihr h :=
    .conditional (ihc h.2.1) (fun s hs => iht s hs (Stmt.everyAll_iff.mp h.2.2.1.2 s hs)) fun body hb s hs =>
      ihr body hb s hs ((Stmt.everyOption_iff.mp h.2.2.2 body hb).2 s hs)
  whileLoop condition body ihc ihb h := by
    refine .of_lexemes ?_ (by simp)
    have hbody := Action.IsBracketed.stmts fun s hs => ihb s hs (Stmt.everyAll_iff.mp h.2.2.2 s hs)
    rw [Action.lexemes]
    exact .keyword (by decide) (.append (ihc h.2.1) (.doBlock hbody))
  forLoop counter first last step body ihf ihl ihs ihb h := by
    refine .of_lexemes ?_ (by simp)
    have hbody := Action.IsBracketed.stmts fun s hs => ihb s hs (Stmt.everyAll_iff.mp h.2.2.2.2.2 s hs)
    have hfirst := ihf h.2.1
    have hlast := ihl h.2.2.1
    cases step with
    | none =>
      rw [Action.lexemes]
      exact .keyword (by decide) (.name _ (.operator _ (.append hfirst (.mark (by decide)
        (.append hlast (.doBlock hbody))))))
    | some step =>
      have hstep := ihs step rfl h.2.2.2.1
      rw [Action.lexemes]
      exact .keyword (by decide) (.name _ (.operator _ (.append hfirst (.mark (by decide) (.append hlast
        (.mark (by decide) (.append hstep (.doBlock hbody))))))))
  forEach names iterable body ihi ihb h := by
    refine .of_lexemes ?_ (by simp)
    have hbody := Action.IsBracketed.stmts fun s hs => ihb s hs (Stmt.everyAll_iff.mp h.2.2.2 s hs)
    have hnames : Bracketed P (commas (names.map fun s => [name s])) := by
      refine .commas fun ls hls => ?_
      obtain ⟨s, -, rfl⟩ := List.mem_map.mp hls
      exact .name s .nil
    rw [Action.lexemes]
    exact .keyword (by decide) (.append hnames (.keyword (by decide) (.append (ihi h.2.1) (.doBlock hbody))))
  giveBack values ih h := by
    refine .of_lexemes ?_ (by simp)
    rw [Action.lexemes, Expr.lexemesAll_eq]
    refine .keyword (by decide) (.commas fun ls hls => ?_)
    obtain ⟨e, he, rfl⟩ := List.mem_map.mp hls
    exact ih e he (Expr.everyAll_iff.mp h.2 e he)
  leaveLoop _ := by
    refine .of_lexemes ?_ (by simp)
    rw [Action.lexemes]
    exact .keyword (by decide) .nil
  evaluate e ih h := by
    refine .of_lexemes ?_ (by simp)
    rw [Action.lexemes]
    exact ih h.2
  stmt _ _ ih h := ih h

theorem IsPath.bracketed {P : Lexeme → Prop} {s : String} {isMethod : Bool} (h : IsPath s isMethod) :
    Bracketed P (path s) := by
  induction h with
  | name h =>
    rw [h.path_eq]
    exact .name _ .nil
  | dot hp h ih =>
    rw [hp.path_dot h]
    exact .append ih (.operator _ (.name _ .nil))
  | colon hp h ih =>
    rw [hp.path_colon h]
    exact .append ih (.mark (by decide) (.name _ .nil))

namespace Bracketed

variable {P : Lexeme → Prop} {ls : List Lexeme}

theorem string (h : Bracketed P ls) : ∀ l ∈ ls, l.kind = .string → P l := by
  induction h with
  | nil => simp
  | append _ _ ih ih' => exact fun l hl => (List.mem_append.mp hl).elim (ih l) (ih' l)
  | plain _ hp => exact List.forall_mem_singleton.mpr hp
  | block _ _ ih =>
    refine List.forall_mem_cons.mpr ⟨(nomatch ·), fun l hl => ?_⟩
    rcases List.mem_append.mp hl with hl | hl
    · exact ih l hl
    · rw [List.mem_singleton.mp hl]
      exact (nomatch ·)
  | brackets _ _ ih =>
    refine List.forall_mem_cons.mpr ⟨(nomatch ·), fun l hl => ?_⟩
    rcases List.mem_append.mp hl with hl | hl
    · exact ih l hl
    · rw [List.mem_singleton.mp hl]
      exact (nomatch ·)

end Bracketed

namespace Lexeme

/-- The words that open blocks. -/
theorem isOpener_keyword {s : String} (h : s ∈ ["function", "if", "do"]) :
    Balance.isOpener ((keyword s).token ⟨0, 0⟩) = true ∧ Balance.isCloser ((keyword s).token ⟨0, 0⟩) = false := by
  simp only [List.mem_cons, List.not_mem_nil, or_false] at h
  rcases h with rfl | rfl | rfl <;> exact ⟨rfl, rfl⟩

variable {l : Lexeme}

theorem isOpener_of_isPlain (h : l.isPlain = true) :
    Balance.isOpener (l.token ⟨0, 0⟩) = false ∧ Balance.isCloser (l.token ⟨0, 0⟩) = false := by
  unfold isPlain at h
  simp only [Balance.isOpener, Balance.isCloser, token]
  split at h
  · rename_i hk
    simp only [List.contains_append, Bool.not_or, Bool.and_eq_true, Bool.not_eq_true'] at h
    rw [hk, h.1, h.2]
    exact ⟨rfl, rfl⟩
  · rename_i hk
    rw [hk]
    exact ⟨rfl, rfl⟩
  · rename_i hk _
    rw [beq_false_of_ne hk]
    exact ⟨rfl, rfl⟩

end Lexeme

namespace Bracketed

variable {P : Lexeme → Prop} {ls : List Lexeme}

/-- As many blocks are closed as are opened. -/
theorem countP_eq (h : Bracketed P ls) : (ls.map (·.token ⟨0, 0⟩)).countP Balance.isOpener =
    (ls.map (·.token ⟨0, 0⟩)).countP Balance.isCloser := by
  induction h with
  | nil => rfl
  | append _ _ ih ih' => simp only [List.map_append, List.countP_append, ih, ih']
  | plain hl _ =>
    obtain ⟨hopener, hcloser⟩ := isOpener_of_isPlain hl
    simp only [List.map_cons, List.map_nil, List.countP_cons, List.countP_nil, hopener, hcloser]
  | block hs _ ih =>
    obtain ⟨hopener, hcloser⟩ := isOpener_keyword hs
    simp only [List.map_cons, List.map_append, List.countP_cons, List.countP_append, hopener, hcloser, ih]
    rfl
  | brackets _ _ ih =>
    simp only [List.map_cons, List.map_append, List.countP_cons, List.countP_append, ih]
    rfl

end Bracketed

end ScriptGraph
