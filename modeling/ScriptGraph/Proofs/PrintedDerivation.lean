import Mathlib.Data.List.Chain
import ScriptGraph.Proofs.ParserComplete
import ScriptGraph.Proofs.Precedence
import ScriptGraph.Proofs.PrintedText
import ScriptGraph.Proofs.Relocation

namespace ScriptGraph

open Lexeme

/-- The lexemes as tokens without a place. -/
def Lexeme.tokens (ls : List Lexeme) : List Token := ls.map (·.token ⟨0, 0⟩)

section Tokens

@[simp] theorem Lexeme.tokens_nil : tokens [] = [] := rfl

@[simp] theorem Lexeme.tokens_cons (l : Lexeme) (ls : List Lexeme) :
    tokens (l :: ls) = l.token ⟨0, 0⟩ :: tokens ls := rfl

@[simp] theorem Lexeme.tokens_append (ls ms : List Lexeme) : tokens (ls ++ ms) = tokens ls ++ tokens ms :=
  List.map_append

variable (s : String)

@[simp] theorem Lexeme.token_keyword : (keyword s).token ⟨0, 0⟩ = ⟨.keyword, s, 0, 0, none⟩ := by
  simp [token, keyword, verbatim]

@[simp] theorem Lexeme.token_name : (name s).token ⟨0, 0⟩ = ⟨.identifier, s, 0, 0, none⟩ := by
  simp [token, name, verbatim]

@[simp] theorem Lexeme.token_numeral : (numeral s).token ⟨0, 0⟩ = ⟨.number, s, 0, 0, none⟩ := by
  simp [token, numeral, verbatim]

@[simp] theorem Lexeme.token_operator : (operator s).token ⟨0, 0⟩ = ⟨.operator, s, 0, 0, none⟩ := by
  simp [token, operator, verbatim]

@[simp] theorem Lexeme.token_mark : (mark s).token ⟨0, 0⟩ = ⟨.punctuation, s, 0, 0, none⟩ := by
  simp [token, mark, verbatim]

@[simp] theorem Lexeme.token_literal (q : Char) : (literal s q).token ⟨0, 0⟩ = ⟨.string, s, 0, 0, some q⟩ := by
  simp [token, literal]

end Tokens

namespace Token

/-- Can an expression start with the token? -/
def startsExpr (t : Token) : Bool :=
  match t.kind with
  | .identifier | .string | .number => true
  | .keyword => ["true", "false", "nil", "function", "not"].contains t.text
  | .operator => ["...", "-", "#"].contains t.text
  | .punctuation => ["(", "\x7b"].contains t.text
  | .comment | .eof => false

/-- Can a statement start with the token that is never read on from the statement before it? -/
def startsStmt (t : Token) : Bool :=
  match t.kind with
  | .identifier | .string | .number => true
  | .keyword =>
    ["local", "function", "if", "while", "for", "return", "break", "true", "false", "nil", "not"].contains t.text
  | .operator => ["...", "#"].contains t.text
  | .punctuation => t.text == "\x7b"
  | .comment | .eof => false

/-- Can the token start a statement, but carry on an expression in front of it as well? -/
def bridges (t : Token) : Bool := ["(", "-"].any t.is

/-- Can a statement start with the token? -/
def opensStmt (t : Token) : Bool := t.startsStmt || t.bridges

/-- Does a statement end before the token? -/
def endsStmt (t : Token) : Bool := t.startsStmt || t.isEof || ["end", "else", "elseif"].any t.is

/-- The token with its kind and text only. -/
def bare (t : Token) : Token := ⟨t.kind, t.text, 0, 0, none⟩

/-- A property of the kind and the text that fails for all tokens spelled `s`. -/
theorem is_eq_false_of {P : Token → Bool} {t : Token} {s : String} (hP : P t = P t.bare) (ht : P t = true)
    (hs : ∀ k ∈ [TokenKind.keyword, .operator, .punctuation], P ⟨k, s, 0, 0, none⟩ = false) : t.is s = false := by
  rw [Bool.eq_false_iff]
  intro h
  obtain ⟨hk, rfl⟩ := is_iff.mp h
  have := hs t.kind (by simpa using hk)
  rw [hP] at ht
  simp [bare, this] at ht

/-- The symbols that carry on a statement. -/
def joints : List String := Level.or.continuers ++ [",", ";", "=", "+=", "-=", "*=", "/="]

theorem is_of_endsStmt {t : Token} (h : t.endsStmt = true) {s : String} (hs : s ∈ joints) : t.is s = false := by
  have hall : ∀ s ∈ joints, ∀ k ∈ [TokenKind.keyword, .operator, .punctuation],
      endsStmt ⟨k, s, 0, 0, none⟩ = false := by decide
  exact is_eq_false_of (P := endsStmt) rfl h (hall s hs)

theorem closes_of_endsStmt {t : Token} (h : t.endsStmt = true) : Level.or.Closes t :=
  fun _ hs => is_of_endsStmt h (List.mem_append_left _ hs)

theorem assignOp?_of_endsStmt {t : Token} (h : t.endsStmt = true) : t.assignOp? = none := by
  rw [assignOp?, List.find?_eq_none]
  intro op _
  have hmem : op.symbol ∈ joints := by cases op <;> decide
  simp [is_of_endsStmt h hmem]

/-- The closers of the blocks inside a program. -/
def closers : List String := ["else", "elseif", "end"]

theorem is_of_bridges {t : Token} (h : t.bridges = true) {s : String} (hs : s ∈ [";", "="]) : t.is s = false := by
  have hall : ∀ s ∈ [";", "="], ∀ k ∈ [TokenKind.keyword, .operator, .punctuation],
      bridges ⟨k, s, 0, 0, none⟩ = false := by decide
  exact is_eq_false_of (P := bridges) rfl h (hall s hs)

theorem is_of_opensStmt {t : Token} (h : t.opensStmt = true) {s : String} (hs : s ∈ ";" :: closers) :
    t.is s = false := by
  have hall : ∀ s ∈ ";" :: closers, ∀ k ∈ [TokenKind.keyword, .operator, .punctuation],
      opensStmt ⟨k, s, 0, 0, none⟩ = false := by decide
  exact is_eq_false_of (P := opensStmt) rfl h (hall s hs)

theorem isEof_of_opensStmt {t : Token} (h : t.opensStmt = true) : t.isEof = false := by
  cases hk : t.kind <;> simp_all [opensStmt, startsStmt, bridges, is, isEof]

theorem closesBlock_of_opensStmt {t : Token} (h : t.opensStmt = true) {stops : List String}
    (hs : ∀ s ∈ stops, s ∈ closers) : t.closesBlock stops = false := by
  have hstops : ∀ s ∈ stops, ¬t.is s = true := fun s hm => by
    simp [is_of_opensStmt h (List.mem_cons_of_mem _ (hs s hm))]
  simp [closesBlock, isEof_of_opensStmt h, List.any_eq_false.mpr hstops]

theorem is_of_startsExpr {t : Token} (h : t.startsExpr = true) {s : String}
    (hs : s ∈ [")", "]", "\x7d", "[", ",", ";", "=", "end", "else", "elseif", "until"]) : t.is s = false := by
  have hall : ∀ s ∈ [")", "]", "\x7d", "[", ",", ";", "=", "end", "else", "elseif", "until"],
      ∀ k ∈ [TokenKind.keyword, .operator, .punctuation], startsExpr ⟨k, s, 0, 0, none⟩ = false := by decide
  exact is_eq_false_of (P := startsExpr) rfl h (hall s hs)

theorem isEof_of_startsExpr {t : Token} (h : t.startsExpr = true) : t.isEof = false := by
  cases hk : t.kind <;> simp_all [startsExpr, isEof]

/-- An expression can be a statement, unless it starts as a definition does. -/
theorem opensStmt_of_startsExpr {t : Token} (h : t.startsExpr = true) (hf : t.is "function" = false) :
    t.opensStmt = true ∧ t.opensStatement = false := by
  obtain ⟨kind, text, line, column, quote⟩ := t
  cases kind with
  | identifier | string | number => exact ⟨rfl, rfl⟩
  | comment | eof => simp [startsExpr] at h
  | keyword =>
    have htext : text = "true" ∨ text = "false" ∨ text = "nil" ∨ text = "not" := by
      simp [startsExpr, is] at h hf
      grind
    rcases htext with rfl | rfl | rfl | rfl <;> exact ⟨rfl, rfl⟩
  | operator =>
    have htext : text = "..." ∨ text = "-" ∨ text = "#" := by simpa [startsExpr] using h
    rcases htext with rfl | rfl | rfl <;> exact ⟨rfl, rfl⟩
  | punctuation =>
    have htext : text = "(" ∨ text = "\x7b" := by simpa [startsExpr] using h
    rcases htext with rfl | rfl <;> exact ⟨rfl, rfl⟩

end Token

/-- The lexemes start as an expression does, and not with a name and an equals sign. -/
def Lexeme.Opens (ls : List Lexeme) : Prop :=
  ∃ l ms, ls = l :: ms ∧ (l.token ⟨0, 0⟩).startsExpr = true ∧
    ((l.token ⟨0, 0⟩).isName = true → ∀ m ∈ ms.head?, (m.token ⟨0, 0⟩).is "=" = false)

namespace Lexeme.Opens

theorem one {l : Lexeme} (h : (l.token ⟨0, 0⟩).startsExpr = true) : Opens [l] := ⟨l, [], rfl, h, by simp⟩

theorem cons {l : Lexeme} {ls : List Lexeme} (h : (l.token ⟨0, 0⟩).startsExpr = true)
    (hn : (l.token ⟨0, 0⟩).isName = false) : Opens (l :: ls) :=
  ⟨l, ls, rfl, h, by simp [hn]⟩

theorem enclosed_append {ls rest : List Lexeme} (p : Bool) (h : Opens ls)
    (hr : ∀ m ∈ rest.head?, (m.token ⟨0, 0⟩).is "=" = false) : Opens (enclosed p ls ++ rest) := by
  obtain ⟨l, ms, rfl, hl, hms⟩ := h
  cases p with
  | true => exact cons rfl rfl
  | false =>
    refine ⟨l, ms ++ rest, rfl, hl, fun hn => ?_⟩
    cases ms with
    | nil => exact hr
    | cons m ms => exact hms hn

end Lexeme.Opens

theorem BinaryOp.is_lexeme (op : BinaryOp) : (op.lexeme.token ⟨0, 0⟩).is op.symbol = true := by
  cases op <;> decide

theorem Expr.opens_lexemes (e : Expr) : Opens e.lexemes := by
  cases e with
  | identifier s => exact .one (by simp [Token.startsExpr])
  | string value quote => exact .one (by simp [Token.startsExpr])
  | number text => exact .one (by simp [Token.startsExpr])
  | bool value => exact .one (by cases value <;> decide)
  | nil => exact .one (by decide)
  | vararg => exact .one (by decide)
  | binary op left right =>
    rw [Expr.lexemes]
    refine left.opens_lexemes.enclosed_append _ ?_
    intro m hm
    obtain rfl : op.lexeme = m := by simpa using hm
    exact Token.is_eq_false op.is_lexeme (by cases op <;> decide)
  | unary op operand =>
    rw [Expr.lexemes]
    exact .cons (by cases op <;> decide) (by cases op <;> decide)
  | call callee args =>
    rw [Expr.lexemes]
    exact callee.opens_lexemes.enclosed_append _ (by simp [Token.is])
  | methodCall object method args =>
    rw [Expr.lexemes]
    exact object.opens_lexemes.enclosed_append _ (by simp [Token.is])
  | member object property =>
    rw [Expr.lexemes]
    exact object.opens_lexemes.enclosed_append _ (by simp [Token.is])
  | index object key =>
    rw [Expr.lexemes]
    exact object.opens_lexemes.enclosed_append _ (by simp [Token.is])
  | table fields =>
    rw [Expr.lexemes]
    exact .cons (by decide) (by decide)
  | function names body =>
    rw [Expr.lexemes]
    exact .cons (by decide) (by decide)

def BinaryOp.level : BinaryOp → Level
  | or => .or
  | and => .and
  | eq | ne | lt | gt | le | ge => .comparison
  | concat => .concat
  | add | sub => .sum
  | mul | div | floorDiv | mod => .product
  | pow => .power

/-- The tightest level that an expression has without parentheses. -/
def Expr.level : Expr → Level
  | binary op .. => op.level
  | unary .. => .unary
  | identifier _ | member .. | index .. | call .. | methodCall .. => .access
  | string .. | number _ | bool _ | nil | vararg | table _ | function .. => .primary

theorem BinaryOp.rank_level (op : BinaryOp) : op.level.rank = op.precedence := by
  cases op <;> rfl

theorem Expr.rank_level (e : Expr) : e.level.rank = e.precedence ∨ 9 ≤ e.level.rank ∧ e.precedence = 255 := by
  cases e with
  | binary op => exact .inl op.rank_level
  | unary => exact .inl rfl
  | _ => exact .inr ⟨by simp [Expr.level, Level.rank], rfl⟩

theorem Expr.le_rank_level_of_isBarePrefix {e : Expr} (h : e.isBarePrefix = true) : 9 ≤ e.level.rank := by
  cases e <;> first | exact Nat.le_refl 9 | cases h

theorem Level.one_le_rank (l : Level) : 1 ≤ l.rank := by
  cases l <;> decide

/-- Every operator but the two that group to the right is one of a chain. -/
theorem BinaryOp.chain_cases (op : BinaryOp) : op = .concat ∨ op = .pow ∨ op.isRightAssoc = false ∧
    op.level.isChain = true ∧ (op.lexeme.token ⟨0, 0⟩).binaryOp? op.level.ops = some op := by
  cases op <;> decide

/-- All lines are the same one. -/
def origin (_ : Nat) : Nat := 0

/-- The printed expression is read back. -/
def Expr.IsRead (e : Expr) : Prop := Reads e.level (tokens e.lexemes) (e.mapLines origin)

namespace Expr.IsRead

/-- The expression as an operand that has to bind as tightly as rank `n`. -/
theorem operand {e : Expr} (h : e.IsRead) (p : Bool) {n : Nat} (hn : n ≤ 10)
    (hp : p = false → n ≤ e.level.rank) :
    ∃ l : Level, n ≤ l.rank ∧ Reads l (tokens (enclosed p e.lexemes)) (e.mapLines origin) := by
  cases p with
  | false => exact ⟨e.level, hp rfl, h⟩
  | true =>
    refine ⟨.primary, hn, ?_⟩
    simpa [enclosed] using Reads.enclosed (t := ⟨.punctuation, "(", 0, 0, none⟩)
      (u := ⟨.punctuation, ")", 0, 0, none⟩) h e.level.one_le_rank rfl rfl rfl

/-- The expression as what is called or accessed. -/
theorem callee {e : Expr} (h : e.IsRead) :
    ∃ l : Level, 9 ≤ l.rank ∧ Reads l (tokens (enclosed (!e.isBarePrefix) e.lexemes)) (e.mapLines origin) :=
  h.operand _ (by decide) fun hp => Expr.le_rank_level_of_isBarePrefix (by simpa using hp)

theorem nested {e : Expr} (h : e.IsRead) {next : Token} (hn : Level.or.Closes next) (d : Nat) :
    Derives true d (.nested (e.mapLines origin)) (tokens e.lexemes) next :=
  .nested (.inl rfl) (h.whole .or next e.level.one_le_rank hn (d + 1))

theorem binary {op : BinaryOp} {left right : Expr} (hl : left.IsRead) (hr : right.IsRead) :
    (Expr.binary op left right).IsRead := by
  have hbounds : (Printer.operandBounds op).1 ≤ 9 ∧ (Printer.operandBounds op).2 ≤ 9 := by cases op <;> decide
  have hleft := left.rank_level
  have hright := right.rank_level
  have hop := op.rank_level
  obtain ⟨k, hk, ha⟩ := hl.operand (left.precedence < (Printer.operandBounds op).1)
    (Nat.le_succ_of_le hbounds.1) fun hp => by
    have := of_decide_eq_false hp
    omega
  obtain ⟨l, hl, hb⟩ := hr.operand (right.precedence < (Printer.operandBounds op).2)
    (Nat.le_succ_of_le hbounds.2) fun hp => by
    have := of_decide_eq_false hp
    omega
  unfold Expr.IsRead
  rw [Expr.lexemes, Expr.mapLines, tokens_append, tokens_cons, Expr.level]
  rcases op.chain_cases with rfl | rfl | ⟨hassoc, hchain, hsym⟩
  · exact ha.concat hk hb hl rfl
  · exact ha.power hk hb (Nat.le_trans (by decide) hl) rfl
  · simp only [Printer.operandBounds, hassoc, Bool.false_eq_true, if_false] at hk hl ha hb ⊢
    exact .chained hchain ha (by omega) hb (by omega) hsym

theorem unary {op : UnaryOp} {operand : Expr} (h : operand.IsRead) : (Expr.unary op operand).IsRead := by
  unfold Expr.IsRead
  rw [Expr.lexemes, Expr.mapLines, tokens_cons]
  have hrank := operand.rank_level
  obtain ⟨l, hl, he⟩ := h.operand (operand.precedence < UnaryOp.precedence) (n := 7) (by decide) fun hp => by
    have := of_decide_eq_false hp
    simp only [UnaryOp.precedence] at this
    omega
  exact he.unary hl (by cases op <;> rfl)

end Expr.IsRead

theorem Level.closes_mark {s : String} (hs : s ∉ Level.or.continuers) : Level.or.Closes ⟨.punctuation, s, 0, 0, none⟩ :=
  closes_of_is (s := s) (by simp [Token.is]) hs

theorem Level.closes_keyword {s : String} (hs : s ∉ Level.or.continuers) : Level.or.Closes ⟨.keyword, s, 0, 0, none⟩ :=
  closes_of_is (s := s) (by simp [Token.is]) hs

/-- The expression is read from these lexemes. -/
structure Expr.ReadFrom (ls : List Lexeme) (e : Expr) : Prop where
  head : ∃ l ms, ls = l :: ms ∧ (l.token ⟨0, 0⟩).startsExpr = true
  nested : ∀ next d, Level.or.Closes next → Derives true d (.nested (e.mapLines origin)) (tokens ls) next

theorem Expr.IsRead.readFrom {e : Expr} (h : e.IsRead) : e.ReadFrom e.lexemes := by
  obtain ⟨l, ls, hl, hs, -⟩ := e.opens_lexemes
  exact ⟨⟨l, ls, hl, hs⟩, fun _ d hn => h.nested hn d⟩

section Lists

variable {es : List Expr} {spell : Expr → List Lexeme}

theorem derives_exprs (hne : es ≠ []) (h : ∀ e ∈ es, e.ReadFrom (spell e)) {next : Token}
    (hc : Level.or.Closes next) (hn : next.is "," = false) (d : Nat) :
    Derives true d (.exprs (es.map (Expr.mapLines origin))) (tokens (commas (es.map spell))) next := by
  induction es with
  | nil => exact absurd rfl hne
  | cons e es ih =>
    cases es with
    | nil => exact .one ((h e (by simp)).nested next d hc) hn
    | cons f fs =>
      have hrest := ih (by simp) fun e he => h e (by simp [he])
      have hfirst := (h e (by simp)).nested _ d (Level.closes_mark (s := ",") (by decide))
      simp only [List.map_cons] at hrest ⊢
      rw [commas_cons_cons, tokens_append, tokens_cons, token_mark]
      exact .cons hfirst rfl hrest

/-- The tokens of expressions with commas start as the first expression does. -/
theorem startsExpr_commas (hne : es ≠ []) (h : ∀ e ∈ es, e.ReadFrom (spell e)) :
    ∃ t ts, tokens (commas (es.map spell)) = t :: ts ∧ t.startsExpr = true := by
  cases es with
  | nil => exact absurd rfl hne
  | cons e es =>
    obtain ⟨l, ls, hl, hs⟩ := (h e List.mem_cons_self).head
    cases es with
    | nil => exact ⟨_, _, by simp [commas, hl]; rfl, hs⟩
    | cons f fs => exact ⟨_, _, by simp [commas_cons_cons, hl]; rfl, hs⟩

theorem derives_arguments (h : ∀ e ∈ es, e.ReadFrom (spell e)) (next : Token) (d : Nat) :
    Derives true d (.arguments (es.map (Expr.mapLines origin)))
      (tokens (mark "(" :: (commas (es.map spell) ++ [mark ")"]))) next := by
  rw [tokens_cons, tokens_append, tokens_cons, tokens_nil, token_mark, token_mark]
  by_cases hne : es = []
  · subst hne
    exact .noArguments rfl rfl
  · refine .arguments rfl ?_ (derives_exprs hne h (Level.closes_mark (by decide)) rfl d) rfl
    obtain ⟨t, ts, ht, hs⟩ := startsExpr_commas hne h
    rw [ht]
    exact Token.is_of_startsExpr hs (by decide)

end Lists

namespace Expr.IsRead

theorem ofPrimary {e : Expr} (hl : e.level = .primary) {l : Lexeme} {ls : List Lexeme} (he : e.lexemes = l :: ls)
    (hu : (l.token ⟨0, 0⟩).unaryOp? = none)
    (h : ∀ next d, Derives true d (.expr .primary (e.mapLines origin)) (tokens e.lexemes) next) : e.IsRead := by
  unfold Expr.IsRead
  rw [hl]
  exact .of_primary h ⟨l.token ⟨0, 0⟩, tokens ls, by rw [he, tokens_cons], hu⟩

theorem identifier (s : String) : (Expr.identifier s).IsRead := by
  refine .of_access (fun w rest next hw d => ?_) ⟨_, _, rfl, by simp [Token.unaryOp?]⟩
  refine .access ?_ (hw d)
  have hname : Derives true d (.expr .primary (.identifier s)) [⟨.identifier, s, 0, 0, none⟩] (rest.headD next) :=
    .identifier (t := ⟨.identifier, s, 0, 0, none⟩) rfl
  simpa [Expr.lexemes, Expr.mapLines] using hname

theorem string (value : String) (quote : Char) : (Expr.string value quote).IsRead := by
  refine ofPrimary rfl rfl (by simp [Token.unaryOp?]) fun next d => ?_
  have hstring : Derives true d (.expr .primary (.string value quote)) [⟨.string, value, 0, 0, some quote⟩] next :=
    .string (t := ⟨.string, value, 0, 0, some quote⟩) rfl
  simpa [Expr.lexemes, Expr.mapLines] using hstring

theorem number (text : String) : (Expr.number text).IsRead := by
  refine ofPrimary rfl rfl (by simp [Token.unaryOp?]) fun next d => ?_
  have hnumber : Derives true d (.expr .primary (.number text)) [⟨.number, text, 0, 0, none⟩] next :=
    .number (t := ⟨.number, text, 0, 0, none⟩) rfl
  simpa [Expr.lexemes, Expr.mapLines] using hnumber

theorem bool (value : Bool) : (Expr.bool value).IsRead := by
  cases value with
  | true => exact ofPrimary rfl rfl rfl fun next d => .trueWord rfl
  | false => exact ofPrimary rfl rfl rfl fun next d => .falseWord rfl

theorem nil : Expr.nil.IsRead := ofPrimary rfl rfl rfl fun _ _ => .nilWord rfl

theorem vararg : Expr.vararg.IsRead := ofPrimary rfl rfl rfl fun _ _ => .vararg rfl rfl

theorem call {callee : Expr} {args : List Expr} (hc : callee.IsRead) (ha : ∀ e ∈ args, e.IsRead) :
    (Expr.call callee args).IsRead := by
  unfold Expr.IsRead
  rw [Expr.lexemes, Expr.mapLines, tokens_append, Expr.lexemesAll_eq, Expr.mapLinesAll_eq]
  obtain ⟨l, hl, hcallee⟩ := hc.callee
  exact hcallee.call hl (derives_arguments fun e he => (ha e he).readFrom)

theorem methodCall {object : Expr} {method : String} {args : List Expr} (ho : object.IsRead)
    (ha : ∀ e ∈ args, e.IsRead) : (Expr.methodCall object method args).IsRead := by
  unfold Expr.IsRead
  rw [Expr.lexemes, Expr.mapLines, tokens_append, tokens_cons, tokens_cons, token_mark, token_name,
    Expr.lexemesAll_eq, Expr.mapLinesAll_eq]
  obtain ⟨l, hl, hobject⟩ := ho.callee
  exact hobject.methodCall hl rfl rfl (derives_arguments fun e he => (ha e he).readFrom)

theorem member {object : Expr} {property : String} (ho : object.IsRead) : (Expr.member object property).IsRead := by
  unfold Expr.IsRead
  rw [Expr.lexemes, Expr.mapLines, tokens_append, tokens_cons, tokens_cons, token_operator, token_name]
  obtain ⟨l, hl, hobject⟩ := ho.callee
  exact hobject.member hl rfl rfl

theorem index {object key : Expr} (ho : object.IsRead) (hk : key.IsRead) : (Expr.index object key).IsRead := by
  unfold Expr.IsRead
  rw [Expr.lexemes, Expr.mapLines, tokens_append, tokens_cons, tokens_append, tokens_cons, token_mark, token_mark]
  obtain ⟨l, hl, hobject⟩ := ho.callee
  exact hobject.index hl rfl hk key.level.one_le_rank rfl

end Expr.IsRead

/-- The printed field is read back, and not taken for the end of the table. -/
def TableField.IsRead (f : TableField) : Prop :=
  (∃ l ls, f.lexemes = l :: ls ∧ (l.token ⟨0, 0⟩).closesFields = false) ∧
    ∀ next d, Level.or.Closes next → next.is "=" = false →
      Derives true d (.field (f.mapLines origin)) (tokens f.lexemes) next

namespace TableField.IsRead

theorem named {s : String} {value : Expr} (h : value.IsRead) : (TableField.named s value).IsRead := by
  refine ⟨⟨name s, operator "=" :: value.lexemes, by rw [TableField.lexemes], by
    simp [Token.closesFields, Token.is, Token.isEof]⟩, fun next d hc _ => ?_⟩
  rw [TableField.lexemes, TableField.mapLines, tokens_cons, tokens_cons, token_name, token_operator]
  exact .named (t := ⟨.identifier, s, 0, 0, none⟩) rfl rfl (h.nested hc d)

theorem keyed {key value : Expr} (hk : key.IsRead) (h : value.IsRead) : (TableField.keyed key value).IsRead := by
  refine ⟨⟨mark "[", _, by rw [TableField.lexemes], by decide⟩, fun next d hc _ => ?_⟩
  rw [TableField.lexemes, TableField.mapLines, tokens_cons, tokens_append, tokens_cons, tokens_cons, token_mark,
    token_mark, token_operator]
  exact .keyed rfl (hk.nested (Level.closes_mark (by decide)) d) rfl rfl (h.nested hc d)

theorem positional {value : Expr} (h : value.IsRead) : (TableField.positional value).IsRead := by
  obtain ⟨l, ls, hl, hs, hnext⟩ := value.opens_lexemes
  refine ⟨⟨l, ls, by rw [TableField.lexemes, hl], ?_⟩, fun next d hc he => ?_⟩
  · simp [Token.closesFields, Token.is_of_startsExpr hs, Token.isEof_of_startsExpr hs]
  rw [TableField.lexemes, TableField.mapLines]
  refine .positional ?_ ?_ (h.nested hc d)
  · rw [hl]
    exact Token.is_of_startsExpr hs (by decide)
  rw [hl, tokens_cons, List.headD_cons, List.tail_cons]
  cases hname : (l.token ⟨0, 0⟩).isName with
  | false => rfl
  | true =>
    cases ls with
    | nil => simpa using he
    | cons m ms => simpa using hnext hname m rfl

end TableField.IsRead

theorem derives_fields {fs : List TableField} (h : ∀ f ∈ fs, f.IsRead) (d : Nat) :
    Derives true d (.fields (fs.map (TableField.mapLines origin))) (tokens (commas (fs.map TableField.lexemes)))
      ⟨.punctuation, "\x7d", 0, 0, none⟩ := by
  induction fs with
  | nil => exact .fieldsEnd rfl
  | cons f fs ih =>
    obtain ⟨⟨l, ls, hl, hs⟩, hf⟩ := h f (by simp)
    cases fs with
    | nil =>
      refine .fieldsLast ?_ (hf _ d (Level.closes_mark (by decide)) rfl) rfl rfl
      simpa [commas, hl] using hs
    | cons g gs =>
      have hrest := ih fun g hg => h g (by simp [hg])
      have hfirst := hf ⟨.punctuation, ",", 0, 0, none⟩ d (Level.closes_mark (by decide)) rfl
      simp only [List.map_cons] at hrest ⊢
      rw [commas_cons_cons, tokens_append, tokens_cons, token_mark]
      exact .fieldsCons (by simpa [hl] using hs) hfirst (.inl rfl) hrest

theorem Expr.IsRead.table {fields : List TableField} (h : ∀ f ∈ fields, f.IsRead) : (Expr.table fields).IsRead := by
  refine ofPrimary rfl (by rw [Expr.lexemes]) rfl fun next d => ?_
  rw [Expr.lexemes, Expr.mapLines, tokens_cons, tokens_append, TableField.lexemesAll_eq, TableField.mapLinesAll_eq]
  exact .table rfl rfl (derives_fields h d) rfl

theorem IsParams.paramNames {names : List String} (hne : names ≠ []) (h : IsParams names) :
    ParamNames names (tokens (commas (names.map fun s => [param s]))) ⟨.punctuation, ")", 0, 0, none⟩ := by
  induction names with
  | nil => exact absurd rfl hne
  | cons s names ih =>
    cases names with
    | nil =>
      rcases h with h | rfl
      · have hlast : ParamNames [s] [⟨.identifier, s, 0, 0, none⟩] ⟨.punctuation, ")", 0, 0, none⟩ :=
          .last (t := ⟨.identifier, s, 0, 0, none⟩) rfl rfl
        simpa [commas, param, h.ne_ellipsis] using hlast
      · exact .ellipsis rfl
    | cons t names =>
      obtain ⟨hs, hrest⟩ := h
      have hnames := ih (by simp) hrest
      simp only [List.map_cons] at hnames ⊢
      rw [commas_cons_cons, tokens_append, tokens_cons, tokens_cons, tokens_nil, param, if_neg hs.ne_ellipsis,
        token_name, token_mark]
      exact .cons (t := ⟨.identifier, s, 0, 0, none⟩) rfl rfl hnames

theorem ParamNames.head {names : List String} {ts : List Token} {next : Token} (h : ParamNames names ts next)
    (u : Token) : (ts.headD u).is ")" = false := by
  cases h with
  | ellipsis ht => exact Token.is_eq_false ht (by decide)
  | last ht _ => exact Token.is_eq_false_of_isName ht _
  | cons ht _ _ => exact Token.is_eq_false_of_isName ht _

theorem IsParams.derives {names : List String} (h : IsParams names) (next : Token) :
    Params names (tokens (params names)) next := by
  rw [params, tokens_cons, tokens_append, token_mark, tokens_cons, tokens_nil, token_mark]
  by_cases hne : names = []
  · subst hne
    exact .none rfl rfl
  · exact .some rfl ((h.paramNames hne).head _) (h.paramNames hne) rfl

/-- The printed conditional is read back from behind its keyword. -/
def Action.TailRead : Action → Prop
  | .conditional condition consequent rest => ∀ next d,
    Derives true d (.tail 0 (.mk 0 ((Action.conditional condition consequent rest).mapLines origin)))
      (tokens (condition.lexemes ++ keyword "then" :: (Stmt.lexemesAll consequent ++ Action.alternateLexemes rest)))
        next
  | _ => True

/-- Does the statement end in an expression? -/
def Action.endsOpen : Action → Bool
  | .declare _ value => value.isSome
  | .assign .. | .evaluate _ => true
  | .giveBack values => !values.isEmpty
  | _ => false

/-- The statement is over before the token: the token carries on no expression at its end, and is no value
for a `return` without any. -/
def Action.EndsBefore (a : Action) (next : Token) : Prop :=
  (next.endsStmt = true ∨ a.endsOpen = false ∧ next.bridges = true) ∧ (a = .giveBack [] → next.closesReturn = true)

namespace Action.EndsBefore

variable {a : Action} {next : Token}

theorem endsStmt (h : a.EndsBefore next) (ho : a.endsOpen = true) : next.endsStmt = true :=
  h.1.resolve_right fun hbridge => by simp [ho] at hbridge

theorem is (h : a.EndsBefore next) {s : String} (hs : s ∈ [";", "="]) : next.is s = false := by
  have hjoint : ∀ s ∈ [";", "="], s ∈ Token.joints := by decide
  rcases h.1 with hends | ⟨-, hbridge⟩
  · exact Token.is_of_endsStmt hends (hjoint s hs)
  · exact Token.is_of_bridges hbridge hs

end Action.EndsBefore

/-- The printed statement is read back from in front of anything that ends it. -/
structure Action.IsRead (a : Action) : Prop where
  head : ∃ l ls, a.lexemes = l :: ls ∧ (l.token ⟨0, 0⟩).opensStmt = true
  whole : ∀ next d, a.EndsBefore next →
    Derives true d (.stmt (some (.mk 0 (a.mapLines origin)))) (tokens a.lexemes) next
  tail : a.TailRead

def Stmt.IsRead (s : Stmt) : Prop := s.action.IsRead

theorem Stmt.mapLines_origin (s : Stmt) : s.mapLines origin = .mk 0 (s.action.mapLines origin) := by
  cases s
  rfl

theorem Stmt.lexemes_eq (s : Stmt) : s.lexemes = s.action.lexemes := by
  cases s
  rw [Stmt.lexemes, Stmt.action]

namespace Token

theorem endsStmt_of_closesBlock {t : Token} {stops : List String} (hs : ∀ s ∈ stops, s ∈ closers)
    (h : t.closesBlock stops = true) : t.endsStmt = true := by
  simp only [closesBlock, Bool.or_eq_true, List.any_eq_true] at h
  simp only [endsStmt, Bool.or_eq_true, List.any_eq_true]
  rcases h with h | ⟨s, hm, h⟩
  · exact .inl (.inr h)
  · exact .inr ⟨s, by simpa [closers, or_comm, or_left_comm] using hs s hm, h⟩

theorem closesReturn_of_closesBlock {t : Token} {stops : List String} (hs : ∀ s ∈ stops, s ∈ closers)
    (h : t.closesBlock stops = true) : t.closesReturn = true := by
  have hsub : ∀ s ∈ closers, s ∈ ["end", "else", "elseif", "until", ";"] := by decide
  simp only [closesReturn, closesBlock, Bool.or_eq_true, List.any_eq_true] at h ⊢
  rcases h with h | ⟨s, hm, h⟩
  · exact .inl h
  · exact .inr ⟨s, hsub s (hs s hm), h⟩

theorem endsStmt_of_startsStmt {t : Token} (h : t.startsStmt = true) : t.endsStmt = true := by
  simp [endsStmt, h]

end Token

/-- Each statement is over before the first token of the next one. -/
def Stmt.Apart (ss : List Stmt) : Prop :=
  ss.IsChain fun s t => ∀ l ls, t.action.lexemes = l :: ls → s.action.EndsBefore (l.token ⟨0, 0⟩)

theorem derives_stmts {stops : List String} (hstops : ∀ s ∈ stops, s ∈ Token.closers) {ss : List Stmt}
    (h : ∀ s ∈ ss, s.IsRead) (hr : Stmt.Apart ss) {next : Token} (hn : next.closesBlock stops = true) (d : Nat) :
    Derives true d (.stmts stops (ss.map (Stmt.mapLines origin))) (tokens (Stmt.lexemesAll ss)) next := by
  induction ss with
  | nil => exact .stmtsEnd hn
  | cons s ss ih =>
    have hs := h s (by simp)
    obtain ⟨l, ls, hl, hstart⟩ := hs.head
    obtain ⟨hfirst, hchain⟩ := List.isChain_cons.mp hr
    have hrest := ih (fun s hs => h s (by simp [hs])) hchain
    rw [Stmt.lexemesAll, tokens_append, List.map_cons, Stmt.mapLines_origin, Stmt.lexemes_eq]
    refine .stmtsCons ?_ (hs.whole _ d ?_) hrest
    · rw [hl]
      exact Token.closesBlock_of_opensStmt hstart hstops
    · cases ss with
      | nil =>
        exact ⟨.inl (Token.endsStmt_of_closesBlock hstops hn), fun _ => Token.closesReturn_of_closesBlock hstops hn⟩
      | cons u us =>
        obtain ⟨m, ms, hm, -⟩ := (h u (by simp)).head
        rw [Stmt.lexemesAll, Stmt.lexemes_eq, hm]
        exact hfirst u rfl m ms hm

theorem derives_body {ss : List Stmt} (h : ∀ s ∈ ss, s.IsRead) (hr : Stmt.Apart ss) (next : Token) (d : Nat) :
    Derives true d (.body (Stmt.mapLinesAll origin ss)) (tokens (Stmt.lexemesAll ss ++ [keyword "end"])) next := by
  rw [tokens_append, tokens_cons, tokens_nil, token_keyword, Stmt.mapLinesAll_eq]
  exact .body (.block (.inl rfl) (derives_stmts (by decide) h hr rfl (d + 1))) (.inl ⟨_, rfl, rfl⟩)

theorem Expr.IsRead.function {names : List String} {body : List Stmt} (hp : IsParams names)
    (h : ∀ s ∈ body, s.IsRead) (hr : Stmt.Apart body) : (Expr.function names body).IsRead := by
  refine ofPrimary rfl (by rw [Expr.lexemes]) rfl fun next d => ?_
  rw [Expr.lexemes, Expr.mapLines, tokens_cons, token_keyword, List.append_assoc, tokens_append]
  exact .function rfl (hp.derives _) (derives_body h hr next d)

/-- The parts of a function name are read one after the other. -/
theorem IsPath.derives {s : String} {isMethod : Bool} (h : IsPath s isMethod) :
    ∃ m ls, path s = Lexeme.name m :: ls ∧ ∀ w ts next, Path (s, isMethod) w ts next →
      Path (m, false) w (tokens ls ++ ts) next := by
  induction h with
  | name h => exact ⟨_, [], h.path_eq, fun w ts next hw => hw⟩
  | @dot p s hp h ih =>
    obtain ⟨m, ls, hm, hw⟩ := ih
    refine ⟨m, ls ++ [operator ".", Lexeme.name s], by rw [hp.path_dot h, hm]; rfl, fun w ts next hrest => ?_⟩
    have := hw w (⟨.operator, ".", 0, 0, none⟩ :: ⟨.identifier, s, 0, 0, none⟩ :: ts) next (.dot rfl rfl hrest)
    simpa using this
  | @colon p s hp h ih =>
    obtain ⟨m, ls, hm, hw⟩ := ih
    refine ⟨m, ls ++ [mark ":", Lexeme.name s], by rw [hp.path_colon h, hm]; rfl, fun w ts next hrest => ?_⟩
    have := hw w (⟨.punctuation, ":", 0, 0, none⟩ :: ⟨.identifier, s, 0, 0, none⟩ :: ts) next (.colon rfl rfl hrest)
    simpa using this

theorem IsPath.eq_false_of_isName {s : String} {isMethod : Bool} (h : IsPath s isMethod) (hs : IsName s) :
    isMethod = false := by
  cases h with
  | name | dot => rfl
  | colon hp h =>
    have hlen := congrArg List.length ((hp.path_colon h).symm.trans hs.path_eq)
    simp at hlen

theorem maybe_keyword (s : String) (next : Token) : Maybe s [⟨.keyword, s, 0, 0, none⟩] next :=
  .inl ⟨_, by simp [Token.is], rfl⟩

theorem moreNames (names : List String) :
    ∀ s, ∃ ts, tokens (commas ((s :: names).map fun s => [name s])) = ⟨.identifier, s, 0, 0, none⟩ :: ts ∧
      MoreNames names ts ⟨.keyword, "in", 0, 0, none⟩ ∧ (ts.headD ⟨.keyword, "in", 0, 0, none⟩).is "=" = false := by
  induction names with
  | nil => exact fun s => ⟨[], by simp [commas], .done rfl, rfl⟩
  | cons r names ih =>
    intro s
    obtain ⟨ts, hts, hmore, -⟩ := ih r
    refine ⟨⟨.punctuation, ",", 0, 0, none⟩ :: ⟨.identifier, r, 0, 0, none⟩ :: ts, ?_,
      .cons (m := ⟨.identifier, r, 0, 0, none⟩) rfl rfl hmore, rfl⟩
    rw [List.map_cons] at hts
    rw [List.map_cons, List.map_cons, commas_cons_cons, tokens_append, tokens_cons, tokens_cons, hts]
    simp

namespace Action.IsRead

theorem declare {s : String} {value : Option Expr} (h : ∀ e ∈ value, e.IsRead) : (Action.declare s value).IsRead := by
  cases value with
  | none =>
    refine ⟨⟨_, _, by rw [Action.lexemes], by decide⟩, fun next d hn => ?_, trivial⟩
    rw [Action.lexemes, Action.mapLines, tokens_cons, tokens_cons, token_keyword, token_name]
    exact .declare (m := ⟨.identifier, s, 0, 0, none⟩) (t := ⟨.keyword, "local", 0, 0, none⟩) rfl rfl
      (hn.is (by decide))
  | some e =>
    refine ⟨⟨_, _, by rw [Action.lexemes], by decide⟩, fun next d hn => ?_, trivial⟩
    rw [Action.lexemes, Action.mapLines, tokens_cons, tokens_cons, tokens_cons, token_keyword, token_name,
      token_operator]
    exact .declareAs (m := ⟨.identifier, s, 0, 0, none⟩) (t := ⟨.keyword, "local", 0, 0, none⟩) rfl rfl rfl
      ((h e rfl).nested (Token.closes_of_endsStmt (hn.endsStmt rfl)) d)

theorem define {s : String} {names : List String} {body : List Stmt} {isLocal isMethod : Bool} (hs : IsPath s isMethod)
    (hloc : isLocal = true → IsName s) (hp : IsParams names) (h : ∀ s ∈ body, s.IsRead) (hr : Stmt.Apart body) :
    (Action.define s names body isLocal isMethod).IsRead := by
  have hbody := derives_body h hr
  cases isLocal with
  | true =>
    refine ⟨⟨keyword "local", _, by rw [Action.lexemes]; rfl, by decide⟩, fun next d _ => ?_, trivial⟩
    obtain rfl := hs.eq_false_of_isName (hloc rfl)
    rw [Action.lexemes, Action.mapLines, if_pos rfl, (hloc rfl).path_eq]
    simp only [List.cons_append, List.nil_append, tokens_cons, token_keyword, token_name]
    rw [List.append_assoc, tokens_append]
    exact .localFunction (t := ⟨.keyword, "local", 0, 0, none⟩) (m := ⟨.identifier, s, 0, 0, none⟩) rfl rfl rfl
      (hp.derives _) (hbody next d)
  | false =>
    refine ⟨⟨keyword "function", _, by rw [Action.lexemes]; rfl, by decide⟩, fun next d _ => ?_, trivial⟩
    obtain ⟨m, ls, hm, hpath⟩ := hs.derives
    rw [Action.lexemes, Action.mapLines, hm]
    simp only [Bool.false_eq_true, if_false, List.cons_append, List.nil_append, tokens_cons, token_keyword, token_name]
    rw [List.append_assoc, List.append_assoc, tokens_append, tokens_append]
    have hend : Path (s, isMethod) (s, isMethod) []
        ((tokens (params names) ++ tokens (Stmt.lexemesAll body ++ [keyword "end"])).headD next) :=
      .done (.inr ⟨rfl, rfl⟩)
    have hpath := hpath _ _ _ hend
    rw [List.append_nil] at hpath
    exact .define (t := ⟨.keyword, "function", 0, 0, none⟩) (m := ⟨.identifier, m, 0, 0, none⟩) rfl rfl
      hpath (hp.derives _) (hbody next d)

theorem whileLoop {condition : Expr} {body : List Stmt} (hc : condition.IsRead) (h : ∀ s ∈ body, s.IsRead)
    (hr : Stmt.Apart body) : (Action.whileLoop condition body).IsRead := by
  refine ⟨⟨_, _, by rw [Action.lexemes], by decide⟩, fun next d _ => ?_, trivial⟩
  rw [Action.lexemes, Action.mapLines, tokens_cons, tokens_append, tokens_cons, token_keyword, token_keyword]
  exact Derives.whileLoop (t := ⟨.keyword, "while", 0, 0, none⟩) rfl
    (hc.nested (Level.closes_keyword (by decide)) d) (maybe_keyword "do" _) (derives_body h hr next d)

theorem forLoop {counter : String} {first last : Expr} {step : Option Expr} {body : List Stmt} (hf : first.IsRead)
    (hl : last.IsRead) (hs : ∀ e ∈ step, e.IsRead) (h : ∀ s ∈ body, s.IsRead) (hr : Stmt.Apart body) :
    (Action.forLoop counter first last step body).IsRead := by
  have hfirst := hf.nested (Level.closes_mark (s := ",") (by decide))
  cases step with
  | none =>
    refine ⟨⟨_, _, by rw [Action.lexemes], by decide⟩, fun next d _ => ?_, trivial⟩
    have hlast := hl.nested (Level.closes_keyword (s := "do") (by decide)) d
    rw [Action.lexemes, Action.mapLines]
    simp only [tokens_cons, tokens_append (first.lexemes), tokens_append (last.lexemes), token_keyword, token_name,
      token_operator, token_mark]
    have hstep : Derives true d (.step none) [] ⟨.keyword, "do", 0, 0, none⟩ := .noStep rfl
    exact Derives.forLoop (t := ⟨.keyword, "for", 0, 0, none⟩) (m := ⟨.identifier, counter, 0, 0, none⟩)
      (u := ⟨.operator, "=", 0, 0, none⟩) rfl rfl rfl (hfirst d) rfl hlast hstep (maybe_keyword "do" _)
      (derives_body h hr next d)
  | some e =>
    refine ⟨⟨_, _, by rw [Action.lexemes], by decide⟩, fun next d _ => ?_, trivial⟩
    have hlast := hl.nested (Level.closes_mark (s := ",") (by decide)) d
    have hstep : Derives true d (.step (some (e.mapLines origin))) (⟨.punctuation, ",", 0, 0, none⟩ :: tokens e.lexemes)
        ⟨.keyword, "do", 0, 0, none⟩ := .step rfl ((hs e rfl).nested (Level.closes_keyword (by decide)) d)
    rw [Action.lexemes, Action.mapLines]
    simp only [tokens_cons, tokens_append (first.lexemes), tokens_append (last.lexemes), tokens_append (e.lexemes),
      token_keyword, token_name, token_operator, token_mark]
    exact Derives.forLoop (t := ⟨.keyword, "for", 0, 0, none⟩) (m := ⟨.identifier, counter, 0, 0, none⟩)
      (u := ⟨.operator, "=", 0, 0, none⟩) rfl rfl rfl (hfirst d) rfl hlast hstep (maybe_keyword "do" _)
      (derives_body h hr next d)

theorem forEach {names : List String} {iterable : Expr} {body : List Stmt} (hne : names ≠ []) (hi : iterable.IsRead)
    (h : ∀ s ∈ body, s.IsRead) (hr : Stmt.Apart body) : (Action.forEach names iterable body).IsRead := by
  refine ⟨⟨_, _, by rw [Action.lexemes], by decide⟩, fun next d _ => ?_, trivial⟩
  cases names with
  | nil => exact absurd rfl hne
  | cons s names =>
    obtain ⟨ts, hts, hmore, heq⟩ := moreNames names s
    rw [Action.lexemes, Action.mapLines, tokens_cons, tokens_append, hts]
    simp only [tokens_cons, tokens_append (iterable.lexemes), token_keyword]
    exact Derives.forEach (t := ⟨.keyword, "for", 0, 0, none⟩) (m := ⟨.identifier, s, 0, 0, none⟩) rfl rfl heq hmore rfl
      (hi.nested (Level.closes_keyword (by decide)) d) (maybe_keyword "do" _) (derives_body h hr next d)

theorem giveBack {values : List Expr} (h : ∀ e ∈ values, e.IsRead) : (Action.giveBack values).IsRead := by
  refine ⟨⟨_, _, by rw [Action.lexemes], by decide⟩, fun next d hn => ?_, trivial⟩
  have hsemi : Maybe ";" [] next := .inr ⟨rfl, hn.is (by decide)⟩
  rw [Action.lexemes, Action.mapLines, tokens_cons, token_keyword, Expr.lexemesAll_eq, Expr.mapLinesAll_eq]
  by_cases hne : values = []
  · subst hne
    exact .giveNothing (t := ⟨.keyword, "return", 0, 0, none⟩) rfl (hn.2 rfl) hsemi
  · have hread : ∀ e ∈ values, e.ReadFrom e.lexemes := fun e he => (h e he).readFrom
    obtain ⟨t, ts, ht, hs⟩ := startsExpr_commas hne hread
    have hclose : ((tokens (commas (values.map Expr.lexemes))).headD next).closesReturn = false := by
      rw [ht, List.headD_cons, Token.closesReturn, Token.closesBlock, Token.isEof_of_startsExpr hs, Bool.false_or,
        List.any_eq_false]
      intro s hm
      have hsub : ∀ s ∈ ["end", "else", "elseif", "until", ";"],
        s ∈ [")", "]", "\x7d", "[", ",", ";", "=", "end", "else", "elseif", "until"] := by decide
      simp [Token.is_of_startsExpr hs (hsub s hm)]
    have hends := hn.endsStmt (by simpa [Action.endsOpen] using hne)
    have := Derives.giveBack (t := ⟨.keyword, "return", 0, 0, none⟩) rfl hclose
      (derives_exprs hne hread (Token.closes_of_endsStmt hends) (Token.is_of_endsStmt hends (by decide)) d) hsemi
    simpa using this

theorem leaveLoop : Action.leaveLoop.IsRead :=
  ⟨⟨_, _, by rw [Action.lexemes], by decide⟩, fun _ _ _ => .leaveLoop (t := ⟨.keyword, "break", 0, 0, none⟩) rfl,
    trivial⟩

theorem evaluate {e : Expr} (h : e.IsRead)
    (hf : ∀ l ls, e.lexemes = l :: ls → (l.token ⟨0, 0⟩).is "function" = false) : (Action.evaluate e).IsRead := by
  obtain ⟨l, ls, hl, hs, -⟩ := e.opens_lexemes
  obtain ⟨hs, ho⟩ := Token.opensStmt_of_startsExpr hs (hf l ls hl)
  refine ⟨⟨l, ls, by rw [Action.lexemes, hl], hs⟩, fun next d hn => ?_, trivial⟩
  have hends := hn.endsStmt rfl
  rw [Action.lexemes, Action.mapLines]
  have hline : ((tokens e.lexemes).headD next).line = 0 := by rw [hl]; rfl
  have := Derives.evaluate (by rw [hl]; exact ho) (by rw [hl]; exact Token.is_of_opensStmt hs (by decide))
    (h.nested (Token.closes_of_endsStmt hends) d) (Token.assignOp?_of_endsStmt hends)
  rwa [hline] at this

theorem assign {target value : Expr} {op : AssignOp} (ht : target.IsRead) (hv : value.IsRead)
    (hf : ∀ l ls, target.lexemes = l :: ls → (l.token ⟨0, 0⟩).is "function" = false)
    (hassign : target.isAssignable = true) : (Action.assign target op value).IsRead := by
  obtain ⟨l, ls, hl, hs, -⟩ := target.opens_lexemes
  obtain ⟨hs, ho⟩ := Token.opensStmt_of_startsExpr hs (hf l ls hl)
  refine ⟨⟨l, _, by rw [Action.lexemes, hl]; rfl, hs⟩, fun next d hn => ?_, trivial⟩
  rw [Action.lexemes, Action.mapLines, tokens_append, tokens_cons, token_operator]
  have hclose : Level.or.Closes ⟨.operator, op.symbol, 0, 0, none⟩ :=
    Level.closes_of_is (s := op.symbol) (by simp [Token.is]) (by cases op <;> decide)
  have hline : ((tokens target.lexemes).headD ⟨.operator, op.symbol, 0, 0, none⟩).line = 0 := by rw [hl]; rfl
  have hop : Token.assignOp? ⟨.operator, op.symbol, 0, 0, none⟩ = some op := by cases op <;> rfl
  have := Derives.assign (by rw [hl]; exact ho) (by rw [hl]; exact Token.is_of_opensStmt hs (by decide))
    (ht.nested hclose d) hop (by rw [Parser.isAssignable_mapLines, hassign])
    (hv.nested (Token.closes_of_endsStmt (hn.endsStmt rfl)) d)
  rwa [hline] at this

theorem tail_conditional {condition : Expr} {consequent : List Stmt} {rest : Option (List Stmt)}
    (hc : condition.IsRead) (h : ∀ s ∈ consequent, s.IsRead) (hr : Stmt.Apart consequent)
    (halt : ∀ body ∈ rest, (∀ s ∈ body, s.IsRead) ∧ Stmt.Apart body) :
    (Action.conditional condition consequent rest).TailRead := by
  intro next d
  have hcond := hc.nested (Level.closes_keyword (s := "then") (by decide)) d
  have hblock (t : Token) (ht : t.closesBlock ["else", "elseif", "end"] = true) :
      Derives true d (.block ["else", "elseif", "end"] (Stmt.mapLinesAll origin consequent))
        (tokens (Stmt.lexemesAll consequent)) t := by
    rw [Stmt.mapLinesAll_eq]
    exact .block (.inl rfl) (derives_stmts (by decide) h hr ht (d + 1))
  rw [Action.mapLines, tokens_append, tokens_cons, token_keyword, tokens_append]
  rcases alternateLexemes_cases rest with ⟨rfl, hls⟩ | ⟨line, c, ss, r, rfl, hls⟩ | ⟨body, rfl, hls⟩
  · rw [hls, tokens_cons, token_keyword]
    exact .tailEnd hcond (maybe_keyword "then" _) (hblock _ rfl) rfl rfl (maybe_keyword "end" _)
  · have htail := ((halt _ rfl).1 _ List.mem_cons_self).tail next d
    rw [hls, tokens_cons, token_keyword, Stmt.mapLinesOption]
    exact .tailElseif (t := ⟨.keyword, "elseif", 0, 0, none⟩) hcond (maybe_keyword "then" _) (hblock _ rfl) rfl htail
  · obtain ⟨hbody, hret⟩ := halt body rfl
    rw [hls, tokens_cons, token_keyword, Stmt.mapLinesOption]
    exact .tailElse hcond (maybe_keyword "then" _) (hblock _ rfl) rfl (derives_body hbody hret next d)

theorem conditional {condition : Expr} {consequent : List Stmt} {rest : Option (List Stmt)}
    (hc : condition.IsRead) (h : ∀ s ∈ consequent, s.IsRead) (hr : Stmt.Apart consequent)
    (halt : ∀ body ∈ rest, (∀ s ∈ body, s.IsRead) ∧ Stmt.Apart body) :
    (Action.conditional condition consequent rest).IsRead := by
  have htail := tail_conditional hc h hr halt
  refine ⟨⟨_, _, by rw [Action.lexemes], by decide⟩, fun next d _ => ?_, htail⟩
  rw [Action.lexemes, tokens_cons, token_keyword]
  exact .conditional (t := ⟨.keyword, "if", 0, 0, none⟩) rfl (htail next d)

end Action.IsRead

/-- The first token of a statement's text. -/
def Action.leadToken (a : Action) : Token :=
  (tokenize (Printer.actionText defaultIndent 0 a)).headD (.endOfInput 0 0)

theorem Action.is_leadToken {a : Action} (ha : a.IsSpelled defaultIndent) {l : Lexeme} {ls : List Lexeme}
    (hl : a.lexemes = l :: ls) (s : String) : a.leadToken.is s = (l.token ⟨0, 0⟩).is s := by
  have hspells := ha.1 0 0 none rfl
  rw [Printer.stmt, Stmt.lexemes] at hspells
  have htokens := hspells.map_unplaced_tokenize 1
  rw [hl, List.map_cons, List.cons_append, List.map_eq_cons_iff] at htokens
  obtain ⟨t, ts, hts, ht, -⟩ := htokens
  rw [Action.leadToken, hts, ← ht]
  rfl

theorem Action.bridges_leadToken {a : Action} (ha : a.IsSpelled defaultIndent) {l : Lexeme} {ls : List Lexeme}
    (hl : a.lexemes = l :: ls) : a.leadToken.bridges = (l.token ⟨0, 0⟩).bridges := by
  simp only [Token.bridges, List.any_cons, List.any_nil, Action.is_leadToken ha hl]

/-- Rules that keep the statements of a printed program apart: only a definition starts with `function`, and each
statement of a block is over where the next one starts. -/
structure Rules.Separates (R : Rules) : Prop where
  evaluate : ∀ e, R.action (.evaluate e) → (Action.evaluate e).leadToken.is "function" = false
  assign : ∀ target op value, R.action (.assign target op value) →
    (Action.assign target op value).leadToken.is "function" = false
  block : ∀ ss, (∀ s ∈ ss, s.IsRead) → (∀ s ∈ ss, s.Every printable) → (∀ s ∈ ss, s.Every R) → R.block ss →
    Stmt.Apart ss

/-- A text whose tokens stand for a program is read as this program, up to the lines, unless it is too deep. -/
theorem Program.parse_of_derives {p : Program} {text : String} {firstLine : Nat} {ls : List Lexeme}
    (hmap : (tokenize text firstLine).map (Token.moved origin origin) = tokens ls ++ [.endOfInput 0 0])
    (h : Derives true 0 (.stmts [] (Program.mapLines origin p)) (tokens ls) (.endOfInput 0 0)) :
    (∃ line, Program.parse (tokenize text firstLine) = .error (.tooDeep maxDepth line)) ∨
      ∃ q, Program.parse (tokenize text firstLine) = .ok q ∧ Program.mapLines origin q = Program.mapLines origin p := by
  obtain ⟨ts, us, htokens, -, hus⟩ := List.map_eq_append_iff.mp hmap
  obtain ⟨stop, rfl, hstop⟩ := List.map_eq_singleton_iff.mp hus
  have heof : stop.isEof = true := by rw [← Token.isEof_moved origin origin, hstop]; rfl
  have hmoved := @Program.parse_moved origin origin ts stop heof
  rw [← htokens, hmap] at hmoved
  rcases Derives.parse rfl h with hok | ⟨-, line, herror⟩
  · rw [hok] at hmoved
    cases hparse : Program.parse (tokenize text firstLine) with
    | error e => rw [hparse] at hmoved; cases hmoved
    | ok q =>
      rw [hparse] at hmoved
      exact .inr ⟨q, rfl, (Except.ok.inj hmoved).symm⟩
  · rw [herror] at hmoved
    cases hparse : Program.parse (tokenize text firstLine) with
    | ok q => rw [hparse] at hmoved; cases hmoved
    | error e =>
      rw [hparse] at hmoved
      cases e with
      | tooDeep limit line =>
        obtain ⟨rfl, -⟩ := ParseError.tooDeep.inj (Except.error.inj hmoved)
        exact .inl ⟨line, rfl⟩
      | _ => cases hmoved

section Separates

variable {R : Rules} (hR : R.Separates)
include hR

/-- The statements of a block are read back if each of them is. -/
theorem Rules.Separates.body {ss : List Stmt} (ih : ∀ s ∈ ss, s.Every printable → s.Every R → s.IsRead)
    (h : Stmt.EveryAll printable ss) (h' : R.block ss ∧ Stmt.EveryAll R ss) :
    (∀ s ∈ ss, s.IsRead) ∧ Stmt.Apart ss := by
  rw [Stmt.everyAll_iff] at h
  have hall := Stmt.everyAll_iff.mp h'.2
  have hread : ∀ s ∈ ss, s.IsRead := fun s hs => ih s hs (h s hs) (hall s hs)
  exact ⟨hread, hR.block ss hread h hall h'.1⟩

/-- Every printable tree whose statements are kept apart is read back. -/
theorem Rules.Separates.cases :
    SyntaxCases (fun e => e.Every printable → e.Every R → e.IsRead)
      (fun f => f.Every printable → f.Every R → f.IsRead)
      (fun a => a.Every printable → a.Every R → a.IsRead)
      (fun s => s.Every printable → s.Every R → s.IsRead) where
  identifier s _ _ := .identifier s
  string value quote _ _ := .string value quote
  number text _ _ := .number text
  bool value _ _ := .bool value
  nil _ _ := .nil
  vararg _ _ := .vararg
  binary _ _ _ ihl ihr h h' := .binary (ihl h.2.1 h'.2.1) (ihr h.2.2 h'.2.2)
  unary _ _ ih h h' := .unary (ih h.2 h'.2)
  call _ _ ihc iha h h' := .call (ihc h.2.1 h'.2.1) fun e he =>
    iha e he (Expr.everyAll_iff.mp h.2.2 e he) (Expr.everyAll_iff.mp h'.2.2 e he)
  methodCall _ _ _ iho iha h h' := .methodCall (iho h.2.1 h'.2.1) fun e he =>
    iha e he (Expr.everyAll_iff.mp h.2.2 e he) (Expr.everyAll_iff.mp h'.2.2 e he)
  member _ _ ih h h' := .member (ih h.2 h'.2)
  index _ _ iho ihk h h' := .index (iho h.2.1 h'.2.1) (ihk h.2.2 h'.2.2)
  table _ ih h h' := .table fun f hf =>
    ih f hf (TableField.everyAll_iff.mp h.2 f hf) (TableField.everyAll_iff.mp h'.2 f hf)
  function _ _ ih h h' :=
    have hread := hR.body ih h.2.2 h'.2
    .function h.1 hread.1 hread.2
  named _ _ ih h h' := .named (ih h.2 h'.2)
  keyed _ _ ihk ihv h h' := .keyed (ihk h.2.1 h'.2.1) (ihv h.2.2 h'.2.2)
  positional _ ih h h' := .positional (ih h.2 h'.2)
  declare _ _ ih h h' := .declare fun e he =>
    ih e he (Expr.everyOption_iff.mp h.2 e he) (Expr.everyOption_iff.mp h'.2 e he)
  assign target op value iht ihv h h' := by
    have hspelled : (Action.assign target op value).IsSpelled defaultIndent := (printable_cases rfl).action _ h
    refine .assign (iht h.2.1 h'.2.1) (ihv h.2.2 h'.2.2) (fun l ls hl => ?_) h.1
    rw [← Action.is_leadToken hspelled (by rw [Action.lexemes, hl]; rfl)]
    exact hR.assign target op value h'.1
  define _ _ _ _ _ ih h h' :=
    have hread := hR.body ih h.2.2 h'.2
    .define h.1.1 h.1.2.1 h.1.2.2 hread.1 hread.2
  conditional _ _ _ ihc iht ihr h h' := by
    have hthen := hR.body iht h.2.2.1.2 h'.2.2.1
    refine .conditional (ihc h.2.1 h'.2.1) hthen.1 hthen.2 fun body hb => ?_
    have halt := Stmt.everyOption_iff.mp h.2.2.2 body hb
    have halt' := Stmt.everyOption_iff.mp h'.2.2.2 body hb
    exact hR.body (ihr body hb) (Stmt.everyAll_iff.mpr halt.2) ⟨halt'.1, Stmt.everyAll_iff.mpr halt'.2⟩
  whileLoop _ _ ihc ihb h h' :=
    have hread := hR.body ihb h.2.2.2 h'.2.2
    .whileLoop (ihc h.2.1 h'.2.1) hread.1 hread.2
  forLoop _ _ _ _ _ ihf ihl ihs ihb h h' :=
    have hread := hR.body ihb h.2.2.2.2.2 h'.2.2.2.2
    .forLoop (ihf h.2.1 h'.2.1) (ihl h.2.2.1 h'.2.2.1)
      (fun e he => ihs e he (Expr.everyOption_iff.mp h.2.2.2.1 e he) (Expr.everyOption_iff.mp h'.2.2.2.1 e he))
      hread.1 hread.2
  forEach _ _ _ ihi ihb h h' :=
    have hread := hR.body ihb h.2.2.2 h'.2.2
    .forEach h.1.1 (ihi h.2.1 h'.2.1) hread.1 hread.2
  giveBack _ ih h h' := .giveBack fun e he =>
    ih e he (Expr.everyAll_iff.mp h.2 e he) (Expr.everyAll_iff.mp h'.2 e he)
  leaveLoop _ _ := .leaveLoop
  evaluate e ih h h' := by
    have hspelled : (Action.evaluate e).IsSpelled defaultIndent := (printable_cases rfl).action _ h
    refine .evaluate (ih h.2 h'.2) fun l ls hl => ?_
    rw [← Action.is_leadToken hspelled (by rw [Action.lexemes, hl])]
    exact hR.evaluate e h'.1
  stmt _ _ ih h h' := ih h h'

theorem Program.derives_of_separates {p : Program} (h : Program.Every printable p) (h' : Program.Every R p) :
    Derives true 0 (.stmts [] (p.mapLines origin)) (tokens (Stmt.lexemesAll p)) (.endOfInput 0 0) := by
  obtain ⟨hall, hapart⟩ := hR.body (fun s _ => hR.cases.statement s) h.2 h'
  rw [Program.mapLines, Stmt.mapLinesAll_eq]
  exact derives_stmts (by simp) hall hapart rfl 0

/-- A text that spells the lexemes of a program whose statements are kept apart is read as this program, up to
the lines, unless it is too deep. -/
theorem Program.parse_of_separates {p : Program} (h : Program.Every printable p) (h' : Program.Every R p)
    {text : String} (hs : Spells text.toList (Stmt.lexemesAll p) none) (firstLine : Nat) :
    (∃ line, Program.parse (tokenize text firstLine) = .error (.tooDeep maxDepth line)) ∨
      ∃ q, Program.parse (tokenize text firstLine) = .ok q ∧ Program.mapLines origin q = Program.mapLines origin p :=
  Program.parse_of_derives (hs.map_unplaced_tokenize firstLine) (Program.derives_of_separates hR h h')

end Separates

/-- Could the text of the statement carry on the statement before it, or be read as another one? -/
def Action.isLoose : Action → Bool
  | .evaluate e => ["(", "-", "function"].any (Action.evaluate e).leadToken.is
  | .assign target op value => ["(", "-", "function"].any (Action.assign target op value).leadToken.is
  | _ => false

/-- Only the last statement of a block is a return without values. -/
def BareReturnLast (ss : List Stmt) : Prop := ∀ s ∈ ss.dropLast, s.action ≠ .giveBack []

/-- What lets the statements of a printed program be told apart: none is loose, a return without values
comes last, and no string ends in an unpaired backslash. -/
def separable : Rules where
  expr
    | .string value _ => dangles value.toList = false
    | _ => True
  action a := a.isLoose = false
  block := BareReturnLast

/-- A statement that is not loose starts with a token that carries on nothing. -/
theorem Action.IsRead.startsStmt {a : Action} (h : a.IsRead) (ha : a.Every printable) (hloose : a.isLoose = false)
    {l : Lexeme} {ls : List Lexeme} (hl : a.lexemes = l :: ls) : (l.token ⟨0, 0⟩).startsStmt = true := by
  obtain ⟨m, ms, hm, hopens⟩ := h.head
  obtain ⟨rfl, rfl⟩ := List.cons.inj (hl.symm.trans hm)
  have hspelled : a.IsSpelled defaultIndent := (printable_cases rfl).action _ ha
  have hbridges : (l.token ⟨0, 0⟩).bridges = false := by
    rw [← Action.bridges_leadToken hspelled hl]
    cases a with
    | evaluate | assign =>
      simp only [Action.isLoose, List.any_cons, List.any_nil, Bool.or_false, Bool.or_eq_false_iff] at hloose
      simp [Token.bridges, hloose]
    | declare _ value =>
      cases value <;> rw [Action.bridges_leadToken hspelled (by rw [Action.lexemes])] <;> rfl
    | define _ _ _ isLocal _ =>
      cases isLocal <;> rw [Action.bridges_leadToken hspelled (by rw [Action.lexemes]; rfl)] <;> rfl
    | forLoop _ _ _ step _ =>
      cases step <;> rw [Action.bridges_leadToken hspelled (by rw [Action.lexemes])] <;> rfl
    | _ => rw [Action.bridges_leadToken hspelled (by rw [Action.lexemes])]; rfl
  rw [Token.opensStmt, hbridges, Bool.or_false] at hopens
  exact hopens

theorem BareReturnLast.isChain {ss : List Stmt} (h : BareReturnLast ss) :
    ss.IsChain fun s _ => s.action ≠ .giveBack [] := by
  induction ss with
  | nil => exact .nil
  | cons s ss ih =>
    cases ss with
    | nil => exact .singleton s
    | cons t ss =>
      exact .cons_cons (h s (by simp)) (ih fun u hu => h u (by simp [hu]))

theorem separable_separates : separable.Separates where
  evaluate e h := by
    simp only [separable, Action.isLoose, List.any_cons, List.any_nil, Bool.or_eq_false_iff] at h
    exact h.2.2.1
  assign target op value h := by
    simp only [separable, Action.isLoose, List.any_cons, List.any_nil, Bool.or_eq_false_iff] at h
    exact h.2.2.1
  block ss hread hp hs hlast := by
    refine hlast.isChain.imp_of_mem_imp fun s t _ ht hbare l ls hl => ⟨.inl ?_, fun hs => absurd hs hbare⟩
    have hstarts := (hread t ht).startsStmt (hp t ht).action_every (hs t ht).action_every.self hl
    exact Token.endsStmt_of_startsStmt hstarts

theorem Program.parse_of_spells {p : Program} (h : Program.Every printable p) (h' : Program.Every separable p)
    {text : String} (hs : Spells text.toList (Stmt.lexemesAll p) none) (firstLine : Nat) :
    (∃ line, Program.parse (tokenize text firstLine) = .error (.tooDeep maxDepth line)) ∨
      ∃ q, Program.parse (tokenize text firstLine) = .ok q ∧ Program.mapLines origin q = Program.mapLines origin p :=
  Program.parse_of_separates separable_separates h h' hs firstLine

end ScriptGraph
