import ScriptGraph.Proofs.Boundaries
import ScriptGraph.Proofs.OpenBlocks
import ScriptGraph.Proofs.PrintedDerivation

namespace ScriptGraph

open Lexeme Token

/-- The lexemes of a text that are no comments. -/
def Lexeme.code (cs : List Char) : List Lexeme := (lexemesOf (pieces cs)).filter (·.kind ≠ .comment)

theorem map_moved_tokenize (s : String) (firstLine : Nat) :
    (tokenize s firstLine).map (Token.moved origin origin) = tokens (code s.toList) ++ [.endOfInput 0 0] := by
  have hplaced : (rawTokens s firstLine).map (Token.moved origin origin) =
      tokens (lexemesOf (pieces s.toList)) ++ [.endOfInput 0 0] := map_unplaced_placed _ _
  have hfilter (ts : List Token) : (ts.filter (·.kind ≠ .comment)).map (Token.moved origin origin) =
      (ts.map (Token.moved origin origin)).filter (·.kind ≠ .comment) := by
    rw [List.filter_map]
    rfl
  rw [tokenize, hfilter, hplaced, List.filter_append, tokens, List.filter_map]
  rfl

theorem Spells.code_eq {cs : List Char} {ls : List Lexeme} (h : Spells cs ls none) : code cs = ls := by
  rw [code, h.lexemesOf_pieces, List.filter_eq_self]
  intro l hl
  exact decide_eq_true (kind_ne_comment_of_whole (h.whole l hl))

theorem Spells.endsLine {cs : List Char} {ls : List Lexeme} (h : Spells cs ls (some '\n')) :
    EndsLine (cs ++ ['\n']) := by
  obtain ⟨ps, rfl, -, hclean⟩ := h
  exact ⟨ps, pieces_append_of_clean ['\n'] hclean⟩

namespace EndsLine

variable {cs : List Char}

theorem code_append (h : EndsLine cs) (rest : List Char) : code (cs ++ rest) = code cs ++ code rest := by
  rw [code, h.pieces_append, lexemesOf_append, List.filter_append]
  rfl

/-- A string that ends before a line break is the same at the end of the text. -/
theorem string_newline {quote : Char} (hq : quote ≠ '\\') (hl : (string quote cs).source = quote :: cs)
    (hloose : (string quote cs).isLoose = true) (hm : (string quote (cs ++ ['\n'])).source = quote :: cs) :
    string quote (cs ++ ['\n']) = string quote cs := by
  have hbody := stringBody_of_isLoose hl hloose
  rw [isLoose_string, Bool.not_eq_true', decide_eq_false_iff_not] at hloose
  have hlen := congrArg List.length hm
  simp only [string, List.cons_append, List.length_cons, List.length_append] at hlen
  have hbody' : cs = stringBody quote (cs ++ ['\n']) :=
    (prefix_stringBody hq hbody ['\n']).eq_of_length_le (by omega)
  have hopen : ¬ ((cs ++ ['\n']).drop (stringBody quote (cs ++ ['\n'])).length).head? = some quote := by
    intro hclose
    rw [if_pos hclose, ← hbody'] at hlen
    simp at hlen
  rw [string, string, if_neg hopen, if_neg hloose, hbody, ← hbody']

theorem kind_of_isLoose {c : Char} {l : Lexeme} (hl : first? c cs = some l) (hloose : l.isLoose = true)
    (hquote : ¬ (c = '"' ∨ c = '\'')) : l.kind = .comment := by
  by_cases hdash : c = '-' ∧ cs.head? = some '-'
  · obtain ⟨rfl, hhead⟩ := hdash
    obtain ⟨ds, rfl⟩ := List.head?_eq_some_iff.mp hhead
    rw [first?_comment] at hl
    rw [← Option.some.inj hl, kind_comment]
  · rw [isLoose_of_first? hl hdash hquote] at hloose
    cases hloose

/-- A line break behind the text is no part of its code. -/
theorem code_newline (h : EndsLine (cs ++ ['\n'])) : code (cs ++ ['\n']) = code cs := by
  have hbreak : startsApart ['\n'] = true := rfl
  rcases pieces_append_cases cs with hstays | ⟨ps, c, ds, l, hl, hsource, hloose, hps, hgoes⟩
  · rw [code, hstays _ hbreak, lexemesOf_append, List.filter_append]
    exact List.append_nil _
  · -- The last lexeme is loose, but does not take in the line break.
    obtain ⟨m, left, hm, htext, hon⟩ := goesOn_of_isLoose hl hsource hloose hbreak (by decide)
    have hpieces : pieces (cs ++ ['\n']) = ps ++ .lexeme m :: pieces left := by
      rw [hgoes _ hbreak, List.cons_append, pieces_cons_lexeme hm, ← htext, List.drop_left]
    have hleft : left = ['\n'] := by
      refine hon.suffix.eq_of_length_le (Nat.succ_le_of_lt (List.length_pos_iff.mpr ?_))
      rintro rfl
      obtain ⟨qs, hqs⟩ := h
      have hlast := (List.append_inj' (hpieces.symm.trans hqs) rfl).2
      cases hlast
    subst hleft
    have hsame : m.source = c :: ds := List.append_cancel_right (htext.trans (List.cons_append ..).symm)
    have hcode : [m].filter (·.kind ≠ .comment) = [l].filter (·.kind ≠ .comment) := by
      by_cases hquote : c = '"' ∨ c = '\''
      · have hq : c ≠ '\\' := by rcases hquote with rfl | rfl <;> decide
        rw [first?_quote hquote, Option.some.injEq] at hl hm
        rw [← hl] at hsource hloose ⊢
        rw [← hm] at hsame ⊢
        rw [string_newline hq hsource hloose hsame]
      · have hkind := kind_of_isLoose hl hloose hquote
        simp [hkind, hon.kind.trans hkind]
    rw [code, hpieces, code, hps, lexemesOf_append, lexemesOf_append, List.filter_append, List.filter_append]
    exact congrArg _ hcode

end EndsLine

namespace Derives

variable {free : Bool} {d : Nat} {ph : Phrase} {ts : List Token} {next : Token}

/-- Without a limit a phrase is read at every depth. -/
theorem freed (h : Derives free d ph ts next) (d : Nat) : Derives true d ph ts next := by
  induction h generalizing d with
  | nested _ _ ih => exact .nested (.inl rfl) (ih _)
  | chained hk _ _ ih ihc => exact .chained hk (ih _) (ihc _)
  | chainEnd h => exact .chainEnd h
  | chainStep ht _ _ _ ih ihc => exact .chainStep ht (.inl rfl) (ih _) (ihc _)
  | concatEnd _ hn ih => exact .concatEnd (ih _) hn
  | concat _ ht _ _ ih ihr => exact .concat (ih _) ht (.inl rfl) (ihr _)
  | unary ht _ _ ih => exact .unary ht (.inl rfl) (ih _)
  | unaryEnd hs _ ih => exact .unaryEnd hs (ih _)
  | powerEnd _ hn ih => exact .powerEnd (ih _) hn
  | power _ ht _ _ ih ihr => exact .power (ih _) ht (.inl rfl) (ihr _)
  | access _ _ ih iht => exact .access (ih _) (iht _)
  | trailEnd h => exact .trailEnd h
  | call _ _ _ ih ihr => exact .call (.inl rfl) (ih _) (ihr _)
  | methodCall _ ht hm _ _ ih ihr => exact .methodCall (.inl rfl) ht hm (ih _) (ihr _)
  | member _ ht hm _ ihr => exact .member (.inl rfl) ht hm (ihr _)
  | index _ ht _ hu _ ih ihr => exact .index (.inl rfl) ht (ih _) hu (ihr _)
  | string ht => exact .string ht
  | number ht => exact .number ht
  | identifier ht => exact .identifier ht
  | trueWord ht => exact .trueWord ht
  | falseWord ht => exact .falseWord ht
  | nilWord ht => exact .nilWord ht
  | vararg hk ht => exact .vararg hk ht
  | parens hk ht _ hu ih => exact .parens hk ht (ih _) hu
  | table hk ht _ hu ih => exact .table hk ht (ih _) hu
  | function ht hp _ ihb => exact .function ht hp (ihb _)
  | one _ hn ih => exact .one (ih _) hn
  | cons _ ht _ ih ihr => exact .cons (ih _) ht (ihr _)
  | noArguments ht hu => exact .noArguments ht hu
  | arguments ht hs _ hu ih => exact .arguments ht hs (ih _) hu
  | keyed ht _ hu hv _ ihk ih => exact .keyed ht (ihk _) hu hv (ih _)
  | named ht hu _ ih => exact .named ht hu (ih _)
  | positional hs hn _ ih => exact .positional hs hn (ih _)
  | fieldsEnd h => exact .fieldsEnd h
  | fieldsLast hs _ hc hn ih => exact .fieldsLast hs (ih _) hc hn
  | fieldsCons hs _ ht _ ih ihr => exact .fieldsCons hs (ih _) ht (ihr _)
  | stmtsEnd h => exact .stmtsEnd h
  | stmtsSkip hs _ _ ih ihr => exact .stmtsSkip hs (ih _) (ihr _)
  | stmtsCons hs _ _ ih ihr => exact .stmtsCons hs (ih _) (ihr _)
  | block _ _ ih => exact .block (.inl rfl) (ih _)
  | body _ he ih => exact .body (ih _) he
  | skip ht => exact .skip ht
  | declare ht hm hn => exact .declare ht hm hn
  | declareAs ht hm hu _ ih => exact .declareAs ht hm hu (ih _)
  | localFunction ht hf hm hp _ ihb => exact .localFunction ht hf hm hp (ihb _)
  | define ht hm hs hp _ ihb => exact .define ht hm hs hp (ihb _)
  | conditional ht _ ih => exact .conditional ht (ih _)
  | whileLoop ht _ hm _ ihc ihb => exact .whileLoop ht (ihc _) hm (ihb _)
  | noStep h => exact .noStep h
  | step ht _ ih => exact .step ht (ih _)
  | forLoop ht hm hu _ hv _ _ hw _ ihf ihl ihs ihb => exact .forLoop ht hm hu (ihf _) hv (ihl _) (ihs _) hw (ihb _)
  | forEach ht hm he hn hu _ hw _ ih ihb => exact .forEach ht hm he hn hu (ih _) hw (ihb _)
  | giveNothing ht hn hu => exact .giveNothing ht hn hu
  | giveBack ht hs _ hu ih => exact .giveBack ht hs (ih _) hu
  | leaveLoop ht => exact .leaveLoop ht
  | evaluate hs hc _ hn ih => exact .evaluate hs hc (ih _) hn
  | assign hs hc _ hu ha _ ih ihv => exact .assign hs hc (ih _) hu ha (ihv _)
  | tailElseif _ hu _ ht _ ihc ihb ihr => exact .tailElseif (ihc _) hu (ihb _) ht (ihr _)
  | tailElse _ hu _ ht _ ihc ihb ihr => exact .tailElse (ihc _) hu (ihb _) ht (ihr _)
  | tailEnd _ hu _ hi he hw ihc ihb => exact .tailEnd (ihc _) hu (ihb _) hi he hw

/-- No phrase that needs a token starts with an `end`. -/
theorem head_ne_end (h : Derives free d ph ts next) (hp : ph.isSolid = true) (u : Token) :
    (ts.headD u).is "end" = false := by
  have hword {t : Token} {s : String} (ht : t.is s = true) (hs : s ≠ "end" := by decide) : t.is "end" = false :=
    Token.is_eq_false ht hs
  have hname {t : Token} (ht : t.isName = true) : t.is "end" = false := Token.is_eq_false_of_isName ht "end"
  induction h generalizing u with
  | nested _ _ ih | concatEnd _ _ ih | unaryEnd _ _ ih | powerEnd _ _ ih | one _ _ ih | positional _ _ _ ih
  | evaluate _ _ _ _ ih => exact ih rfl u
  | chained _ _ _ ih _ | concat _ _ _ _ ih _ | power _ _ _ _ ih _ | access _ _ ih _ | cons _ _ _ ih _
  | assign _ _ _ _ _ _ ih _ | tailElseif _ _ _ _ _ ih _ _ | tailElse _ _ _ _ _ ih _ _ | tailEnd _ _ _ _ _ _ ih _ =>
    rw [List.headD_append]
    exact ih rfl _
  | @unary _ op _ _ _ _ ht => exact hword (is_of_unaryOp? ht) (by cases op <;> decide)
  | string ht | number ht => simp [Token.is, ht]
  | identifier ht | named ht => exact hname ht
  | trueWord ht | falseWord ht | nilWord ht | function ht | declare ht | declareAs ht | localFunction ht | define ht
  | conditional ht | whileLoop ht | forLoop ht | forEach ht | giveNothing ht | giveBack ht | leaveLoop ht =>
    exact hword (Token.is_of_isWord ht)
  | vararg hk ht => exact hword (Token.is_iff.mpr ⟨.inr (.inl hk), ht⟩)
  | parens hk ht | table hk ht => exact hword (Token.is_iff.mpr ⟨.inr (.inr hk), ht⟩)
  | noArguments ht | arguments ht | keyed ht | skip ht => exact hword ht
  | _ => cases hp

/-- Statements at the top of a script can be the statements of a block. -/
theorem restop {ss : List Stmt} (h : Derives free d (.stmts [] ss) ts next) :
    Derives free d (.stmts ["end"] ss) ts next := by
  have hcloses {t : Token} (h : t.closesBlock [] = false) (he : t.is "end" = false) :
      t.closesBlock ["end"] = false := by
    simpa [Token.closesBlock, he] using h
  generalize hp : Phrase.stmts [] ss = ph at h
  induction h generalizing ss with
  | stmtsEnd h =>
    cases hp
    exact .stmtsEnd (by simpa [Token.closesBlock] using Or.inl h)
  | stmtsSkip hs h _ _ ih =>
    cases hp
    exact .stmtsSkip (hcloses hs (h.head_ne_end rfl _)) h (ih rfl)
  | stmtsCons hs h _ _ ih =>
    cases hp
    exact .stmtsCons (hcloses hs (h.head_ne_end rfl _)) h (ih rfl)
  | _ => cases hp

end Derives

/-- The text is read as these statements wherever it stands on lines of its own: no block of it is left open, and no
string or comment goes on behind it. -/
structure StandsAlone (text : String) (ss : List Stmt) : Prop where
  parses : Program.parse (tokenize text) = .ok ss
  closed : worth blockWeight (tokenize text) = 0
  ends : EndsLine (text.toList ++ ['\n'])

theorem worth_moved (w : String → Int) (f g : Nat → Nat) (ts : List Token) :
    worth w (ts.map (Token.moved f g)) = worth w ts := by
  rw [worth, worth, List.map_map]
  rfl

/-- A text that stands alone can be the body of a function. -/
theorem StandsAlone.derives {text : String} {ss : List Stmt} (h : StandsAlone text ss) {next : Token}
    (hn : next.is "end" = true) (d : Nat) :
    Derives true d (.stmts ["end"] (Stmt.mapLinesAll origin ss)) (tokens (code text.toList)) next := by
  obtain ⟨ts, line, column, hts, hlegible⟩ := tokenize_eq_append text 1
  have hmap := map_moved_tokenize text 1
  have hmoved := @Program.parse_moved origin origin ts (.endOfInput line column) rfl
  rw [← hts, hmap, h.parses] at hmoved
  rw [hts, List.map_append] at hmap
  have hcode : tokens (code text.toList) = ts.map (Token.moved origin origin) := (List.append_inj' hmap.symm rfl).1
  have hsolid : ∀ t ∈ tokens (code text.toList), t.isEof = false := by
    rw [hcode, List.forall_mem_map]
    intro t ht
    rw [Token.isEof_moved]
    exact (hlegible t ht).isEof
  have hworth : worth blockWeight (tokens (code text.toList)) = 0 := by
    have hclosed := h.closed
    rw [hts, worth_append] at hclosed
    rw [hcode, worth_moved]
    exact (Int.add_zero _).symm.trans hclosed
  have hderives := ((Program.derives_of_parse_append hsolid rfl hmoved).restop).freed d
  have hclosers : Closers true (worth blockWeight (tokens (code text.toList)) + (0 : Nat)) [] next := by
    rw [hworth]
    exact ⟨by simp, .inr ⟨⟨rfl, hn⟩, rfl⟩⟩
  have hinner := hderives.closable.close rfl [] next hclosers
  rwa [List.append_nil] at hinner

end ScriptGraph
