import ScriptGraph.Proofs.Boundaries
import ScriptGraph.Proofs.OpenBlocks

namespace ScriptGraph

open Lexeme Token

/-- Pieces that hold one lexeme `n` times become `n` tokens of its kind and text. -/
theorem placed_of_replicate {l : Lexeme} {n : Nat} {ps : List Piece} (h : lexemesOf ps = List.replicate n l)
    (p : Place) :
    ∃ es line column, placed p ps = es ++ [.endOfInput line column] ∧ es.length = n ∧
      ∀ e ∈ es, e.kind = l.kind ∧ e.text = String.ofList l.text := by
  induction ps generalizing p n with
  | nil =>
    have hn : n = 0 := by simpa using h.symm
    exact ⟨[], p.line, p.column, rfl, hn.symm, by simp⟩
  | cons q ps ih =>
    cases q with
    | gap c => exact ih h (p.step c)
    | lexeme m =>
      cases n with
      | zero => cases h
      | succ n =>
        rw [lexemesOf_lexeme, List.replicate_succ] at h
        obtain ⟨rfl, h⟩ := List.cons.inj h
        obtain ⟨es, line, column, hplaced, hlen, hes⟩ := ih h (p.after m.source)
        refine ⟨m.token p :: es, line, column, ?_, by rw [List.length_cons, hlen], ?_⟩
        · rw [placed, hplaced, List.cons_append]
        · exact List.forall_mem_cons.mpr ⟨⟨rfl, rfl⟩, hes⟩

/-- A text that does not end in an open string keeps its tokens when it goes on behind a boundary. A comment at its
end takes a part of what follows. -/
theorem exists_filter_placed (cs : List Char) (p : Place)
    (hlast : (lexemesOf (pieces cs)).getLast?.any isUnclosed = false) :
    ∃ ts, ∀ rest, startsApart rest = true → ']' ∉ rest → ∃ q left, left <:+ rest ∧
      (rest.head? = some '\n' → left = rest ∨ left = []) ∧
      (placed p (pieces (cs ++ rest))).filter (·.kind ≠ .comment) =
        ts ++ (placed q (pieces left)).filter (·.kind ≠ .comment) := by
  rcases pieces_append_cases cs with hstays | ⟨ps, c, ds, l, hl, hsource, hloose, hps, hgoes⟩
  · refine ⟨(placedBefore p (pieces cs)).filter (·.kind ≠ .comment), fun rest hrest _ => ?_⟩
    refine ⟨p.after cs, rest, List.suffix_refl rest, fun _ => .inl rfl, ?_⟩
    rw [hstays rest hrest, placed_append, sourceOf_pieces, List.filter_append]
  · have hcomment : l.kind = .comment := by
      have hclosed : l.isUnclosed = false := by simpa [hps] using hlast
      simpa [isLoose, hclosed] using hloose
    refine ⟨(placedBefore p ps).filter (·.kind ≠ .comment), fun rest hrest hno => ?_⟩
    obtain ⟨m, left, hm, htext, hon⟩ := goesOn_of_isLoose hl hsource hloose hrest hno
    have hpieces : pieces (c :: ds ++ rest) = .lexeme m :: pieces left := by
      rw [List.cons_append, pieces_cons_lexeme hm, ← htext, List.drop_left]
    have hskip : ¬ (decide ((m.token (p.after (sourceOf ps))).kind ≠ .comment)) = true := by
      simp [Lexeme.token, hon.kind.trans hcomment]
    refine ⟨(p.after (sourceOf ps)).after m.source, left, hon.suffix, hon.line hcomment, ?_⟩
    rw [hgoes rest hrest, hpieces, placed_append, List.filter_append, placed, List.filter_cons, if_neg hskip]

/-- A string that is open before blanks is open behind them. -/
theorem getLast?_isUnclosed_of_blanks {cs blanks : List Char} (h : blanks.all Text.isBlank = true)
    (hlast : (lexemesOf (pieces (cs ++ blanks))).getLast?.any isUnclosed = false) :
    (lexemesOf (pieces cs)).getLast?.any isUnclosed = false := by
  rcases lexemesOf_pieces_append_blanks cs h with heq | ⟨ls, l, m, hl, hm, -, -, hopen⟩
  · rwa [heq] at hlast
  · rw [hm, List.getLast?_concat, Option.any_some] at hlast
    rw [hl, List.getLast?_concat, Option.any_some, Bool.eq_false_iff]
    intro hunclosed
    have hstring : l.kind = .string := by
      rw [isUnclosed, Bool.and_eq_true, beq_iff_eq] at hunclosed
      exact hunclosed.1
    rw [hopen hstring] at hlast
    cases hlast

section Closers

theorem toList_repeated_succ (n : Nat) : (Text.repeated "\nend" (n + 1)).toList =
    ['\n'] ++ ((keyword "end").source ++ (Text.repeated "\nend" n).toList) := by
  rw [Text.repeated, String.toList_append]
  rfl

theorem startsApart_closers (n : Nat) : startsApart (Text.repeated "\nend" n).toList = true := by
  cases n with
  | zero => rfl
  | succ n =>
    rw [toList_repeated_succ]
    rfl

theorem notMem_closers (n : Nat) : ']' ∉ (Text.repeated "\nend" n).toList := by
  induction n with
  | zero => simp [Text.repeated]
  | succ n ih =>
    rw [toList_repeated_succ]
    simp [keyword, verbatim, ih]

theorem spells_closers (n : Nat) : Spells (Text.repeated "\nend" n).toList (List.replicate n (keyword "end")) none := by
  induction n with
  | zero => exact .nil
  | succ n ih =>
    have hends : (keyword "end").endsBefore ((Text.repeated "\nend" n).toList.head?.or none) = true := by
      cases n with
      | zero => rfl
      | succ n =>
        rw [toList_repeated_succ]
        rfl
    rw [toList_repeated_succ, List.replicate_succ]
    apply Spells.blanks_append rfl
    exact .lexeme_append (.keyword "end" ⟨'e', ['n', 'd'], rfl, rfl, rfl⟩ rfl) hends ih

end Closers

/-- Behind its closers a text has the tokens that it had, and at most one `end` for each of them. -/
theorem Balance.tokenize_closed {s : String} (n : Nat)
    (hlast : (lexemesOf (pieces s.toList)).getLast?.any isUnclosed = false) :
    ∃ ts es line column line' column', tokenize s = ts ++ [.endOfInput line column] ∧
      tokenize (Text.trimEnd s ++ Text.repeated "\nend" (n + 1)) = ts ++ es ++ [.endOfInput line' column'] ∧
      es.length ≤ n + 1 ∧ ∀ e ∈ es, e.is "end" = true := by
  obtain ⟨blanks, hs, hblanks⟩ := Text.exists_trimEndChars s.toList
  rw [hs] at hlast
  obtain ⟨ts, hts⟩ := exists_filter_placed _ ⟨max 1 1, 1⟩ (getLast?_isUnclosed_of_blanks hblanks hlast)
  obtain ⟨q, left, hleft, -, htokens⟩ := hts blanks (startsApart_of_isBlank hblanks) (notMem_of_isBlank hblanks)
  obtain ⟨q', left', -, hline, htokens'⟩ := hts _ (startsApart_closers (n + 1)) (notMem_closers (n + 1))
  have hend : lexemesOf (pieces left) = List.replicate 0 (keyword "end") := by
    apply lexemesOf_pieces_of_isBlank
    exact Text.all_isBlank_of_suffix hleft hblanks
  have hends : ∃ k ≤ n + 1, lexemesOf (pieces left') = List.replicate k (keyword "end") := by
    have hhead : (Text.repeated "\nend" (n + 1)).toList.head? = some '\n' := by
      rw [toList_repeated_succ]
      rfl
    rcases hline hhead with rfl | rfl
    · exact ⟨n + 1, Nat.le_refl _, (spells_closers (n + 1)).lexemesOf_pieces⟩
    · exact ⟨0, Nat.zero_le _, rfl⟩
  obtain ⟨k, hk, hends⟩ := hends
  obtain ⟨none, line, column, hplaced, hnone, -⟩ := placed_of_replicate hend q
  obtain ⟨es, line', column', hplaced', hlen, hes⟩ := placed_of_replicate hends q'
  have hwords : es.filter (·.kind ≠ .comment) = es := by
    rw [List.filter_eq_self]
    intro e he
    rw [(hes e he).1]
    rfl
  refine ⟨ts, es, line, column, line', column', ?_, ?_, by omega, ?_⟩
  · rw [tokenize, rawTokens, hs, htokens, hplaced, List.eq_nil_of_length_eq_zero hnone]
    rfl
  · rw [tokenize, rawTokens, String.toList_append, Text.trimEnd, String.toList_ofList, htokens', hplaced',
      List.filter_append, hwords, List.append_assoc]
    rfl
  · intro e he
    exact is_iff.mpr ⟨.inl (hes e he).1, (hes e he).2⟩

/-- Closing the blocks that a script leaves open does not change its program, unless the script ends in an open
string. -/
theorem Program.parse_close {s : String} {p : Program} (h : Program.parse (tokenize s) = .ok p)
    (hlast : (lexemesOf (pieces s.toList)).getLast?.any isUnclosed = false) :
    Program.parse (tokenize (Balance.close s)) = .ok p := by
  rw [Balance.close]
  cases hmissing : (Balance.ofText s).missing with
  | zero => exact h
  | succ n =>
    obtain ⟨ts, es, line, column, line', column', hts, hclosed, hlen, hwords⟩ := Balance.tokenize_closed n hlast
    obtain ⟨us, line₂, column₂, hus, hsolid, hblocks, -⟩ := worth_tokenize s
    obtain ⟨rfl, -⟩ := List.append_inj' (hus.symm.trans hts) rfl
    rw [hus] at h
    have hclosable := (Program.derives_of_parse_append hsolid rfl h).closable
    -- The blocks that the keywords leave open are blocks for the parser, too.
    have hopen : (es.length : Int) ≤ worth blockWeight us + (0 : Nat) := by
      have hloops := hclosable.loops
      rw [Balance.missing] at hmissing
      omega
    have hmore := hclosable.close rfl es (.endOfInput line' column') ⟨hwords, .inl ⟨rfl, hopen⟩⟩
    change Program.parse (tokenize (Text.trimEnd s ++ Text.repeated "\nend" (n + 1))) = .ok p
    rw [hclosed]
    exact (hmore.parse rfl).resolve_right (by simp)

theorem Program.parse_close_open_blocks : ∃ p,
    Program.parse (tokenize "local f = function() while a do if b then g() -- end\n \n") = .ok p ∧
    (lexemesOf (pieces "local f = function() while a do if b then g() -- end\n \n".toList)).getLast?.any
      isUnclosed = false ∧
    Program.parse (tokenize "local f = function() while a do if b then g() -- end\nend\nend\nend") = .ok p := by
  have hparse : Program.parse (tokenize "local f = function() while a do if b then g() -- end\n \n") =
      .ok [.mk 1 (.declare "f" (some (.function [] [.mk 1 (.whileLoop (.identifier "a") [.mk 1 (.conditional
        (.identifier "b") [.mk 1 (.evaluate (.call (.identifier "g") []))] none)])])))] := by decide +kernel
  have hlast : (lexemesOf (pieces "local f = function() while a do if b then g() -- end\n \n".toList)).getLast?.any
      isUnclosed = false := by decide +kernel
  have hclose : Balance.close "local f = function() while a do if b then g() -- end\n \n" =
      "local f = function() while a do if b then g() -- end\nend\nend\nend" := by decide +kernel
  have hclosed := Program.parse_close hparse hlast
  rw [hclose] at hclosed
  exact ⟨_, hparse, hlast, hclosed⟩

end ScriptGraph
