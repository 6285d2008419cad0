import ScriptGraph.Proofs.Boundaries
import ScriptGraph.Proofs.LineOffsets

namespace ScriptGraph

namespace Lexeme

/-- Is the lexeme a long comment that lacks its end? -/
def isOpenComment (l : Lexeme) : Bool :=
  l.kind == .comment &&
    (longBracketLevel? (l.source.drop 2)).any fun level => l.source.length < l.text.length + 2 * (level + 3)

/-- Would the lexeme take in a line break behind it? A long comment does until it has its end, and a string if a
backslash is left at its end that keeps the line break. -/
def isOpen (l : Lexeme) : Bool := l.isOpenComment || (l.isUnclosed && dangles l.text)

section NextLine

variable {cs rest : List Char} {l : Lexeme} (hrest : rest.head? = some '\n')
include hrest

theorem startsApart_of_newline : startsApart rest = true := by
  rw [startsApart, hrest]
  rfl

/-- A comment at the end of the text is the same before a line break, unless it is an open long comment. -/
theorem comment_append_line (hsource : (comment cs).source = '-' :: '-' :: cs) (hopen : (comment cs).isOpen = false) :
    comment (cs ++ rest) = comment cs := by
  have happ := startsApart_of_newline hrest
  cases hlevel : longBracketLevel? cs with
  | none =>
    have htext : (cs ++ rest).takeWhile (· ≠ '\n') = cs.takeWhile (· ≠ '\n') :=
      takeWhile_append_of_head? (by simp [hrest])
    unfold comment
    rw [longBracketLevel?_append happ, hlevel]
    simp only [htext]
  | some level =>
    apply comment_append_of_found happ hlevel
    intro hnone
    have hle := le_length_of_longBracketLevel? hlevel
    have hsplit := splitBefore_append (']' :: List.replicate level '=' ++ [']']) (cs.drop (level + 2))
    rw [hnone, List.append_nil] at hsplit
    have htext : (comment cs).text = cs.drop (level + 2) := by
      unfold comment
      simp only [hlevel]
      exact hsplit
    -- without its end the comment is shorter than its text with both brackets
    have hshort : (comment cs).source.length < (comment cs).text.length + 2 * (level + 3) := by
      rw [hsource, htext, List.length_drop, List.length_cons, List.length_cons]
      omega
    have hlong : (comment cs).isOpenComment = true := by
      rw [isOpenComment, kind_comment]
      simp only [hsource, List.drop_succ_cons, List.drop_zero, hlevel, Option.any_some] at hshort ⊢
      simpa using hshort
    rw [isOpen, hlong] at hopen
    cases hopen

/-- A string at the end of the text is the same before a line break, unless a backslash keeps the line break. -/
theorem string_append_line {quote : Char} (hq : quote = '"' ∨ quote = '\'')
    (hsource : (string quote cs).source = quote :: cs) (hloose : (string quote cs).isLoose = true)
    (hopen : (string quote cs).isOpen = false) : string quote (cs ++ rest) = string quote cs := by
  have hbackslash : quote ≠ '\\' := by rcases hq with rfl | rfl <;> decide
  have hbody := stringBody_of_isLoose hsource hloose
  have hdangles : dangles cs = false := by
    have htext : (string quote cs).text = cs := hbody
    rw [isOpen, isUnclosed_string, hloose, htext, Bool.true_and, Bool.or_eq_false_iff] at hopen
    exact hopen.2
  obtain ⟨below, rfl⟩ := List.head?_eq_some_iff.mp hrest
  have hbody' : stringBody quote (cs ++ '\n' :: below) = cs :=
    stringBody_append hbackslash (.inr rfl) hbody hdangles below
  have hquote : quote ≠ '\n' := by rcases hq with rfl | rfl <;> decide
  simp [string, hbody, hbody', hquote.symm]

theorem first?_append_line {c : Char} (hl : first? c cs = some l) (hsource : l.source = c :: cs)
    (hloose : l.isLoose = true) (hopen : l.isOpen = false) : first? c (cs ++ rest) = some l := by
  by_cases hdash : c = '-' ∧ cs.head? = some '-'
  · obtain ⟨rfl, hhead⟩ := hdash
    obtain ⟨ds, rfl⟩ := List.head?_eq_some_iff.mp hhead
    obtain rfl : comment ds = l := Option.some.inj hl
    rw [List.cons_append, first?_comment, comment_append_line hrest hsource hopen]
  by_cases hquote : c = '"' ∨ c = '\''
  · obtain rfl : string c cs = l := Option.some.inj ((first?_quote hquote cs).symm.trans hl)
    rw [first?_quote hquote, string_append_line hrest hquote hsource hloose hopen]
  · rw [isLoose_of_first? hl hdash hquote] at hloose
    cases hloose

end NextLine

end Lexeme

open Lexeme

/-- A text is read on its own before a line break, unless its last lexeme takes the line break in. -/
theorem pieces_append_line {cs rest : List Char} (h : (lexemesOf (pieces cs)).getLast?.any isOpen = false)
    (hrest : rest.head? = some '\n') : pieces (cs ++ rest) = pieces cs ++ pieces rest := by
  have happ := startsApart_of_newline hrest
  rcases pieces_append_cases cs with hstays | ⟨ps, c, ds, l, hl, hsource, hloose, hps, hgoes⟩
  · exact hstays rest happ
  · have hopen : l.isOpen = false := by simpa [hps] using h
    have hfirst := first?_append_line hrest hl hsource hloose hopen
    rw [hgoes rest happ, hps, List.cons_append, pieces_cons_lexeme hfirst, hsource, ← List.cons_append, List.drop_left,
      List.append_assoc]
    rfl

example : (lexemesOf (pieces "x --[=[ a ]]".toList)).getLast?.any isOpen = true ∧
    (lexemesOf (pieces "x --[=[ a ]=]".toList)).getLast?.any isOpen = false ∧
    (lexemesOf (pieces "x = 'a\\".toList)).getLast?.any isOpen = true ∧
    (lexemesOf (pieces "x = 'a\\\\".toList)).getLast?.any isOpen = false := by
  decide +kernel

theorem endsLine_append_line {cs : List Char} (h : (lexemesOf (pieces cs)).getLast?.any isOpen = false) :
    EndsLine (cs ++ ['\n']) := ⟨pieces cs, pieces_append_line h rfl⟩

theorem rawTokens_down (s : String) (firstLine n : Nat) :
    rawTokens s (max firstLine 1 + n) = (rawTokens s firstLine).map (Token.down n) := by
  have hplace : (⟨max (max firstLine 1 + n) 1, 1⟩ : Place) = Place.down ⟨max firstLine 1, 1⟩ n := by
    rw [Place.down, Nat.max_eq_left (by omega)]
  rw [rawTokens, rawTokens, hplace, placed_down]

/-- A line break is a boundary of tokens, whatever stands on either side of it: the text below is read as if it stood
alone, only further down. -/
theorem rawTokens_append_line {above : String} (h : (lexemesOf (pieces above.toList)).getLast?.any isOpen = false)
    (below : String) (firstLine : Nat) :
    rawTokens (above ++ "\n" ++ below) firstLine = (rawTokens above firstLine).dropLast ++
      (rawTokens below firstLine).map (Token.down (above.toList.count '\n' + 1)) := by
  have htext : (above ++ "\n").toList = above.toList ++ ['\n'] := String.toList_append
  have hends : EndsLine (above ++ "\n").toList := htext ▸ endsLine_append_line h
  have hcount : (above ++ "\n").toList.count '\n' = above.toList.count '\n' + 1 := by
    rw [htext, List.count_append]
    rfl
  -- the line break itself is no token
  have hhead : (rawTokens (above ++ "\n") firstLine).dropLast = (rawTokens above firstLine).dropLast := by
    rw [rawTokens, rawTokens, htext, pieces_append_line h rfl, placed_append, placed_eq _ (pieces above.toList),
      List.dropLast_concat]
    exact List.dropLast_concat
  rw [hends.rawTokens_append, hhead, hcount, rawTokens_down]

theorem rawTokens_append_line_lookahead :
    (lexemesOf (pieces "x = 1e\ny = 'b\\\\".toList)).getLast?.any isOpen = false ∧
      rawTokens ("x = 1e\ny = 'b\\\\" ++ "\n" ++ "+2") =
        [⟨.identifier, "x", 1, 1, none⟩, ⟨.operator, "=", 1, 3, none⟩, ⟨.number, "1", 1, 5, none⟩,
          ⟨.identifier, "e", 1, 6, none⟩, ⟨.identifier, "y", 2, 1, none⟩, ⟨.operator, "=", 2, 3, none⟩,
          ⟨.string, "b\\\\", 2, 5, some '\''⟩, ⟨.operator, "+", 3, 1, none⟩, ⟨.number, "2", 3, 2, none⟩,
          .endOfInput 3 3] := by
  have hopen : (lexemesOf (pieces "x = 1e\ny = 'b\\\\".toList)).getLast?.any isOpen = false := by decide +kernel
  refine ⟨hopen, ?_⟩
  rw [rawTokens_append_line hopen]
  decide +kernel

end ScriptGraph
