import ScriptGraph.Proofs.Pieces

namespace ScriptGraph

namespace Lexeme

section LineBreak

variable (cs rest rest' : List Char)

theorem takeWhile_newline {p : Char → Bool} (hp : p '\n' = false) :
    (cs ++ '\n' :: rest).takeWhile p = (cs ++ '\n' :: rest').takeWhile p := by
  rw [takeWhile_append_of_head? (by simp [hp]), takeWhile_append_of_head? (by simp [hp])]

theorem isPrefixOf_newline {mark : List Char} (h : '\n' ∉ mark) :
    mark.isPrefixOf (cs ++ '\n' :: rest) = mark.isPrefixOf (cs ++ '\n' :: rest') := by
  have hcut (rest : List Char) : ∀ c ∈ ('\n' :: rest).head?, (cs ++ [c]).isPrefixOf mark = false := by
    rintro c ⟨⟩
    rw [← Bool.not_eq_true, List.isPrefixOf_iff_prefix]
    intro hp
    exact h (hp.subset (by simp))
  rw [isPrefixOf_append (hcut rest), isPrefixOf_append (hcut rest')]

theorem head?_newline : (cs ++ '\n' :: rest).head? = (cs ++ '\n' :: rest').head? := by
  cases cs <;> rfl

theorem longBracketLevel?_newline :
    longBracketLevel? (cs ++ '\n' :: rest) = longBracketLevel? (cs ++ '\n' :: rest') := by
  cases cs with
  | nil => rfl
  | cons c cs =>
    by_cases hc : c = '['
    · subst hc
      have hlevel (rest : List Char) : (cs ++ '\n' :: rest).takeWhile (· = '=') = cs.takeWhile (· = '=') :=
        takeWhile_append_of_head? rfl
      simp only [List.cons_append, longBracketLevel?, hlevel, drop_append_of_takeWhile,
        head?_newline _ rest rest']
    · rw [List.cons_append, List.cons_append, longBracketLevel?, longBracketLevel?] <;>
        · rintro _ ⟨⟩
          exact hc rfl

theorem symbol?_newline (c : Char) : symbol? c (cs ++ '\n' :: rest) = symbol? c (cs ++ '\n' :: rest') := by
  have hfind : longOperators.find? (·.isPrefixOf (c :: (cs ++ '\n' :: rest))) =
      longOperators.find? (·.isPrefixOf (c :: (cs ++ '\n' :: rest'))) := by
    apply List.find?_congr
    intro op hop
    have hn : ∀ op ∈ longOperators, '\n' ∉ op := by decide
    exact isPrefixOf_newline (c :: cs) rest rest' (hn op hop)
  rw [symbol?, symbol?, hfind]

variable {cs rest}

/-- The first mark is looked for no further than where it is found. -/
theorem splitBefore_newline {mark : List Char} (hn : '\n' ∉ mark) (hm : mark ≠ [])
    (h : (splitBefore mark (cs ++ '\n' :: rest)).1.length ≤ cs.length) :
    (splitBefore mark (cs ++ '\n' :: rest')).1 = (splitBefore mark (cs ++ '\n' :: rest)).1 ∧
      (splitBefore mark (cs ++ '\n' :: rest')).2.take mark.length =
        (splitBefore mark (cs ++ '\n' :: rest)).2.take mark.length := by
  induction cs with
  | nil =>
    have hno : mark.isPrefixOf ('\n' :: rest) = false := by
      rw [← Bool.not_eq_true, List.isPrefixOf_iff_prefix]
      rintro ⟨tail, htail⟩
      cases mark with
      | nil => exact hm rfl
      | cons c mark =>
        obtain rfl := (List.cons.inj htail).1
        exact hn List.mem_cons_self
    rw [List.nil_append, splitBefore, if_neg (by simp [hno])] at h
    simp at h
  | cons c cs ih =>
    have hsame := isPrefixOf_newline (c :: cs) rest rest' hn
    rw [List.cons_append, List.cons_append] at hsame
    rw [List.cons_append, splitBefore] at h
    rw [List.cons_append, List.cons_append, splitBefore, splitBefore, ← hsame]
    by_cases hp : mark.isPrefixOf (c :: (cs ++ '\n' :: rest)) = true
    · have hp' := hsame ▸ hp
      rw [if_pos hp, if_pos hp]
      rw [List.isPrefixOf_iff_prefix] at hp hp'
      exact ⟨rfl, (List.prefix_iff_eq_take.mp hp').symm.trans (List.prefix_iff_eq_take.mp hp)⟩
    · rw [if_neg hp] at h
      rw [if_neg hp, if_neg hp]
      have hrest := ih (by simpa using h)
      exact ⟨congrArg (c :: ·) hrest.1, hrest.2⟩

theorem level_of_longBracketLevel? {level : Nat} (h : longBracketLevel? (cs ++ '\n' :: rest) = some level) :
    level + 2 ≤ cs.length := by
  cases cs with
  | nil => cases h
  | cons c cs =>
    rw [List.cons_append] at h
    unfold longBracketLevel? at h
    split at h
    · rename_i heq
      obtain ⟨-, rfl⟩ := List.cons.inj heq
      have hlevel : (cs ++ '\n' :: rest).takeWhile (· = '=') = cs.takeWhile (· = '=') :=
        takeWhile_append_of_head? rfl
      simp only [hlevel, drop_append_of_takeWhile] at h
      split at h
      · rename_i hhead
        obtain rfl := Option.some.inj h
        have hlt : (cs.takeWhile (· = '=')).length < cs.length := by
          refine Nat.lt_of_not_le fun hle => ?_
          rw [List.drop_eq_nil_of_le hle] at hhead
          cases hhead
        rw [List.length_cons]
        omega
      · cases h
    · cases h

theorem comment_newline (h : (comment (cs ++ '\n' :: rest)).source.length ≤ cs.length + 2) :
    comment (cs ++ '\n' :: rest') = comment (cs ++ '\n' :: rest) := by
  have hlevel := longBracketLevel?_newline cs rest rest'
  unfold comment at h ⊢
  rw [← hlevel]
  cases hl : longBracketLevel? (cs ++ '\n' :: rest) with
  | none =>
    have htext := takeWhile_newline cs rest rest' (p := fun c => decide (c ≠ '\n')) (by decide)
    simp only [htext]
  | some level =>
    have hle := level_of_longBracketLevel? hl
    have hdrop (rest : List Char) : (cs ++ '\n' :: rest).drop (level + 2) = cs.drop (level + 2) ++ '\n' :: rest :=
      List.drop_append_of_le_length hle
    have htake (rest : List Char) : (cs ++ '\n' :: rest).take (level + 2) = cs.take (level + 2) :=
      List.take_append_of_le_length hle
    have hn : '\n' ∉ ']' :: (List.replicate level '=' ++ [']']) := by simp
    rw [hl] at h
    simp only [hdrop, htake, List.cons_append, List.length_cons, List.length_append, List.length_take] at h ⊢
    have hlen :
        (splitBefore (']' :: (List.replicate level '=' ++ [']'])) (cs.drop (level + 2) ++ '\n' :: rest)).1.length ≤
        (cs.drop (level + 2)).length := by
      rw [List.length_drop]
      omega
    obtain ⟨htext, hmark⟩ := splitBefore_newline rest' hn (by simp) hlen
    simp only [List.length_cons, List.length_append] at hmark
    rw [htext, hmark]

theorem stringBody_newline {quote : Char} (h : (stringBody quote (cs ++ '\n' :: rest)).length ≤ cs.length) :
    stringBody quote (cs ++ '\n' :: rest') = stringBody quote (cs ++ '\n' :: rest) := by
  have hstop (rest : List Char) : stringBody quote ('\n' :: rest) = [] := by
    rw [stringBody_cons (by decide), if_pos (by simp)]
  fun_induction dangles cs with
  | case1 => rw [List.nil_append, List.nil_append, hstop, hstop]
  | case2 =>
    -- a backslash before the line break takes it into the string
    rw [List.cons_append, List.nil_append, stringBody_escape] at h
    simp at h
  | case3 c cs ih =>
    rw [List.cons_append, List.cons_append, stringBody_escape] at h
    rw [List.cons_append, List.cons_append, stringBody_escape, List.cons_append, List.cons_append, stringBody_escape,
      ih (by simpa using h)]
  | case4 c cs hlast hpair ih =>
    have hc : c ≠ '\\' := by
      rintro rfl
      cases cs with
      | nil => exact hlast rfl rfl
      | cons d ds => exact hpair d ds rfl rfl
    rw [List.cons_append, stringBody_cons hc] at h
    rw [List.cons_append, stringBody_cons hc, List.cons_append, stringBody_cons hc]
    by_cases hq : (decide (c = quote) || decide (c = '\n')) = true
    · rw [if_pos hq, if_pos hq]
    · rw [if_neg hq] at h
      rw [if_neg hq, if_neg hq, ih (by simpa using h)]

theorem string_newline {quote : Char} (h : (string quote (cs ++ '\n' :: rest)).source.length ≤ cs.length + 1) :
    string quote (cs ++ '\n' :: rest') = string quote (cs ++ '\n' :: rest) := by
  have hlen : (stringBody quote (cs ++ '\n' :: rest)).length ≤ cs.length := by
    simp only [string, List.cons_append, List.length_cons, List.length_append] at h
    omega
  have hdrop (rest' : List Char) : ((cs ++ '\n' :: rest').drop (stringBody quote (cs ++ '\n' :: rest)).length).head? =
      (cs.drop (stringBody quote (cs ++ '\n' :: rest)).length ++ '\n' :: rest).head? := by
    rw [List.drop_append_of_le_length hlen]
    exact head?_newline _ _ _
  simp only [string, stringBody_newline rest' hlen, hdrop]

/-- What stands behind a line break says nothing about a lexeme that ends before it. -/
theorem first?_newline {c : Char} (h : ∀ l ∈ first? c (cs ++ '\n' :: rest), l.source.length ≤ cs.length + 1) :
    first? c (cs ++ '\n' :: rest') = first? c (cs ++ '\n' :: rest) := by
  have hhead := head?_newline cs rest' rest
  have hdigit : startsDigit (cs ++ '\n' :: rest') = startsDigit (cs ++ '\n' :: rest) := by
    rw [startsDigit, startsDigit, hhead]
  have hnumber (rest : List Char) : number (c :: (cs ++ '\n' :: rest)) = number (c :: cs) :=
    number_append (c :: cs) (by simp) rfl
  have hword : word (c :: (cs ++ '\n' :: rest')) = word (c :: (cs ++ '\n' :: rest)) := by
    have htext := takeWhile_newline (c :: cs) rest' rest (p := isWordChar) (by decide)
    rw [List.cons_append, List.cons_append] at htext
    rw [word, word, htext]
  unfold first? at h ⊢
  rw [hhead, hdigit, hnumber, hnumber rest, hword, symbol?_newline cs rest' rest]
  split
  · rename_i hdash
    rw [if_pos hdash] at h
    cases cs with
    | nil => simp at hdash
    | cons d cs =>
      rw [List.cons_append, List.tail_cons] at h
      rw [List.cons_append, List.tail_cons, List.cons_append, List.tail_cons]
      exact congrArg some (comment_newline rest' (h _ rfl))
  · split
    · rename_i hd hq
      rw [if_neg hd, if_pos hq] at h
      rw [string_newline rest' (h _ rfl)]
    · rfl

end LineBreak

end Lexeme

/-- A text is read line by line, except for the lexemes that go over a line break. -/
theorem pieces_newline {ps : List Piece} : ∀ {cs rest : List Char} {qs : List Piece},
    pieces (cs ++ '\n' :: rest) = ps ++ .gap '\n' :: qs → sourceOf ps = cs →
    ∀ rest', pieces (cs ++ '\n' :: rest') = ps ++ .gap '\n' :: pieces rest' := by
  induction ps with
  | nil =>
    rintro cs rest qs - rfl rest'
    exact pieces_cons_gap (Lexeme.first?_of_isBlank rfl _)
  | cons p ps ih =>
    intro cs rest qs h hs rest'
    cases p with
    | gap c =>
      obtain rfl : c :: sourceOf ps = cs := hs
      have hnone : Lexeme.first? c (sourceOf ps ++ '\n' :: rest) = none := by
        cases hl : Lexeme.first? c (sourceOf ps ++ '\n' :: rest) with
        | none => rfl
        | some l =>
          rw [List.cons_append, pieces_cons_lexeme hl] at h
          cases h
      rw [List.cons_append, pieces_cons_gap hnone] at h
      have hnone' := (Lexeme.first?_newline rest' (by simp [hnone])).trans hnone
      rw [List.cons_append, pieces_cons_gap hnone', ih (List.cons.inj h).2 rfl rest']
      rfl
    | lexeme l =>
      obtain rfl : l.source ++ sourceOf ps = cs := hs
      have hdrop (rest : List Char) : (l.source ++ sourceOf ps ++ '\n' :: rest).drop l.source.length =
          sourceOf ps ++ '\n' :: rest := by
        rw [List.append_assoc, List.drop_left]
      generalize hcs : l.source ++ sourceOf ps = cs at h hdrop ⊢
      cases cs with
      | nil =>
        rw [List.nil_append, pieces_cons_gap (Lexeme.first?_of_isBlank rfl _)] at h
        cases h
      | cons c cs =>
        rw [List.cons_append] at h
        have hfirst : Lexeme.first? c (cs ++ '\n' :: rest) = some l := by
          cases hl : Lexeme.first? c (cs ++ '\n' :: rest) with
          | none =>
            rw [pieces_cons_gap hl] at h
            cases h
          | some l' =>
            rw [pieces_cons_lexeme hl] at h
            rw [Piece.lexeme.inj (List.cons.inj h).1]
        have hfits : ∀ l ∈ Lexeme.first? c (cs ++ '\n' :: rest), l.source.length ≤ cs.length + 1 := by
          rw [hfirst]
          rintro _ ⟨⟩
          rw [← List.length_cons (a := c), ← hcs, List.length_append]
          omega
        have hfirst' := (Lexeme.first?_newline rest' hfits).trans hfirst
        rw [pieces_cons_lexeme hfirst, ← List.cons_append, hdrop] at h
        rw [List.cons_append, pieces_cons_lexeme hfirst', ← List.cons_append, hdrop, ih (List.cons.inj h).2 rfl rest']
        rfl

namespace Place

theorem after_append (p : Place) (cs ds : List Char) : p.after (cs ++ ds) = (p.after cs).after ds := List.foldl_append

theorem line_after (p : Place) (cs : List Char) : (p.after cs).line = p.line + cs.count '\n' := by
  induction cs generalizing p with
  | nil => rfl
  | cons c cs ih =>
    change ((p.step c).after cs).line = _
    rw [ih]
    by_cases hc : c = '\n'
    · simp only [step, hc, if_true, List.count_cons_self]
      omega
    · simp only [step, hc, if_false, List.count_cons_of_ne hc]

/-- Behind a text that ends with a line break a new line starts. -/
theorem after_newline (p : Place) (cs : List Char) :
    p.after (cs ++ ['\n']) = ⟨p.line + (cs ++ ['\n']).count '\n', 1⟩ := by
  have hlast : ((p.after cs).step '\n') = ⟨(p.after cs).line + 1, 1⟩ := rfl
  rw [after_append]
  change (p.after cs).step '\n' = _
  rw [hlast, line_after, List.count_append, Nat.add_assoc]
  rfl

end Place

/-- The tokens of pieces before others, without an end of input. -/
def placedBefore (p : Place) : List Piece → List Token
  | [] => []
  | .gap c :: ps => placedBefore (p.step c) ps
  | .lexeme l :: ps => l.token p :: placedBefore (p.after l.source) ps

theorem placed_append (p : Place) (ps qs : List Piece) :
    placed p (ps ++ qs) = placedBefore p ps ++ placed (p.after (sourceOf ps)) qs := by
  induction ps generalizing p with
  | nil => rfl
  | cons q ps ih =>
    cases q with
    | gap c => exact ih _
    | lexeme l =>
      rw [List.cons_append, placed, placedBefore, ih, sourceOf_lexeme, Place.after_append]
      rfl

theorem placed_eq (p : Place) (ps : List Piece) :
    placed p ps = placedBefore p ps ++ [.endOfInput (p.after (sourceOf ps)).line (p.after (sourceOf ps)).column] := by
  have happend := placed_append p ps []
  rwa [List.append_nil, placed] at happend

/-- A token stands on one of the lines that its text has. -/
theorem line_of_mem_placed {p : Place} {ps : List Piece} {t : Token} (h : t ∈ placed p ps) :
    p.line ≤ t.line ∧ t.line ≤ p.line + (sourceOf ps).count '\n' := by
  induction ps generalizing p with
  | nil =>
    obtain rfl := List.mem_singleton.mp h
    exact ⟨Nat.le_refl _, Nat.le_add_right _ _⟩
  | cons q ps ih =>
    cases q with
    | gap c =>
      have hstep : (p.step c).line = p.line + [c].count '\n' := p.line_after [c]
      have hrest := ih h
      have hcount : (sourceOf (.gap c :: ps)).count '\n' = [c].count '\n' + (sourceOf ps).count '\n' :=
        (List.count_append : ([c] ++ sourceOf ps).count '\n' = _)
      omega
    | lexeme l =>
      have hcount : (sourceOf (.lexeme l :: ps)).count '\n' = l.source.count '\n' + (sourceOf ps).count '\n' :=
        List.count_append
      rcases List.mem_cons.mp h with rfl | h
      · exact ⟨Nat.le_refl _, Nat.le_add_right _ _⟩
      · have hrest := ih h
        have hafter := p.line_after l.source
        omega

/-- Tokens come line by line. -/
theorem pairwise_line_placed (p : Place) (ps : List Piece) : (placed p ps).Pairwise fun t u => t.line ≤ u.line := by
  induction ps generalizing p with
  | nil => exact List.pairwise_singleton _ _
  | cons q ps ih =>
    cases q with
    | gap c => exact ih _
    | lexeme l =>
      refine List.pairwise_cons.mpr ⟨fun u hu => ?_, ih _⟩
      have hline := (line_of_mem_placed hu).1
      have hafter := p.line_after l.source
      change p.line ≤ u.line
      omega

theorem pairwise_line_tokenize (s : String) (firstLine : Nat) :
    (tokenize s firstLine).Pairwise fun t u => t.line ≤ u.line :=
  (pairwise_line_placed _ _).filter _

theorem line_of_mem_tokenize {s : String} {firstLine : Nat} {t : Token} (h : t ∈ tokenize s firstLine) :
    max firstLine 1 ≤ t.line ∧ t.line ≤ max firstLine 1 + s.toList.count '\n' := by
  have hline := line_of_mem_placed (List.mem_filter.mp h).1
  rwa [sourceOf_pieces] at hline

/-- The tokens of a text are those of its lexemes and the end of input. -/
theorem exists_tokenize (s : String) (firstLine : Nat) : ∃ ts line column,
    rawTokens s firstLine = ts ++ [.endOfInput line column] ∧
    tokenize s firstLine = ts.filter (·.kind ≠ .comment) ++ [.endOfInput line column] := by
  refine ⟨_, _, _, placed_eq _ _, ?_⟩
  rw [tokenize, rawTokens, placed_eq, List.filter_append]
  rfl

/-- The text ends with a line break that belongs to no lexeme. -/
def EndsLine (cs : List Char) : Prop := ∃ ps, pieces cs = ps ++ [.gap '\n']

namespace EndsLine

variable {cs : List Char}

theorem pieces_append (h : EndsLine cs) (rest : List Char) : pieces (cs ++ rest) = pieces cs ++ pieces rest := by
  obtain ⟨ps, hps⟩ := h
  have hcs : cs = sourceOf ps ++ ['\n'] := by
    rw [← sourceOf_pieces cs, hps, sourceOf_append]
    rfl
  rw [hps]
  rw [hcs] at hps
  rw [hcs, List.append_assoc, List.append_assoc]
  exact pieces_newline hps rfl rest

theorem after_eq (h : EndsLine cs) (p : Place) : p.after cs = ⟨p.line + cs.count '\n', 1⟩ := by
  obtain ⟨ps, hps⟩ := h
  have hcs : cs = sourceOf ps ++ ['\n'] := by
    rw [← sourceOf_pieces cs, hps, sourceOf_append]
    rfl
  rw [hcs]
  exact Place.after_newline p (sourceOf ps)

theorem rawTokens_append {head : String} (h : EndsLine head.toList) (rest : String) (firstLine : Nat) :
    rawTokens (head ++ rest) firstLine =
      (rawTokens head firstLine).dropLast ++ rawTokens rest (max firstLine 1 + head.toList.count '\n') := by
  have hplaced (qs : List Piece) : placed ⟨max firstLine 1, 1⟩ (pieces head.toList ++ qs) =
      placedBefore ⟨max firstLine 1, 1⟩ (pieces head.toList) ++
        placed ⟨max firstLine 1 + head.toList.count '\n', 1⟩ qs := by
    rw [placed_append, sourceOf_pieces, h.after_eq]
  have hline : max (max firstLine 1 + head.toList.count '\n') 1 = max firstLine 1 + head.toList.count '\n' := by omega
  rw [rawTokens, rawTokens, rawTokens, String.toList_append, h.pieces_append, hplaced, placed_eq _ (pieces head.toList),
    List.dropLast_concat, hline]

/-- The tokens behind the cut are those of the rest alone, with their lines. -/
theorem tokenize_append {head : String} (h : EndsLine head.toList) (rest : String) (firstLine : Nat) :
    tokenize (head ++ rest) firstLine =
      (tokenize head firstLine).dropLast ++ tokenize rest (max firstLine 1 + head.toList.count '\n') := by
  obtain ⟨ts, line, column, hraw, htokens⟩ := exists_tokenize head firstLine
  rw [htokens, List.dropLast_concat, tokenize, h.rawTokens_append, hraw, List.dropLast_concat, List.filter_append,
    tokenize]

/-- The last line that a text ends has tokens only if its break is no part of them. -/
theorem line_lt {head : String} (h : EndsLine head.toList) {firstLine : Nat} {t : Token}
    (ht : t ∈ (tokenize head firstLine).dropLast) : t.line < max firstLine 1 + head.toList.count '\n' := by
  have hraw : t ∈ (rawTokens head firstLine).dropLast := by
    obtain ⟨ts, line, column, hraw, htokens⟩ := exists_tokenize head firstLine
    rw [htokens, List.dropLast_concat] at ht
    rw [hraw, List.dropLast_concat]
    exact (List.mem_filter.mp ht).1
  obtain ⟨ps, hps⟩ := h
  have hcount : head.toList.count '\n' = (sourceOf ps).count '\n' + 1 := by
    rw [← sourceOf_pieces head.toList, hps, sourceOf_append, List.count_append]
    rfl
  have hplaced : (rawTokens head firstLine).dropLast = placedBefore ⟨max firstLine 1, 1⟩ ps := by
    rw [rawTokens, hps, placed_append]
    exact List.dropLast_concat
  rw [hplaced] at hraw
  have hmem : t ∈ placed ⟨max firstLine 1, 1⟩ ps := by
    rw [placed_eq]
    exact List.mem_append_left _ hraw
  have hline : t.line ≤ max firstLine 1 + (sourceOf ps).count '\n' := (line_of_mem_placed hmem).2
  omega

end EndsLine

end ScriptGraph
