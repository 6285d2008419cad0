import ScriptGraph.Proofs.Boundaries
import ScriptGraph.Proofs.HeaderSplit

namespace ScriptGraph

/-- Lines that are split off end with a line break. -/
theorem Text.getLast?_splitAfterLines {n : Nat} {cs : List Char} (hpos : 0 < n) (h : n ≤ cs.count '\n') :
    (splitAfterLines n cs).1.getLast? = some '\n' := by
  induction cs generalizing n with
  | nil =>
    rw [List.count_nil] at h
    omega
  | cons c cs ih =>
    obtain ⟨n, rfl⟩ := Nat.exists_eq_succ_of_ne_zero (Nat.ne_of_gt hpos)
    by_cases hc : c = '\n'
    · subst hc
      rw [List.count_cons_self] at h
      rw [splitAfterLines, if_pos rfl, List.getLast?_cons]
      cases n with
      | zero => rw [splitAfterLines, List.getLast?_nil, Option.getD_none]
      | succ n => rw [ih (Nat.succ_pos n) (Nat.le_of_succ_le_succ h), Option.getD_some]
    · rw [List.count_cons_of_ne hc] at h
      rw [splitAfterLines, if_neg hc, List.getLast?_cons, ih hpos h, Option.getD_some]

open Lexeme

theorem Lexeme.kind_of_isLoose {l : Lexeme} (h : l.isLoose = true) : l.kind = .comment ∨ l.kind = .string := by
  simp only [isLoose, isUnclosed, Bool.or_eq_true, Bool.and_eq_true, beq_iff_eq] at h
  exact h.imp_right And.left

/-- Cut behind a line break, a text starts with the pieces it has when it goes on, and then has at most a comment or a
string that the cut goes through. -/
theorem exists_pieces_cut (cs rest : List Char) : ∃ ps qs rs, pieces (cs ++ ['\n']) = ps ++ qs ∧
    pieces (cs ++ '\n' :: rest) = ps ++ rs ∧ sourceOf ps <+: cs ∧
    ∀ l ∈ lexemesOf qs, l.kind = .comment ∨ l.kind = .string := by
  have hblank : ['\n'].all Text.isBlank = true := rfl
  have hbreak : startsApart ['\n'] = true := startsApart_of_isBlank hblank
  rcases pieces_append_cases cs with hstays | ⟨ps, c, ds, l, hl, hsource, hloose, hps, hgoes⟩
  · refine ⟨pieces cs, pieces ['\n'], pieces ('\n' :: rest), hstays _ hbreak, hstays _ hbreak, ?_, ?_⟩
    · simp [sourceOf_pieces]
    · rw [lexemesOf_pieces_of_isBlank hblank]
      exact List.forall_mem_nil _
  · refine ⟨ps, pieces (c :: ds ++ ['\n']), pieces (c :: ds ++ '\n' :: rest), hgoes _ hbreak, hgoes _ hbreak, ?_, ?_⟩
    · rw [← sourceOf_pieces cs, hps, sourceOf_append]
      exact List.prefix_append _ _
    · obtain ⟨m, left, hm, htext, hon⟩ := goesOn_of_isLoose hl hsource hloose hbreak (notMem_of_isBlank hblank)
      have hleft := Text.all_isBlank_of_suffix hon.suffix hblank
      rw [List.cons_append, pieces_cons_lexeme hm, ← htext, List.drop_left, lexemesOf_lexeme,
        lexemesOf_pieces_of_isBlank hleft, List.forall_mem_singleton, hon.kind]
      exact kind_of_isLoose hloose

theorem kind_of_mem_placed {p : Place} {ps : List Piece} {t : Token} (h : t ∈ placed p ps) :
    (∃ l ∈ lexemesOf ps, t.kind = l.kind) ∨ t.kind = .eof := by
  have hmem := List.mem_map_of_mem (f := Token.unplaced) h
  rw [map_unplaced_placed, List.mem_append, List.mem_map, List.mem_singleton] at hmem
  have hkind : t.unplaced.kind = t.kind := rfl
  rcases hmem with ⟨l, hl, ht⟩ | ht
  · left
    exact ⟨l, hl, by rw [← hkind, ← ht]; rfl⟩
  · right
    rw [← hkind, ht]
    rfl

/-- Cut behind a line break, a script starts with the tokens it has when it goes on, all of them on lines before the
cut, and then has at most a string that the cut goes through. -/
theorem exists_tokenize_cut {head : String} (hhead : head.toList.getLast? = some '\n') (rest : String) :
    ∃ as bs ds, tokenize head = as ++ bs ∧ tokenize (head ++ rest) = as ++ ds ∧
      (∀ a ∈ as, a.line < 1 + head.toList.count '\n') ∧ ∀ b ∈ bs, b.kind = .string ∨ b.kind = .eof := by
  obtain ⟨cs, hcs⟩ := List.getLast?_eq_some_iff.mp hhead
  have hwhole : (head ++ rest).toList = cs ++ '\n' :: rest.toList := by
    rw [String.toList_append, hcs, List.append_assoc, List.singleton_append]
  obtain ⟨ps, qs, rs, hqs, hrs, hps, hkinds⟩ := exists_pieces_cut cs rest.toList
  let p : Place := ⟨1, 1⟩
  let q : Place := p.after (sourceOf ps)
  refine ⟨(placedBefore p ps).filter (·.kind ≠ .comment), (placed q qs).filter (·.kind ≠ .comment),
    (placed q rs).filter (·.kind ≠ .comment), ?_, ?_, ?_, ?_⟩
  · rw [tokenize, rawTokens, hcs, hqs, Nat.max_self, placed_append, List.filter_append]
  · rw [tokenize, rawTokens, hwhole, hrs, Nat.max_self, placed_append, List.filter_append]
  · intro a ha
    have hmem : a ∈ placed p ps := by
      rw [placed_eq]
      exact List.mem_append_left _ (List.mem_filter.mp ha).1
    have hline : a.line ≤ 1 + (sourceOf ps).count '\n' := (line_of_mem_placed hmem).2
    have hcount := hps.sublist.count_le '\n'
    rw [hcs, List.count_append, List.count_singleton_self]
    omega
  · intro b hb
    obtain ⟨hb, hcode⟩ := List.mem_filter.mp hb
    rcases kind_of_mem_placed hb with ⟨l, hl, hkind⟩ | heof
    · left
      have hno : l.kind ≠ .comment := hkind ▸ of_decide_eq_true hcode
      exact hkind.trans ((hkinds l hl).resolve_left hno)
    · exact .inr heof

namespace Header

variable {s : State} {as bs ds : List Token} {line : Nat}

theorem is_eq_false_of_kind {b : Token} (hb : b.kind = .string ∨ b.kind = .eof) (text : String) :
    b.is text = false := by
  rw [Bool.eq_false_iff]
  intro his
  rw [Token.is_iff] at his
  rcases hb with h | h <;> simp [h] at his

theorem severed_of_kind (hbs : ∀ b ∈ bs, b.kind = .string ∨ b.kind = .eof) : Severed as bs := by
  intro b hb
  have hkind := hbs b (List.mem_of_mem_head? hb)
  refine ⟨is_eq_false_of_kind hkind ".", fun hname => ?_⟩
  rw [Token.isName_iff] at hname
  rcases hkind with h | h <;> simp [h] at hname

theorem startsCall_nil_of_kind (hbs : ∀ b ∈ bs, b.kind = .string ∨ b.kind = .eof) : startsCall [] bs = false := by
  cases bs with
  | nil => rfl
  | cons b bs => exact is_eq_false_of_kind (hbs b List.mem_cons_self) "("

/-- Before the line that is found, nothing is found, whether or not the text goes on. -/
theorem firstRootLine_cut (hbs : ∀ b ∈ bs, b.kind = .string ∨ b.kind = .eof) (has : ∀ a ∈ as, a.line ≠ line)
    (h : firstRootLine s (as ++ ds) = some line) : firstRootLine s (as ++ bs) = none := by
  induction as generalizing s with
  | nil =>
    rw [Option.eq_none_iff_forall_ne_some]
    intro line' hfound
    obtain ⟨t, ht, -, hname⟩ := exists_of_firstRootLine hfound
    rw [Token.isName_iff] at hname
    rcases hbs t ht with hkind | hkind <;> simp [hkind] at hname
  | cons a as ih =>
    obtain ⟨ha, has⟩ := List.forall_mem_cons.mp has
    rw [List.cons_append, firstRootLine_cons] at h
    split at h
    · exact absurd (Option.some.inj h) ha
    · rename_i hnot
      have hnot' : ¬(s.atToken a).finds (a :: (as ++ bs)) = true := by
        intro hfinds
        refine hnot (State.finds_append (severed_of_kind hbs) (fun hopen => ?_) hfinds)
        rw [startsCall_nil_of_kind hbs] at hopen
        cases hopen
      rw [List.cons_append, firstRootLine_cons, if_neg hnot']
      exact ih has h

end Header

namespace SourceParts

/-- The header is made of whole lines. -/
theorem header_ends (text : String) :
    (ofText text).header = "" ∨ (ofText text).header.toList.getLast? = some '\n' := by
  by_cases hempty : (ofText text).header = ""
  · exact .inl hempty
  right
  have hfound := firstRootLine_eq hempty
  obtain ⟨t, ht, hline, -⟩ := Header.exists_of_firstRootLine hfound
  have hlast := (line_of_mem_tokenize ht).2
  have hheader : (ofText text).header.toList = (Text.splitAfterLines ((ofText text).bodyLine - 1) text.toList).1 := by
    rw [ofText, hfound]
    exact String.toList_ofList
  have hcount := bodyLine_eq text
  have hpos : 0 < (ofText text).bodyLine - 1 := by
    refine Nat.pos_of_ne_zero fun hzero => ?_
    rw [hzero, Text.splitAfterLines] at hheader
    exact hempty (String.toList_eq_nil_iff.mp hheader)
  rw [hheader]
  apply Text.getLast?_splitAfterLines hpos
  omega

/-- No action is called in the header. -/
theorem firstRootLine_header (text : String) : Header.firstRootLine {} (tokenize (ofText text).header) = none := by
  rcases header_ends text with hempty | hends
  · rw [hempty]
    rfl
  · have hne : (ofText text).header ≠ "" := by
      intro hempty
      rw [hempty] at hends
      cases hends
    have hfound := firstRootLine_eq hne
    obtain ⟨as, bs, ds, hheader, hwhole, hlines, hkinds⟩ := exists_tokenize_cut hends (ofText text).body
    rw [header_append_body] at hwhole
    rw [hwhole] at hfound
    rw [hheader]
    apply Header.firstRootLine_cut hkinds _ hfound
    intro a ha
    rw [bodyLine_eq]
    exact Nat.ne_of_lt (hlines a ha)

/-- A script is split without loss, between two lines, and the header cannot be split again. -/
theorem ofText_partition (text : String) :
    (ofText text).header ++ (ofText text).body = text ∧
      (ofText text).bodyLine = 1 + (ofText text).header.toList.count '\n' ∧
      ((ofText text).header = "" ∨ (ofText text).header.toList.getLast? = some '\n') ∧
      Header.firstRootLine {} (tokenize (ofText text).header) = none ∧
      ofText (ofText text).header = ⟨"", (ofText text).header, 1⟩ :=
  have hnone := firstRootLine_header text
  ⟨header_append_body text, bodyLine_eq text, header_ends text, hnone, ofText_of_none hnone⟩

end SourceParts

end ScriptGraph
