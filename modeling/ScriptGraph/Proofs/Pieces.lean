import ScriptGraph.Proofs.Scanning

namespace ScriptGraph

namespace Lexeme

/-- The kind, the text and the quote of a lexeme fit together. -/
def Cut (kind : TokenKind) (text : List Char) (quote : Option Char) : Prop :=
  match kind with
  | .keyword => IsWord text ∧ isKeyword (String.ofList text) = true
  | .identifier => IsWord text ∧ isKeyword (String.ofList text) = false
  | .number => IsNumber text
  | .string => ∃ q, quote = some q ∧ IsContent q text
  | .operator => IsOperator text
  | .punctuation => ∃ c ∈ marks, text = [c]
  | .comment => True
  | .eof => False

theorem isWord_takeWhile {c : Char} (hc : isLetter c = true) (cs : List Char) :
    IsWord ((c :: cs).takeWhile isWordChar) := by
  refine ⟨c, cs.takeWhile isWordChar, ?_, hc, ?_⟩
  · rw [List.takeWhile_cons_of_pos (isWordChar_of_isLetter hc)]
  · exact List.all_takeWhile

theorem number_cons {c : Char} {cs : List Char}
    (h : (isDigit c || (c = '.' && startsDigit cs)) = true) : IsNumber (number (c :: cs)) := by
  refine ⟨number_number _, ?_⟩
  have hdec : ∃ d ds, decimal (c :: cs) = d :: ds ∧ (isDigit d || (d = '.' && startsDigit ds)) = true := by
    by_cases hd : isDigit c = true
    · refine ⟨c, ?_, ?_, by simp [hd]⟩
      · exact cs.takeWhile isDigit ++ (fraction ((c :: cs).drop ((c :: cs).takeWhile isDigit).length) ++
          exponent ((c :: cs).drop (((c :: cs).takeWhile isDigit).length +
            (fraction ((c :: cs).drop ((c :: cs).takeWhile isDigit).length)).length)))
      · simp [decimal, hd]
    · obtain ⟨rfl, hs⟩ : c = '.' ∧ startsDigit cs = true := by simpa [hd] using h
      obtain ⟨e, es, rfl⟩ : ∃ e es, cs = e :: es := by
        cases cs with
        | nil => simp [startsDigit] at hs
        | cons e es => exact ⟨e, es, rfl⟩
      have he : isDigit e = true := by simpa [startsDigit] using hs
      have hdot : e ≠ '.' := by rintro rfl; exact absurd he (by decide)
      have hw : ('.' :: e :: es).takeWhile isDigit = [] := by simp [isDigit]
      refine ⟨'.', e :: (es.takeWhile isDigit ++ exponent (('.' :: e :: es).drop
        (fraction ('.' :: e :: es)).length)), ?_, by simp [startsDigit, he]⟩
      simp only [decimal, hw, List.length_nil, List.drop_zero, List.nil_append, Nat.zero_add]
      simp [fraction, hdot, he]
  cases cs with
  | nil =>
    by_cases hc : c = '0'
    · subst hc; exact hdec
    · rw [number_eq_decimal hc]; exact hdec
  | cons x cs =>
    by_cases hc : c = '0'
    · subst hc
      by_cases hx : x = 'x' ∨ x = 'X'
      · exact ⟨'0', x :: cs.takeWhile isHexDigit, by simp [number, hx], rfl⟩
      · have : number ('0' :: x :: cs) = decimal ('0' :: x :: cs) := by simp [number, hx]
        rw [this]
        exact hdec
    · rw [number_eq_decimal hc]; exact hdec

theorem cut_of_first? {c : Char} {cs : List Char} {l : Lexeme} (h : first? c cs = some l) :
    Cut l.kind l.text l.quote := by
  unfold first? at h
  split at h
  · obtain rfl := Option.some.inj h
    unfold comment
    split <;> trivial
  split at h
  · rename_i hq
    obtain rfl := Option.some.inj h
    simp only [Bool.or_eq_true, decide_eq_true_eq] at hq
    have hq' : c ≠ '\\' := by rcases hq with rfl | rfl <;> decide
    exact ⟨c, rfl, hq, stringBody_stringBody hq' cs⟩
  split at h
  · rename_i hn
    obtain rfl := Option.some.inj h
    exact number_cons hn
  split at h
  · rename_i hc
    obtain rfl := Option.some.inj h
    have hw := isWord_takeWhile hc cs
    simp only [word, verbatim]
    split
    · rename_i hk
      exact ⟨hw, hk⟩
    · rename_i hk
      exact ⟨hw, by simpa using hk⟩
  unfold symbol? at h
  split at h
  · rename_i op hop
    obtain rfl := Option.some.inj h
    exact .inl (List.mem_of_find?_eq_some hop)
  split at h
  · rename_i hc
    obtain rfl := Option.some.inj h
    exact .inr ⟨c, by simpa using hc, rfl⟩
  split at h
  · rename_i hc
    obtain rfl := Option.some.inj h
    exact ⟨c, by simpa using hc, rfl⟩
  · simp at h

theorem splitBefore_append (mark cs : List Char) :
    (splitBefore mark cs).1 ++ (splitBefore mark cs).2 = cs := by
  induction cs with
  | nil => rfl
  | cons c cs ih =>
    simp only [splitBefore]
    split
    · rfl
    · simp [ih]

theorem stringBody_isPrefix (quote : Char) (cs : List Char) : stringBody quote cs <+: cs := by
  fun_induction stringBody quote cs with
  | case1 => exact List.prefix_refl _
  | case2 c cs ih => simpa using ih
  | case3 c cs hne h => exact List.nil_prefix
  | case4 c cs hne h ih => simpa using ih

theorem fraction_isPrefix (cs : List Char) : fraction cs <+: cs := by
  unfold fraction
  split
  · split
    · exact List.nil_prefix
    · simpa using List.takeWhile_prefix isDigit
  · exact List.nil_prefix

theorem exponent_isPrefix (cs : List Char) : exponent cs <+: cs := by
  cases cs with
  | nil => exact List.prefix_refl _
  | cons e cs =>
    simp only [exponent]
    split
    · rw [List.cons_append, List.prefix_cons_inj]
      generalize hs : (cs.head?.filter fun c => c = '+' || c = '-').toList = sign
      have hsign : sign <+: cs := by
        cases cs with
        | nil => simp [← hs]
        | cons d ds =>
          rw [List.head?_cons, Option.filter_some] at hs
          split at hs
          · subst hs; simp
          · subst hs; simp
      obtain ⟨rest, rfl⟩ := hsign
      rw [List.drop_left, List.prefix_append_right_inj]
      exact List.takeWhile_prefix isDigit
    · exact List.nil_prefix

theorem decimal_isPrefix (cs : List Char) : decimal cs <+: cs := by
  obtain ⟨rest, hrest⟩ := List.takeWhile_prefix (l := cs) isDigit
  simp only [decimal]
  generalize cs.takeWhile isDigit = whole at hrest ⊢
  subst hrest
  obtain ⟨rest', hpart⟩ := fraction_isPrefix rest
  rw [List.drop_left]
  generalize fraction rest = part at hpart ⊢
  subst hpart
  rw [List.append_assoc, List.prefix_append_right_inj, List.prefix_append_right_inj,
    ← List.append_assoc, ← List.length_append, List.drop_left]
  exact exponent_isPrefix rest'

theorem number_isPrefix (cs : List Char) : number cs <+: cs := by
  unfold number
  split
  · split
    · rw [List.prefix_cons_inj, List.prefix_cons_inj]
      exact List.takeWhile_prefix isHexDigit
    · exact decimal_isPrefix _
  · exact decimal_isPrefix _

theorem comment_isPrefix (cs : List Char) : (comment cs).source <+: '-' :: '-' :: cs := by
  unfold comment
  split
  · rename_i level _
    simp only [List.cons_append]
    rw [List.prefix_cons_inj, List.prefix_cons_inj, List.append_assoc]
    have h := splitBefore_append (']' :: (List.replicate level '=' ++ [']'])) (cs.drop (level + 2))
    conv_rhs => rw [← List.take_append_drop (level + 2) cs, ← h]
    rw [List.prefix_append_right_inj, List.prefix_append_right_inj]
    exact List.take_prefix _ _
  · rw [List.prefix_cons_inj, List.prefix_cons_inj]
    exact List.takeWhile_prefix _

theorem string_isPrefix (quote : Char) (cs : List Char) : (string quote cs).source <+: quote :: cs := by
  obtain ⟨rest, hrest⟩ := stringBody_isPrefix quote cs
  simp only [string]
  generalize stringBody quote cs = text at hrest ⊢
  subst hrest
  rw [List.cons_append, List.prefix_cons_inj, List.prefix_append_right_inj, List.drop_left]
  split
  · rename_i h
    cases rest with
    | nil => simp at h
    | cons d rest => simp_all
  · exact List.nil_prefix

/-- A lexeme takes a nonempty piece off the front of the text. -/
theorem source_prefix_of_first? {c : Char} {cs : List Char} {l : Lexeme} (h : first? c cs = some l) :
    l.source <+: c :: cs ∧ l.source ≠ [] := by
  unfold first? at h
  split at h
  · rename_i hd
    obtain rfl := Option.some.inj h
    simp only [Bool.and_eq_true, decide_eq_true_eq] at hd
    obtain ⟨rfl, hd⟩ := hd
    obtain ⟨rest, rfl⟩ : ∃ rest, cs = '-' :: rest := by
      cases cs with
      | nil => simp at hd
      | cons d rest => simp_all
    refine ⟨comment_isPrefix rest, ?_⟩
    simp only [List.tail_cons]
    unfold comment
    split <;> simp
  split at h
  · obtain rfl := Option.some.inj h
    exact ⟨string_isPrefix c cs, by simp [string]⟩
  split at h
  · rename_i hn
    obtain rfl := Option.some.inj h
    obtain ⟨-, d, ds, hd, -⟩ := number_cons hn
    exact ⟨number_isPrefix _, by simp [verbatim, hd]⟩
  split at h
  · rename_i hc
    obtain rfl := Option.some.inj h
    obtain ⟨d, ds, hd, -⟩ := isWord_takeWhile hc cs
    exact ⟨List.takeWhile_prefix _, by simp [word, verbatim, hd]⟩
  unfold symbol? at h
  split at h
  · rename_i op hop
    obtain rfl := Option.some.inj h
    have hpre := List.find?_some hop
    refine ⟨List.isPrefixOf_iff_prefix.mp hpre, ?_⟩
    rintro (rfl : op = [])
    exact absurd (List.mem_of_find?_eq_some hop) (by decide)
  split at h
  · obtain rfl := Option.some.inj h
    simp [verbatim]
  split at h
  · obtain rfl := Option.some.inj h
    simp [verbatim]
  · simp at h

end Lexeme

theorem piecesWithin_congr (cs : List Char) (b b' : List Char) (hb : cs.length ≤ b.length)
    (hb' : cs.length ≤ b'.length) : piecesWithin b cs = piecesWithin b' cs := by
  induction hn : cs.length using Nat.strongRecOn generalizing cs b b' with
  | ind n ih =>
    subst hn
    cases cs with
    | nil => cases b <;> cases b' <;> rfl
    | cons c cs =>
      cases b with
      | nil => simp at hb
      | cons x b =>
        cases b' with
        | nil => simp at hb'
        | cons x' b' =>
          simp only [List.length_cons, Nat.add_le_add_iff_right] at hb hb'
          simp only [piecesWithin]
          split
          · rename_i l hl
            have hpos := List.length_pos_iff.mpr (Lexeme.source_prefix_of_first? hl).2
            have hlen : ((c :: cs).drop l.source.length).length ≤ cs.length := by
              simp only [List.length_drop, List.length_cons]
              omega
            rw [ih _ (by simp only [List.length_cons]; omega) _ b b' (by omega) (by omega) rfl]
          · rw [ih cs.length (by simp) cs b b' hb hb' rfl]

theorem pieces_cons_lexeme {c : Char} {cs : List Char} {l : Lexeme} (h : Lexeme.first? c cs = some l) :
    pieces (c :: cs) = .lexeme l :: pieces ((c :: cs).drop l.source.length) := by
  have hpos := List.length_pos_iff.mpr (Lexeme.source_prefix_of_first? h).2
  simp only [pieces, piecesWithin, h]
  congr 1
  apply piecesWithin_congr
  · simp only [List.length_drop, List.length_cons]
    omega
  · exact Nat.le_refl _

theorem pieces_cons_gap {c : Char} {cs : List Char} (h : Lexeme.first? c cs = none) :
    pieces (c :: cs) = .gap c :: pieces cs := by
  simp only [pieces, piecesWithin, h]

namespace Piece

def source : Piece → List Char
  | gap c => [c]
  | lexeme l => l.source

def lexeme? : Piece → Option Lexeme
  | gap _ => none
  | lexeme l => some l

end Piece

/-- The text that pieces were cut from. -/
def sourceOf (ps : List Piece) : List Char := ps.flatMap Piece.source

def lexemesOf (ps : List Piece) : List Lexeme := ps.filterMap Piece.lexeme?

@[simp] theorem sourceOf_nil : sourceOf [] = [] := rfl

@[simp] theorem sourceOf_gap (c : Char) (ps : List Piece) :
    sourceOf (.gap c :: ps) = c :: sourceOf ps := rfl

@[simp] theorem sourceOf_lexeme (l : Lexeme) (ps : List Piece) :
    sourceOf (.lexeme l :: ps) = l.source ++ sourceOf ps := rfl

@[simp] theorem sourceOf_append (ps qs : List Piece) :
    sourceOf (ps ++ qs) = sourceOf ps ++ sourceOf qs := by
  simp [sourceOf]

@[simp] theorem lexemesOf_nil : lexemesOf [] = [] := rfl

@[simp] theorem lexemesOf_gap (c : Char) (ps : List Piece) :
    lexemesOf (.gap c :: ps) = lexemesOf ps := rfl

@[simp] theorem lexemesOf_lexeme (l : Lexeme) (ps : List Piece) :
    lexemesOf (.lexeme l :: ps) = l :: lexemesOf ps := rfl

@[simp] theorem lexemesOf_append (ps qs : List Piece) :
    lexemesOf (ps ++ qs) = lexemesOf ps ++ lexemesOf qs := by
  simp [lexemesOf]

/-- The pieces of a text cover it without gaps or overlaps. -/
theorem sourceOf_pieces (cs : List Char) : sourceOf (pieces cs) = cs := by
  induction hn : cs.length using Nat.strongRecOn generalizing cs with
  | ind n ih =>
    subst hn
    cases cs with
    | nil => rfl
    | cons c cs =>
      cases h : Lexeme.first? c cs with
      | none =>
        rw [pieces_cons_gap h, sourceOf_gap, ih cs.length (by simp) cs rfl]
      | some l =>
        obtain ⟨⟨rest, hrest⟩, hne⟩ := Lexeme.source_prefix_of_first? h
        have hpos := List.length_pos_iff.mpr hne
        have hlen : rest.length < (c :: cs).length := by
          rw [← hrest, List.length_append]
          omega
        rw [pieces_cons_lexeme h, sourceOf_lexeme, ← hrest, List.drop_left, ih _ hlen rest rfl]

/-- Every piece stays as it is when the text is read again: gaps are blank, and each lexeme ends
before what comes behind it. The text goes on with `next`. -/
def Clean : List Piece → Option Char → Prop
  | [], _ => True
  | .gap c :: ps, next => Text.isBlank c = true ∧ Clean ps next
  | .lexeme l :: ps, next =>
    l.Whole ∧ l.endsBefore ((sourceOf ps).head?.or next) = true ∧ Clean ps next

theorem clean_append {ps qs : List Piece} {next : Option Char} :
    Clean (ps ++ qs) next ↔ Clean ps ((sourceOf qs).head?.or next) ∧ Clean qs next := by
  induction ps with
  | nil => simp [Clean]
  | cons p ps ih =>
    cases p with
    | gap c => simp [Clean, ih, and_assoc]
    | lexeme l =>
      have hhead : (sourceOf (ps ++ qs)).head?.or next =
          (sourceOf ps).head?.or ((sourceOf qs).head?.or next) := by
        rw [sourceOf_append, List.head?_append, Option.or_assoc]
      simp only [List.cons_append, Clean, ih, hhead, and_assoc]

theorem pieces_append_of_clean {ps : List Piece} (rest : List Char) (h : Clean ps rest.head?) :
    pieces (sourceOf ps ++ rest) = ps ++ pieces rest := by
  induction ps with
  | nil => rfl
  | cons p ps ih =>
    cases p with
    | gap c =>
      rw [sourceOf_gap, List.cons_append, pieces_cons_gap (Lexeme.first?_of_isBlank h.1 _), ih h.2]
      rfl
    | lexeme l =>
      obtain ⟨hw, he, hc⟩ := h
      have hhead : (sourceOf ps ++ rest).head? = (sourceOf ps).head?.or rest.head? :=
        List.head?_append ..
      have hscan := Lexeme.scan?_of_whole hw (sourceOf ps ++ rest) (by rwa [hhead])
      obtain ⟨c, cs, hsrc⟩ := List.exists_cons_of_ne_nil (Lexeme.source_ne_nil_of_whole hw)
      rw [sourceOf_lexeme, List.append_assoc]
      have hdrop : (l.source ++ (sourceOf ps ++ rest)).drop l.source.length = sourceOf ps ++ rest :=
        List.drop_left ..
      generalize htext : l.source ++ (sourceOf ps ++ rest) = text at hscan hdrop ⊢
      cases text with
      | nil => simp [hsrc] at htext
      | cons d ds =>
        rw [pieces_cons_lexeme hscan, hdrop, ih hc]
        rfl

theorem pieces_sourceOf {ps : List Piece} (h : Clean ps none) : pieces (sourceOf ps) = ps := by
  have := pieces_append_of_clean [] h
  simpa [pieces, piecesWithin] using this

/-- The text consists of these lexemes and of blanks, and does so also before `next`. -/
def Spells (cs : List Char) (ls : List Lexeme) (next : Option Char) : Prop :=
  ∃ ps, sourceOf ps = cs ∧ lexemesOf ps = ls ∧ Clean ps next

namespace Spells

variable {next : Option Char}

theorem nil : Spells [] [] next := ⟨[], rfl, rfl, trivial⟩

theorem append {as bs : List Char} {ls ms : List Lexeme} (ha : Spells as ls (bs.head?.or next))
    (hb : Spells bs ms next) : Spells (as ++ bs) (ls ++ ms) next := by
  obtain ⟨ps, rfl, rfl, hp⟩ := ha
  obtain ⟨qs, rfl, rfl, hq⟩ := hb
  exact ⟨ps ++ qs, sourceOf_append .., lexemesOf_append .., clean_append.mpr ⟨hp, hq⟩⟩

theorem lexeme {l : Lexeme} (hl : l.Whole) (he : l.endsBefore next = true) :
    Spells l.source [l] next :=
  ⟨[.lexeme l], by simp, rfl, hl, by simpa using he, trivial⟩

theorem blanks {cs : List Char} (h : cs.all Text.isBlank = true) : Spells cs [] next := by
  induction cs with
  | nil => exact nil
  | cons c cs ih =>
    rw [List.all_cons, Bool.and_eq_true] at h
    obtain ⟨ps, rfl, hl, hp⟩ := ih h.2
    exact ⟨.gap c :: ps, rfl, hl, h.1, hp⟩

theorem lexeme_append {l : Lexeme} {bs : List Char} {ms : List Lexeme} (hl : l.Whole)
    (he : l.endsBefore (bs.head?.or next) = true) (hb : Spells bs ms next) :
    Spells (l.source ++ bs) (l :: ms) next :=
  (lexeme hl he).append hb

theorem blanks_append {as bs : List Char} {ms : List Lexeme} (h : as.all Text.isBlank = true)
    (hb : Spells bs ms next) : Spells (as ++ bs) ms next :=
  (blanks h).append hb

theorem lexemesOf_pieces {cs : List Char} {ls : List Lexeme} (h : Spells cs ls none) :
    lexemesOf (pieces cs) = ls := by
  obtain ⟨ps, rfl, rfl, hp⟩ := h
  rw [pieces_sourceOf hp]

theorem whole {cs : List Char} {ls : List Lexeme} (h : Spells cs ls next) : ∀ l ∈ ls, l.Whole := by
  obtain ⟨ps, -, rfl, hp⟩ := h
  induction ps with
  | nil => simp
  | cons p ps ih =>
    cases p with
    | gap c => exact ih hp.2
    | lexeme l => exact List.forall_mem_cons.mpr ⟨hp.1, ih hp.2.2⟩

end Spells

namespace Token

/-- The token without its place. -/
def unplaced (t : Token) : Token := { t with line := 0, column := 0 }

end Token

theorem Lexeme.kind_ne_comment_of_whole {l : Lexeme} (h : l.Whole) : l.kind ≠ .comment := by
  cases h <;> simp [keyword, name, numeral, operator, mark, literal, verbatim]

theorem map_unplaced_placed (p : Place) (ps : List Piece) :
    (placed p ps).map Token.unplaced =
      (lexemesOf ps).map (·.token ⟨0, 0⟩) ++ [.endOfInput 0 0] := by
  induction ps generalizing p with
  | nil => rfl
  | cons q ps ih =>
    cases q with
    | gap c => exact ih _
    | lexeme l => simp only [placed, List.map_cons, ih, lexemesOf_lexeme, List.cons_append]; rfl

/-- The tokens of a text that is spelled by known lexemes. -/
theorem Spells.map_unplaced_tokenize {s : String} {ls : List Lexeme} (h : Spells s.toList ls none)
    (firstLine : Nat) : (tokenize s firstLine).map Token.unplaced =
      ls.map (·.token ⟨0, 0⟩) ++ [.endOfInput 0 0] := by
  have hfilter : ∀ ts : List Token, (ts.filter (·.kind ≠ .comment)).map Token.unplaced =
      (ts.map Token.unplaced).filter (·.kind ≠ .comment) := by
    intro ts
    rw [List.filter_map]
    rfl
  rw [tokenize, hfilter, rawTokens, map_unplaced_placed, h.lexemesOf_pieces, List.filter_append]
  congr 1
  rw [List.filter_eq_self]
  intro t ht
  obtain ⟨l, hl, rfl⟩ := List.mem_map.mp ht
  exact decide_eq_true (Lexeme.kind_ne_comment_of_whole (h.whole l hl))

end ScriptGraph
