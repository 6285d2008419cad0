import ScriptGraph.Graph.Emitter
import ScriptGraph.Proofs.PrintedText

namespace ScriptGraph

/-- A visible character of the basic block. -/
def IsGraphic (c : Char) : Prop := 32 < c.toNat ∧ c.toNat < 127

instance (c : Char) : Decidable (IsGraphic c) := inferInstanceAs (Decidable (_ ∧ _))

theorem IsGraphic.isBlank {c : Char} (h : IsGraphic c) : Text.isBlank c = false := by
  rw [Bool.eq_false_iff]
  intro hb
  simp only [Text.isBlank, Text.blankRanges, List.any_cons, List.any_nil, Bool.or_eq_true, Bool.and_eq_true,
    decide_eq_true_eq, Bool.or_false] at hb
  obtain ⟨hlow, hhigh⟩ := h
  omega

namespace Lexeme

theorem isGraphic_of_isDigit {c : Char} (h : isDigit c = true) : IsGraphic c := by
  rw [isDigit_iff] at h
  exact ⟨by omega, by omega⟩

theorem isGraphic_of_isLetter {c : Char} (h : isLetter c = true) : IsGraphic c := by
  rw [isLetter_iff] at h
  rcases h with h | h | rfl
  · exact ⟨by omega, by omega⟩
  · exact ⟨by omega, by omega⟩
  · decide

theorem isGraphic_of_isWordChar {c : Char} (h : isWordChar c = true) : IsGraphic c := by
  rcases Bool.or_eq_true_iff.mp h with h | h
  · exact isGraphic_of_isLetter h
  · exact isGraphic_of_isDigit h

theorem isGraphic_of_isHexDigit {c : Char} (h : isHexDigit c = true) : IsGraphic c := by
  apply isGraphic_of_isWordChar
  simp only [isHexDigit, Bool.or_eq_true, Bool.and_eq_true, decide_eq_true_eq] at h
  rcases h with (h | h) | h
  · exact isWordChar_of_isDigit h
  · apply isWordChar_of_isLetter
    have hz : c ≤ 'z' := Char.le_trans h.2 (by decide)
    simp [isLetter, h.1, hz]
  · apply isWordChar_of_isLetter
    have hz : c ≤ 'Z' := Char.le_trans h.2 (by decide)
    simp [isLetter, h.1, hz]

theorem isGraphic_fraction (cs : List Char) : ∀ c ∈ fraction cs, IsGraphic c := by
  unfold fraction
  split
  · split
    · simp
    · exact List.forall_mem_cons.mpr ⟨by decide, fun c hc => isGraphic_of_isDigit (List.mem_takeWhile_imp hc)⟩
  · simp

theorem isGraphic_exponent (cs : List Char) : ∀ c ∈ exponent cs, IsGraphic c := by
  cases cs with
  | nil => simp [exponent]
  | cons e cs =>
    simp only [exponent]
    split
    · rename_i he
      simp only [Bool.and_eq_true, Bool.or_eq_true, decide_eq_true_eq] at he
      refine List.forall_mem_append.mpr ⟨List.forall_mem_cons.mpr ⟨?_, ?_⟩,
        fun c hc => isGraphic_of_isDigit (List.mem_takeWhile_imp hc)⟩
      · rcases he.1 with rfl | rfl <;> decide
      · intro c hc
        have hsign : c = '+' ∨ c = '-' := by
          simp only [Option.mem_toList, Option.filter_eq_some_iff] at hc
          simpa using hc.2
        rcases hsign with rfl | rfl <;> decide
    · simp

theorem isGraphic_decimal (cs : List Char) : ∀ c ∈ decimal cs, IsGraphic c := by
  refine List.forall_mem_append.mpr ⟨List.forall_mem_append.mpr ⟨?_, isGraphic_fraction _⟩, isGraphic_exponent _⟩
  exact fun c hc => isGraphic_of_isDigit (List.mem_takeWhile_imp hc)

theorem isGraphic_number (cs : List Char) : ∀ c ∈ number cs, IsGraphic c := by
  unfold number
  split
  · split
    · rename_i x cs hx
      refine List.forall_mem_cons.mpr ⟨by decide, List.forall_mem_cons.mpr ⟨?_, ?_⟩⟩
      · have hx : x = 'x' ∨ x = 'X' := by simpa using hx
        rcases hx with rfl | rfl <;> decide
      · exact fun c hc => isGraphic_of_isHexDigit (List.mem_takeWhile_imp hc)
    · exact isGraphic_decimal _
  · exact isGraphic_decimal _

theorem isGraphic_of_isWord {text : List Char} (h : IsWord text) : ∀ c ∈ text, IsGraphic c := by
  obtain ⟨c, cs, rfl, hc, hcs⟩ := h
  refine List.forall_mem_cons.mpr ⟨isGraphic_of_isLetter hc, fun d hd => ?_⟩
  exact isGraphic_of_isWordChar (List.all_eq_true.mp hcs d hd)

/-- All characters of a lexeme are visible, unless it is a string. -/
theorem Whole.isGraphic {l : Lexeme} (h : l.Whole) (hk : l.kind ≠ .string) : ∀ c ∈ l.source, IsGraphic c := by
  cases h with
  | keyword s h _ => exact isGraphic_of_isWord h
  | name s h _ => exact isGraphic_of_isWord h
  | numeral s h =>
    have hnumber := isGraphic_number s.toList
    rw [h.1] at hnumber
    exact hnumber
  | operator s h =>
    have hlong : ∀ op ∈ longOperators, ∀ c ∈ op, IsGraphic c := by simp [longOperators, IsGraphic]
    have hshort : ∀ c ∈ shortOperators, IsGraphic c := by simp [shortOperators, IsGraphic]
    change ∀ c ∈ s.toList, IsGraphic c
    rcases h with h | ⟨c, hc, h⟩
    · exact hlong _ h
    · rw [h]
      exact List.forall_mem_singleton.mpr (hshort c hc)
  | mark s c hc h =>
    have hmarks : ∀ c ∈ marks, IsGraphic c := by simp [marks, IsGraphic]
    change ∀ c ∈ s.toList, IsGraphic c
    rw [h]
    exact List.forall_mem_singleton.mpr (hmarks c hc)
  | literal value quote h hd => exact absurd rfl hk

/-- A lexeme ends with a character that is not blank. -/
theorem Whole.exists_last {l : Lexeme} (h : l.Whole) : ∃ cs c, l.source = cs ++ [c] ∧ Text.isBlank c = false := by
  by_cases hk : l.kind = .string
  · cases h with
    | literal value quote h hd =>
      refine ⟨quote :: value.toList, quote, rfl, ?_⟩
      rcases h.1 with rfl | rfl <;> decide
    | keyword | name | numeral | operator | mark => cases hk
  · have hne := source_ne_nil_of_whole h
    refine ⟨l.source.dropLast, l.source.getLast hne, (List.dropLast_concat_getLast hne).symm, ?_⟩
    exact (h.isGraphic hk _ (List.getLast_mem hne)).isBlank

/-- Only a string can hold a line break. -/
theorem Whole.newline_notMem {l : Lexeme} (h : l.Whole) (hk : l.kind = .string → '\n' ∉ l.text) : '\n' ∉ l.source := by
  by_cases hs : l.kind = .string
  · have htext := hk hs
    cases h with
    | literal value quote h hd =>
      have hq : '\n' ≠ quote := by rcases h.1 with rfl | rfl <;> decide
      simpa [Lexeme.literal, hq] using htext
    | keyword | name | numeral | operator | mark => cases hs
  · intro hmem
    exact absurd (h.isGraphic hs _ hmem) (by decide)

end Lexeme

namespace Text

/-- At the end of the text and before each of its line breaks stands a character that is not blank. -/
inductive Firm : List Char → Prop
  | last {as : List Char} {c : Char} (hn : '\n' ∉ as ++ [c]) (hc : isBlank c = false) : Firm (as ++ [c])
  | cons {as : List Char} {c : Char} {bs : List Char} (hn : '\n' ∉ as ++ [c]) (hc : isBlank c = false)
      (h : Firm bs) : Firm (as ++ [c] ++ '\n' :: bs)

theorem Firm.ne_nil {cs : List Char} (h : Firm cs) : cs ≠ [] := by
  cases h <;> simp

/-- A string goes over the end of a line behind a backslash only. -/
theorem firm_of_content {quote : Char} {cs : List Char} (hq : quote = '"' ∨ quote = '\'')
    (h : Lexeme.stringBody quote cs = cs) (as : List Char) (has : '\n' ∉ as) : Firm (as ++ cs ++ [quote]) := by
  have hquote : quote ≠ '\n' ∧ isBlank quote = false := by rcases hq with rfl | rfl <;> decide
  fun_induction Lexeme.stringBody quote cs generalizing as with
  | case1 => exact .last (by simp [has, hquote.1.symm]) hquote.2
  | case2 c cs ih =>
    have hrest : Lexeme.stringBody quote cs = cs := by simpa using h
    by_cases hc : c = '\n'
    · have hbreak : '\n' ∉ as ++ ['\\'] := by simp [has]
      have hfirm := Firm.cons hbreak (by decide) (ih hrest [] (by simp))
      simpa [hc] using hfirm
    · have hfirm := ih hrest (as ++ ['\\', c]) (by simp [has, Ne.symm hc])
      simpa using hfirm
  | case3 => cases h
  | case4 c cs _ hc ih =>
    simp only [Bool.or_eq_true, decide_eq_true_eq, not_or] at hc
    have hfirm := ih (by simpa using h) (as ++ [c]) (by simp [has, Ne.symm hc.2])
    simpa using hfirm

end Text

/-- Only a string has blanks and line breaks inside. -/
theorem Lexeme.Whole.firm {l : Lexeme} (h : l.Whole) : Text.Firm l.source := by
  by_cases hk : l.kind = .string
  · cases h with
    | literal value quote h hd =>
      refine Text.firm_of_content h.1 h.2 [quote] ?_
      rcases h.1 with rfl | rfl <;> decide
    | keyword | name | numeral | operator | mark => cases hk
  · obtain ⟨cs, c, hsource, hc⟩ := h.exists_last
    rw [hsource]
    refine .last (fun hmem => ?_) hc
    rw [← hsource] at hmem
    exact absurd (h.isGraphic hk _ hmem) (by decide)

namespace Text

theorem trimEndChars_cons (c : Char) (cs : List Char) : trimEndChars (c :: cs) =
    if trimEndChars cs = [] ∧ isBlank c = true then [] else c :: trimEndChars cs := by
  simp only [trimEndChars, List.reverse_cons, List.dropWhile_append, List.isEmpty_iff, List.reverse_eq_nil_iff]
  split
  · rename_i h
    by_cases hc : isBlank c = true <;> simp [h, hc]
  · rename_i h
    simp [h]

theorem trimEndChars_append_of_last {as : List Char} {c : Char} (hc : isBlank c = false) (cs : List Char) :
    trimEndChars (as ++ [c] ++ cs) = as ++ [c] ++ trimEndChars cs := by
  induction as with
  | nil => simp [trimEndChars_cons, hc]
  | cons a as ih =>
    have hne : trimEndChars (as ++ [c] ++ cs) ≠ [] := by
      rw [ih]
      simp
    rw [List.cons_append, List.cons_append, trimEndChars_cons, if_neg fun h => hne h.1, ih, List.cons_append]

theorem trimEndChars_eq_nil_iff {cs : List Char} : trimEndChars cs = [] ↔ cs.all isBlank = true := by
  induction cs with
  | nil => simp [trimEndChars]
  | cons c cs ih => rw [trimEndChars_cons]; simp [ih, and_comm]

/-- What is left of a text starts with its first character, if anything is left. -/
theorem head?_trimEndChars (cs : List Char) : trimEndChars cs = [] ∨ (trimEndChars cs).head? = cs.head? := by
  cases cs with
  | nil => exact .inl rfl
  | cons c cs =>
    rw [trimEndChars_cons]
    split
    · exact .inl rfl
    · exact .inr rfl

theorem splitLines_newline (cs : List Char) : splitLines ('\n' :: cs) = [] :: splitLines cs := by
  rw [splitLines]

theorem splitLines_return (cs : List Char) : splitLines ('\r' :: '\n' :: cs) = splitLines ('\n' :: cs) := by
  rw [splitLines, splitLines_newline]

/-- The first line, or nothing if there is no line. -/
def firstLine (cs : List Char) : List Char := (splitLines cs).headD []

theorem splitLines_cons {c : Char} {cs : List Char} (hc : c ≠ '\n') (hr : c = '\r' → cs.head? ≠ some '\n') :
    splitLines (c :: cs) = (c :: firstLine cs) :: (splitLines cs).tail := by
  rw [splitLines]
  · rw [firstLine]
    cases splitLines cs <;> rfl
  · rintro rest rfl rfl
    exact hr rfl rfl
  · exact hc

theorem eq_nil_of_splitLines {cs : List Char} (h : splitLines cs = []) : cs = [] := by
  cases cs with
  | nil => rfl
  | cons c cs =>
    rw [splitLines.eq_def] at h
    split at h
    · assumption
    · cases h
    · cases h
    · split at h <;> cases h

/-- The first line starts as the text does, unless it is empty. -/
theorem head?_firstLine (cs : List Char) : firstLine cs = [] ∨ (firstLine cs).head? = cs.head? := by
  cases cs with
  | nil => exact .inl rfl
  | cons c cs =>
    by_cases hc : c = '\n'
    · subst hc
      exact .inl (by rw [firstLine, splitLines_newline]; rfl)
    by_cases hr : c = '\r' ∧ cs.head? = some '\n'
    · obtain ⟨rfl, hhead⟩ := hr
      cases cs with
      | nil => cases hhead
      | cons d cs =>
        obtain rfl := Option.some.inj hhead
        exact .inl (by rw [firstLine, splitLines_return, splitLines_newline]; rfl)
    · exact .inr (by rw [firstLine, splitLines_cons hc fun h hhead => hr ⟨h, hhead⟩]; rfl)

theorem splitLines_append {as : List Char} {c : Char} (hn : '\n' ∉ as ++ [c]) (hc : c ≠ '\r') (cs : List Char) :
    splitLines (as ++ [c] ++ cs) = (as ++ [c] ++ firstLine cs) :: (splitLines cs).tail := by
  induction as with
  | nil =>
    have hne : c ≠ '\n' := by
      rintro rfl
      simp at hn
    exact splitLines_cons hne fun h => absurd h hc
  | cons a as ih =>
    have hne : a ≠ '\n' := by
      rintro rfl
      simp at hn
    have hrest : '\n' ∉ as ++ [c] := fun h => hn (List.mem_cons_of_mem a h)
    have hhead : (as ++ [c] ++ cs).head? ≠ some '\n' := by
      intro h
      cases as with
      | nil => simp_all
      | cons b bs => simp_all
    rw [List.cons_append, List.cons_append, splitLines_cons hne fun _ => hhead, firstLine, ih hrest]
    rfl

end Text

/-- Blanks spell nothing. -/
theorem Spells.eq_nil_of_isBlank {cs : List Char} {ls : List Lexeme} {next : Option Char} (h : Spells cs ls next)
    (hb : cs.all Text.isBlank = true) : ls = [] := by
  obtain ⟨ps, rfl, rfl, hp⟩ := h
  induction ps with
  | nil => rfl
  | cons p ps ih =>
    cases p with
    | gap c =>
      rw [sourceOf_gap, List.all_cons, Bool.and_eq_true] at hb
      exact ih hb.2 hp.2
    | lexeme l =>
      obtain ⟨cs, c, hsource, hc⟩ := hp.1.exists_last
      rw [sourceOf_lexeme, List.all_append, hsource] at hb
      simp [hc] at hb

namespace Emitter

/-- The text of rows, each with its line break. -/
def rowsText (rows : List String) : List Char := rows.flatMap fun row => row.toList ++ ['\n']

@[simp] theorem rowsText_nil : rowsText [] = [] := rfl

@[simp] theorem rowsText_cons (row : String) (rows : List String) :
    rowsText (row :: rows) = row.toList ++ '\n' :: rowsText rows := by
  simp [rowsText]

@[simp] theorem rowsText_append (rows rows' : List String) :
    rowsText (rows ++ rows') = rowsText rows ++ rowsText rows' := by
  simp [rowsText]

/-- The rows spell the lexemes, whatever comes below them. -/
def RowsSpell (rows : List String) (ls : List Lexeme) : Prop := ∀ next, Spells (rowsText rows) ls next

theorem RowsSpell.nil : RowsSpell [] [] := fun _ => Spells.nil

theorem RowsSpell.append {rows rows' : List String} {ls ms : List Lexeme} (h : RowsSpell rows ls)
    (h' : RowsSpell rows' ms) : RowsSpell (rows ++ rows') (ls ++ ms) := by
  intro next
  rw [rowsText_append]
  exact (h _).append (h' next)

theorem toList_indented (indent : String) (line : List Char) : (indented indent (String.ofList line)).toList =
    if Text.trimEndChars line = [] then [] else indent.toList ++ Text.trimEndChars line := by
  simp only [indented, Text.trimEnd, String.toList_ofList]
  by_cases h : Text.trimEndChars line = []
  · simp [h]
  · simp [h, String.isEmpty_iff]

theorem spells_indented {indent : String} (hi : Text.isBlankText indent = true) {line below : List Char}
    {ls : List Lexeme} {next : Option Char} (h : Spells (Text.trimEndChars line ++ '\n' :: below) ls next) :
    Spells ((indented indent (String.ofList line)).toList ++ '\n' :: below) ls next := by
  rw [toList_indented]
  split
  · rename_i he
    rwa [he] at h
  · rw [List.append_assoc]
    exact Spells.blanks_append hi h

/-- The rows of a text, without the indentation of the first one. -/
def rowsOf (indent : String) (cs : List Char) : List Char :=
  Text.trimEndChars (Text.firstLine cs) ++ '\n' ::
    rowsText ((Text.splitLines cs).tail.map fun line => indented indent (String.ofList line))

theorem rowsOf_append {as : List Char} {c : Char} (hn : '\n' ∉ as ++ [c]) (hc : Text.isBlank c = false)
    (indent : String) (cs : List Char) : rowsOf indent (as ++ [c] ++ cs) = as ++ [c] ++ rowsOf indent cs := by
  have hreturn : c ≠ '\r' := by
    rintro rfl
    exact absurd hc (by decide)
  rw [rowsOf, Text.firstLine, Text.splitLines_append hn hreturn, List.headD_cons, List.tail_cons,
    Text.trimEndChars_append_of_last hc, List.append_assoc, rowsOf]

/-- At the margin nothing is put behind a line break. -/
theorem rowsOf_newline {cs : List Char} (hne : cs ≠ []) : rowsOf "" ('\n' :: cs) = '\n' :: rowsOf "" cs := by
  rw [rowsOf, Text.firstLine, Text.splitLines_newline, List.headD_cons, List.tail_cons, rowsOf, Text.firstLine]
  cases hlines : Text.splitLines cs with
  | nil => exact absurd (Text.eq_nil_of_splitLines hlines) hne
  | cons line lines =>
    have hindent : (indented "" (String.ofList line)).toList = Text.trimEndChars line := by
      rw [toList_indented]
      split <;> simp_all
    rw [List.map_cons, rowsText_cons, hindent]
    rfl

/-- The line breaks inside a lexeme stay as they are, if there are any, at the margin. -/
theorem rowsOf_firm {as : List Char} (h : Text.Firm as) {indent : String} (hi : '\n' ∈ as → indent = "")
    (cs : List Char) :
    rowsOf indent (as ++ cs) = as ++ rowsOf indent cs := by
  induction h with
  | last hn hc => exact rowsOf_append hn hc indent cs
  | @cons as c bs hn hc h ih =>
    obtain rfl : indent = "" := hi (by simp)
    have hne : bs ++ cs ≠ [] := by simp [h.ne_nil]
    have hrest := ih fun _ => rfl
    rw [List.append_assoc, List.cons_append, rowsOf_append hn hc, rowsOf_newline hne, hrest]
    simp

theorem spells_newline {cs : List Char} {ls : List Lexeme} {next : Option Char} (h : Spells cs ls next) :
    Spells ('\n' :: cs) ls next :=
  Spells.blanks_append (by decide : ['\n'].all Text.isBlank = true) h

/-- A blank before a text is written as one, or as the end of a line, or not at all. -/
theorem spells_rowsOf_blank {indent : String} (hi : Text.isBlankText indent = true) {c : Char}
    (hblank : Text.isBlank c = true) {cs : List Char} {ls : List Lexeme} {next : Option Char}
    (h : Spells (rowsOf indent cs) ls next) : Spells (rowsOf indent (c :: cs)) ls next := by
  by_cases hc : c = '\n'
  · subst hc
    rw [rowsOf, Text.firstLine, Text.splitLines_newline, List.headD_cons, List.tail_cons]
    rw [rowsOf, Text.firstLine] at h
    cases hlines : Text.splitLines cs with
    | nil =>
      rw [hlines] at h
      exact h
    | cons line lines =>
      rw [hlines] at h
      rw [List.map_cons, rowsText_cons]
      exact spells_newline (spells_indented hi h)
  by_cases hr : c = '\r' ∧ cs.head? = some '\n'
  · obtain ⟨rfl, hhead⟩ := hr
    obtain ⟨cs, rfl⟩ := List.head?_eq_some_iff.mp hhead
    rw [rowsOf, Text.firstLine, Text.splitLines_return]
    exact h
  · rw [rowsOf, Text.firstLine, Text.splitLines_cons hc fun h hhead => hr ⟨h, hhead⟩, List.headD_cons, List.tail_cons,
      Text.trimEndChars_cons]
    rw [rowsOf] at h
    split
    · rename_i he
      rwa [he.1] at h
    · have hone : [c].all Text.isBlank = true := by simpa using hblank
      have hcons := Spells.blanks_append hone h
      exact hcons

/-- A lexeme is followed by what followed it before, or by the end of the line. -/
theorem spells_rowsOf_lexeme {indent : String} {l : Lexeme} (hwhole : l.Whole) (hl : '\n' ∈ l.source → indent = "")
    {cs : List Char} (hends : l.endsBefore (cs.head?.or (some '\n')) = true) {ls : List Lexeme} {next : Option Char}
    (h : Spells (rowsOf indent cs) ls next) : Spells (rowsOf indent (l.source ++ cs)) (l :: ls) next := by
  rw [rowsOf_firm hwhole.firm hl]
  refine Spells.lexeme_append hwhole ?_ h
  rw [rowsOf]
  rcases Text.head?_trimEndChars (Text.firstLine cs) with hnil | htrim
  · rw [hnil]
    exact Lexeme.endsBefore_of_breaks rfl
  rcases Text.head?_firstLine cs with hnil | hfirst
  · rw [hnil]
    exact Lexeme.endsBefore_of_breaks rfl
  · rw [List.head?_append, htrim, hfirst]
    cases hcs : cs.head? with
    | none => exact Lexeme.endsBefore_of_breaks rfl
    | some d =>
      rw [hcs] at hends
      exact hends

/-- The rows of a text spell its lexemes. -/
theorem spells_rowsOf {indent : String} (hi : Text.isBlankText indent = true) {ps : List Piece}
    (hp : Clean ps (some '\n')) (hn : indent ≠ "" → ∀ l ∈ lexemesOf ps, '\n' ∉ l.source) (next : Option Char) :
    Spells (rowsOf indent (sourceOf ps)) (lexemesOf ps) next := by
  induction ps with
  | nil => exact spells_newline Spells.nil
  | cons p ps ih =>
    cases p with
    | gap c =>
      rw [sourceOf_gap, lexemesOf_gap]
      exact spells_rowsOf_blank hi hp.1 (ih hp.2 hn)
    | lexeme l =>
      obtain ⟨hwhole, hends, hclean⟩ := hp
      have hl : '\n' ∈ l.source → indent = "" := by
        intro hmem
        by_contra hne
        exact hn hne l List.mem_cons_self hmem
      have hrest := ih hclean fun hne l hl => hn hne l (List.mem_cons_of_mem _ hl)
      rw [sourceOf_lexeme, lexemesOf_lexeme]
      exact spells_rowsOf_lexeme hwhole hl hends hrest

/-- The text spells the lexemes, and no line break is part of one, unless it is written at the margin. -/
structure TextSpells (flush : Bool) (text : String) (ls : List Lexeme) : Prop where
  spells : Spells text.toList ls (some '\n')
  unbroken : flush = false → ∀ l ∈ ls, '\n' ∉ l.source

/-- Written line by line, a text spells the same lexemes. -/
theorem TextSpells.rows {flush : Bool} {text indent : String} {ls : List Lexeme} (h : TextSpells flush text ls)
    (hi : Text.isBlankText indent = true) (hf : flush = true → indent = "") :
    RowsSpell ((Text.lines text).map (indented indent)) ls := by
  intro next
  have hspells := h.spells
  obtain ⟨⟨ps, hps, rfl, hclean⟩, hn⟩ := h
  have hrows := spells_rowsOf hi hclean (fun hne => hn (Bool.eq_false_iff.mpr fun h => hne (hf h))) next
  rw [hps, rowsOf, Text.firstLine] at hrows
  rw [Text.lines, List.map_map]
  cases hlines : Text.splitLines text.toList with
  | nil =>
    have hempty : lexemesOf ps = [] := hspells.eq_nil_of_isBlank (by rw [Text.eq_nil_of_splitLines hlines]; rfl)
    rw [hempty, List.map_nil, rowsText_nil]
    exact Spells.nil
  | cons line lines =>
    simp only [hlines, List.headD_cons, List.tail_cons] at hrows
    simp only [Function.comp_def, List.map_cons, rowsText_cons]
    exact spells_indented hi hrows

/-- `out` goes on as `out'`, by rows that spell the lexemes. -/
def Goes (out out' : Emitter) (ls : List Lexeme) : Prop :=
  ∃ rows, out' = { out with lines := out.lines ++ rows } ∧ RowsSpell rows ls

theorem Goes.refl (out : Emitter) : Goes out out [] := ⟨[], by simp, RowsSpell.nil⟩

theorem Goes.trans {out out' out'' : Emitter} {ls ms : List Lexeme} (h : Goes out out' ls) (h' : Goes out' out'' ms) :
    Goes out out'' (ls ++ ms) := by
  obtain ⟨rows, rfl, hrows⟩ := h
  obtain ⟨rows', rfl, hrows'⟩ := h'
  exact ⟨rows ++ rows', by simp, hrows.append hrows'⟩

/-- Blocks are indented by blanks, and if `flush`, none is open. -/
structure Ready (flush : Bool) (out : Emitter) : Prop where
  unit : Text.isBlankText out.unit = true
  closers : flush = true → out.closers = []

theorem Ready.write {flush : Bool} {out : Emitter} (hr : out.Ready flush) {text : String} {ls : List Lexeme}
    (h : TextSpells flush text ls) : Goes out (out.write text) ls := by
  refine ⟨_, rfl, h.rows (Text.isBlankText_repeated hr.unit _) fun hf => ?_⟩
  rw [hr.closers hf]
  rfl

/-- One block further in. -/
def within (out : Emitter) (closer : String) : Emitter := { out with closers := closer :: out.closers }

theorem openBlock_eq (out : Emitter) (opener closer : String) :
    out.openBlock opener closer = (out.write opener).within closer := rfl

theorem reopen_within (out : Emitter) (closer text : String) :
    (out.within closer).reopen text = (out.write text).within closer := rfl

theorem closeBlock_within (out : Emitter) (closer : String) : (out.within closer).closeBlock = out.write closer := rfl

theorem Ready.within {flush : Bool} {out : Emitter} (hr : out.Ready flush) (closer : String) :
    (out.within closer).Ready false := ⟨hr.unit, by simp⟩

theorem Goes.ready {flush : Bool} {out out' : Emitter} {ls : List Lexeme} (h : Goes out out' ls)
    (hr : out.Ready flush) : out'.Ready flush := by
  obtain ⟨rows, rfl, -⟩ := h
  exact ⟨hr.unit, hr.closers⟩

theorem Goes.of_within {out inner : Emitter} {closer : String} {ls : List Lexeme}
    (h : Goes (out.within closer) inner ls) : ∃ out', inner = out'.within closer ∧ Goes out out' ls := by
  obtain ⟨rows, rfl, hrows⟩ := h
  exact ⟨{ out with lines := out.lines ++ rows }, rfl, rows, rfl, hrows⟩

end Emitter

end ScriptGraph
