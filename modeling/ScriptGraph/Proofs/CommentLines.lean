import Mathlib.Data.List.Infix
import ScriptGraph.Proofs.BelowHeaders
import ScriptGraph.Proofs.LineBreaks
import ScriptGraph.Proofs.WrittenBlocks

namespace ScriptGraph

open Lexeme

namespace Text

theorem trimEndChars_append_of_blank {blanks : List Char} (h : blanks.all isBlank = true) (cs : List Char) :
    trimEndChars (cs ++ blanks) = trimEndChars cs := by
  rw [trimEndChars, List.reverse_append, List.dropWhile_append_of_pos (by simpa using h), trimEndChars]

theorem trimEndChars_concat {c : Char} (h : isBlank c = false) (cs : List Char) :
    trimEndChars (cs ++ [c]) = cs ++ [c] := by
  have htrim := @trimEndChars_append_of_last cs c h []
  rwa [List.append_nil, trimEndChars_nil, List.append_nil] at htrim

theorem mem_of_mem_trimEndChars {c : Char} {cs : List Char} (h : c ∈ trimEndChars cs) : c ∈ cs := by
  rw [trimEndChars, List.mem_reverse] at h
  exact List.mem_reverse.mp ((List.dropWhile_sublist _).subset h)

theorem newline_notMem_of_mem_splitLines (cs : List Char) : ∀ line ∈ splitLines cs, '\n' ∉ line := by
  fun_induction splitLines cs with
  | case1 => simp
  | case2 cs ih | case3 cs ih => simpa using ih
  | case4 c cs _ hc _ _ => simpa using Ne.symm hc
  | case5 c cs _ hc line lines hlines ih =>
    rw [hlines] at ih
    simpa [Ne.symm hc] using ih

theorem newline_notMem_firstLine (cs : List Char) : '\n' ∉ firstLine cs := by
  have hlines := newline_notMem_of_mem_splitLines cs
  rw [firstLine]
  cases h : splitLines cs with
  | nil => simp
  | cons line lines => exact hlines line (by simp [h])

/-- A text that ends within a line has one line for each line break, and a last one with its end. -/
theorem splitLines_concat (cs : List Char) {c : Char} (hc : c ≠ '\n') :
    ∃ above line, splitLines (cs ++ [c]) = above ++ [line ++ [c]] ∧ above.length = cs.count '\n' := by
  induction cs with
  | nil => exact ⟨[], [], by simp [splitLines], rfl⟩
  | cons d cs ih =>
    obtain ⟨above, line, hlines, hlength⟩ := ih
    by_cases hd : d = '\n'
    · refine ⟨[] :: above, line, ?_, by simp [hd, hlength]⟩
      rw [hd, List.cons_append, splitLines_newline, hlines, List.cons_append]
    rw [List.count_cons_of_ne hd, ← hlength]
    by_cases hr : d = '\r' ∧ (cs ++ [c]).head? = some '\n'
    · obtain ⟨rest, hrest⟩ : ∃ rest, cs ++ [c] = '\n' :: rest := List.head?_eq_some_iff.mp hr.2
      refine ⟨above, line, ?_, rfl⟩
      rw [List.cons_append, hrest, hr.1, splitLines_return, ← hrest, hlines]
    · have hcons := @splitLines_cons d (cs ++ [c]) hd fun h hhead => hr ⟨h, hhead⟩
      rw [firstLine, hlines] at hcons
      rw [List.cons_append, hcons]
      cases above with
      | nil => exact ⟨[], d :: line, rfl, rfl⟩
      | cons first above => exact ⟨(d :: first) :: above, line, rfl, rfl⟩

end Text

theorem Emitter.indented_ofList (indent : String) {line : List Char} (h : Text.trimEndChars line ≠ []) :
    indented indent (String.ofList line) = indent ++ String.ofList (Text.trimEndChars line) := by
  have hempty : (String.ofList (Text.trimEndChars line)).isEmpty = false := by simpa [← String.toList_inj] using h
  rw [indented, Text.trimEnd, String.toList_ofList, hempty]
  rfl

theorem lexemesOf_pieces_blanks_append {blanks : List Char} (h : blanks.all Text.isBlank = true) (cs : List Char) :
    lexemesOf (pieces (blanks ++ cs)) = lexemesOf (pieces cs) := by
  induction blanks with
  | nil => rfl
  | cons c blanks ih =>
    rw [List.all_cons, Bool.and_eq_true] at h
    rw [List.cons_append, pieces_cons_gap (first?_of_isBlank h.1 _), lexemesOf_gap, ih h.2]

/-- A text with a letter is not read as nothing. -/
theorem lexemesOf_pieces_ne_nil {c : Char} (hc : isLetter c = true) {cs : List Char} (h : c ∈ cs) :
    lexemesOf (pieces cs) ≠ [] := by
  induction cs with
  | nil => cases h
  | cons d cs ih =>
    cases hfirst : first? d cs with
    | some l =>
      rw [pieces_cons_lexeme hfirst, lexemesOf_lexeme]
      exact List.cons_ne_nil l _
    | none =>
      rw [pieces_cons_gap hfirst, lexemesOf_gap]
      rcases List.mem_cons.mp h with rfl | h
      · simp only [first?, hc, if_true] at hfirst
        split_ifs at hfirst
      · exact ih h

namespace Warning

/-- The id of the node that the warning is about. -/
def node : Warning → String
  | depthExceeded node _ | unreachable node => node

variable {w : Warning}

theorem newline_mem_message_iff : '\n' ∈ w.message.toList ↔ '\n' ∈ w.node.toList := by
  constructor
  · intro h
    by_contra hid
    cases w with
    | depthExceeded node limit => exact newline_notMem_depthExceeded hid limit h
    | unreachable node => exact newline_notMem_unreachable hid h
  · intro h
    cases w with
    | depthExceeded node limit =>
      have hid : '\n' ∈ node.toList := h
      simp [message_depthExceeded, hid]
    | unreachable node =>
      have hid : '\n' ∈ node.toList := h
      simp [message_unreachable, hid]

theorem toList_comment (w : Warning) : w.comment.toList = "-- luavisual: ".toList ++ w.message.toList :=
  String.toList_append

theorem exists_last_comment (w : Warning) : ∃ cs c, w.comment.toList = cs ++ [c] ∧ isLetter c = true := by
  cases w with
  | depthExceeded node limit =>
    refine ⟨"-- luavisual: block nesting deeper than ".toList ++ limit.repr.toList ++ " levels at node ".toList ++
      node.toList ++ ", subtree omitte".toList, 'd', ?_, rfl⟩
    simp [comment, message_depthExceeded]
  | unreachable node =>
    refine ⟨"-- luavisual: node ".toList ++ node.toList ++ " is not reachable from any roo".toList, 't', ?_, rfl⟩
    simp [comment, message_unreachable]

/-- The comment as it stands in a block. -/
def rows (indent : String) (w : Warning) : List String := (Text.lines w.comment).map (Emitter.indented indent)

/-- What the scanner reads as the comment: its first line. -/
def lexeme (w : Warning) : Lexeme :=
  let text := ' ' :: ("luavisual:".toList ++ Text.trimEndChars (Text.firstLine (' ' :: w.message.toList)))
  ⟨.comment, text, none, '-' :: '-' :: text⟩

/-- The last line ends with a letter, whatever the id is. -/
theorem exists_last_row (indent : String) (w : Warning) : ∃ above cs c,
    w.rows indent = above ++ [String.ofList (cs ++ [c])] ∧ isLetter c = true ∧
      (above = [] ↔ '\n' ∉ w.node.toList) := by
  obtain ⟨cs, c, hcomment, hc⟩ := w.exists_last_comment
  have hne : c ≠ '\n' := by
    rintro rfl
    cases hc
  have hblank : Text.isBlank c = false := (isGraphic_of_isLetter hc).isBlank
  obtain ⟨above, line, hlines, hlength⟩ := Text.splitLines_concat cs hne
  have htrim : Text.trimEndChars (line ++ [c]) = line ++ [c] := Text.trimEndChars_concat hblank line
  have hlast : Emitter.indented indent (String.ofList (line ++ [c])) =
      String.ofList (indent.toList ++ line ++ [c]) := by
    rw [Emitter.indented_ofList indent (by simp [htrim]), htrim]
    simp
  refine ⟨(above.map String.ofList).map (Emitter.indented indent), indent.toList ++ line, c, ?_, hc, ?_⟩
  · rw [rows, Text.lines, hcomment, hlines, List.map_append, List.map_append, List.map_singleton, List.map_singleton,
      hlast]
  · have hbreaks : cs.count '\n' = w.message.toList.count '\n' := by
      have hcount := congrArg (List.count '\n') (hcomment.symm.trans w.toList_comment)
      rw [List.count_append, List.count_append] at hcount
      simpa [List.count_singleton, hne] using hcount
    rw [List.map_eq_nil_iff, List.map_eq_nil_iff, ← List.length_eq_zero_iff, hlength, hbreaks, List.count_eq_zero,
      newline_mem_message_iff]

/-- The first line is the comment behind blanks. -/
theorem rows_eq_cons (indent : String) (w : Warning) :
    w.rows indent = (indent ++ String.ofList w.lexeme.source) :: (w.rows indent).tail := by
  have hline : Text.splitLines w.comment.toList =
      ("-- luavisual:".toList ++ Text.firstLine (' ' :: w.message.toList)) ::
        (Text.splitLines (' ' :: w.message.toList)).tail := by
    have hsplit := @Text.splitLines_append "-- luavisual".toList ':' (by decide) (by decide) (' ' :: w.message.toList)
    rw [toList_comment]
    exact hsplit
  have htrim : Text.trimEndChars ("-- luavisual:".toList ++ Text.firstLine (' ' :: w.message.toList)) =
      w.lexeme.source :=
    @Text.trimEndChars_append_of_last "-- luavisual".toList ':' (by decide) _
  have hne : w.lexeme.source ≠ [] := by simp [lexeme]
  rw [rows, Text.lines, hline, List.map_cons, List.map_cons, Emitter.indented_ofList indent (htrim ▸ hne), htrim,
    List.tail_cons]

theorem pieces_lexeme (w : Warning) : pieces w.lexeme.source = [.lexeme w.lexeme] := by
  have hline : '\n' ∉ "luavisual:".toList ++ Text.trimEndChars (Text.firstLine (' ' :: w.message.toList)) := by
    intro h
    rcases List.mem_append.mp h with h | h
    · exact absurd h (by decide)
    · exact Text.newline_notMem_firstLine _ (Text.mem_of_mem_trimEndChars h)
  have hcomment := @comment_line _ [] hline rfl
  rw [List.append_nil] at hcomment
  have hfirst : first? '-' ('-' :: w.lexeme.text) = some w.lexeme := by
    rw [first?_comment]
    exact congrArg some hcomment
  rw [show w.lexeme.source = '-' :: '-' :: w.lexeme.text from rfl, pieces_cons_lexeme hfirst]
  simp [lexeme, pieces, piecesWithin]

theorem isOpen_lexeme (w : Warning) : w.lexeme.isOpen = false := by
  have hlevel : longBracketLevel? (w.lexeme.source.drop 2) = none := by
    rw [lexeme, List.drop_succ_cons, List.drop_succ_cons, List.drop_zero, longBracketLevel?]
    exact fun _ h => by cases h
  rw [isOpen, isOpenComment, hlevel]
  rfl

end Warning

/-- Some lines of a script, and the warning that they are the comment on. -/
structure Passage where
  lines : List String
  warning? : Option Warning := none

namespace Passage

variable {ps qs : List Passage} {p : Passage} {w : Warning} {ws vs : List Warning}

def rows (ps : List Passage) : List String := ps.flatMap lines

/-- Passages one below the other. -/
def script (ps : List Passage) : String := "\n".intercalate (rows ps)

/-- The lines of a passage below its first one. -/
def rest (p : Passage) : Passage := { lines := p.lines.tail }

/-- The passage is the comment on a warning and takes one line. -/
def isNotice (p : Passage) : Bool := p.warning?.any fun w => '\n' ∉ w.node.toList

/-- The passages without the comments in one line. -/
def quiet (ps : List Passage) : List Passage := ps.filter (!·.isNotice)

def lexemes (ps : List Passage) : List Lexeme := lexemesOf (pieces (script ps).toList)

/-- What stands below the passages is read on its own: no string or comment of theirs goes on there. -/
def IsClear (ps : List Passage) : Prop := (lexemes ps).getLast?.any isOpen = false

/-- The lines of the passage are the comment on the warning. -/
def IsCommentOn (p : Passage) (w : Warning) : Prop :=
  ∃ indent : String, Text.isBlankText indent = true ∧ p.lines = w.rows indent

/-- The passages hold one comment on each of the warnings, in their order. -/
structure Carry (ps : List Passage) (ws : List Warning) : Prop where
  warnings : ps.filterMap warning? = ws
  comment : ∀ p ∈ ps, ∀ w, p.warning? = some w → p.IsCommentOn w

theorem rows_append (ps qs : List Passage) : rows (ps ++ qs) = rows ps ++ rows qs := List.flatMap_append

theorem rows_cons (p : Passage) (ps : List Passage) : rows (p :: ps) = p.lines ++ rows ps := List.flatMap_cons

/-- Passages are read by their lines. -/
theorem lexemes_congr (h : rows ps = rows qs) : lexemes ps = lexemes qs := by
  rw [lexemes, script, h, lexemes, script]

theorem script_append (hp : rows ps ≠ []) (hq : rows qs ≠ []) :
    (script (ps ++ qs)).toList = (script ps).toList ++ '\n' :: (script qs).toList := by
  have hrows := @Script.toList_intercalate (rows (ps ++ qs)) (by simp [rows_append, hp])
  rw [rows_append, Emitter.rowsText_append, ← Script.toList_intercalate hp, ← Script.toList_intercalate hq] at hrows
  rw [← List.append_left_inj ['\n'], script, rows_append, hrows, script, script]
  simp

/-- Below clear passages, the others are read as they are alone. -/
theorem lexemes_append (h : IsClear ps) (qs : List Passage) : lexemes (ps ++ qs) = lexemes ps ++ lexemes qs := by
  have hnil {ps : List Passage} (hps : rows ps = []) : lexemes ps = [] := by
    rw [lexemes, script, hps]
    rfl
  by_cases hp : rows ps = []
  · rw [hnil hp, List.nil_append]
    exact lexemes_congr (by rw [rows_append, hp, List.nil_append])
  by_cases hq : rows qs = []
  · rw [hnil hq, List.append_nil]
    exact lexemes_congr (by rw [rows_append, hq, List.append_nil])
  · have hbreak : pieces ('\n' :: (script qs).toList) = .gap '\n' :: pieces (script qs).toList :=
      pieces_cons_gap (first?_of_isBlank rfl _)
    rw [lexemes, script_append hp hq, pieces_append_line h rfl, hbreak, lexemesOf_append, lexemesOf_gap]
    rfl

/-- The first line of a comment on a warning is read as a comment, and nothing goes on from there. -/
theorem lexemes_comment (h : p.IsCommentOn w) (qs : List Passage) :
    lexemes (p :: qs) = w.lexeme :: lexemes (p.rest :: qs) := by
  obtain ⟨indent, hindent, hlines⟩ := h
  let first : Passage := { lines := [indent ++ String.ofList w.lexeme.source] }
  have hscript : (script [first]).toList = indent.toList ++ w.lexeme.source := by simp [script, rows, first]
  have hfirst : lexemes [first] = [w.lexeme] := by
    rw [lexemes, hscript, lexemesOf_pieces_blanks_append hindent, w.pieces_lexeme]
    rfl
  have hclear : IsClear [first] := by
    rw [IsClear, hfirst]
    exact w.isOpen_lexeme
  have hrows : rows (p :: qs) = rows ([first] ++ p.rest :: qs) := by
    have hcons := w.rows_eq_cons indent
    rw [← hlines] at hcons
    rw [rows_cons, hcons]
    simp [rows, rest, first]
  rw [lexemes_congr hrows, lexemes_append hclear, hfirst, List.singleton_append]

/-- A comment takes one line if the id does. -/
theorem IsCommentOn.rest_lines (h : p.IsCommentOn w) (hid : '\n' ∉ w.node.toList) : p.rest.lines = [] := by
  obtain ⟨indent, -, hlines⟩ := h
  obtain ⟨above, cs, c, hrows, -, hbreaks⟩ := w.exists_last_row indent
  rw [rest, hlines, hrows, hbreaks.mpr hid]
  rfl

/-- Behind a line break in the id the lines of the comment are read as code or as further comments. -/
theorem IsCommentOn.lexemes_rest (h : p.IsCommentOn w) (hid : '\n' ∈ w.node.toList) : lexemes [p.rest] ≠ [] := by
  obtain ⟨indent, -, hlines⟩ := h
  obtain ⟨above, cs, c, hrows, hc, hbreaks⟩ := w.exists_last_row indent
  have hne : above ≠ [] := fun hnil => hbreaks.mp hnil hid
  have hrest : rows [p.rest] = above.tail ++ [String.ofList (cs ++ [c])] := by
    simp [rows, rest, hlines, hrows, List.tail_append_of_ne_nil hne]
  have hmem : c ∈ (script [p.rest]).toList ++ ['\n'] := by
    rw [script, Script.toList_intercalate (by simp [hrest]), hrest]
    simp
  rcases List.mem_append.mp hmem with hmem | hmem
  · exact lexemesOf_pieces_ne_nil hc hmem
  · obtain rfl := List.mem_singleton.mp hmem
    cases hc

/-- A comment in one line is one lexeme between those above it and those below it. -/
theorem lexemes_around (hp : p.IsCommentOn w) (hid : '\n' ∉ w.node.toList) (h : IsClear ps) (qs : List Passage) :
    lexemes (ps ++ p :: qs) = lexemes ps ++ w.lexeme :: lexemes qs := by
  have hrows : rows (p.rest :: qs) = rows qs := by rw [rows_cons, hp.rest_lines hid, List.nil_append]
  rw [lexemes_append h, lexemes_comment hp, lexemes_congr hrows]

/-- Everything above a comment in one line is clear. -/
def Clear (ps : List Passage) : Prop :=
  ∀ above p below, ps = above ++ p :: below → p.isNotice = true → IsClear above

theorem Clear.of_append (h : Clear (ps ++ qs)) : Clear ps := by
  intro above p below hps
  exact h above p (below ++ qs) (by rw [hps]; simp)

/-- The lexemes that count for the program. -/
def code (ps : List Passage) : List Lexeme := (lexemes ps).filter (·.kind ≠ .comment)

theorem code_append (h : IsClear ps) (qs : List Passage) : code (ps ++ qs) = code ps ++ code qs := by
  rw [code, lexemes_append h, List.filter_append, code, code]

theorem code_around (hp : p.IsCommentOn w) (hid : '\n' ∉ w.node.toList) (h : IsClear ps) (qs : List Passage) :
    code (ps ++ p :: qs) = code ps ++ code qs := by
  have hcomment : (w.lexeme :: lexemes qs).filter (·.kind ≠ .comment) = (lexemes qs).filter (·.kind ≠ .comment) :=
    List.filter_cons_of_neg (by simp [Warning.lexeme])
  rw [code, lexemes_around hp hid h, List.filter_append, hcomment, code, code]

theorem exists_of_isNotice (h : p.isNotice = true) : ∃ w, p.warning? = some w ∧ '\n' ∉ w.node.toList := by
  rw [isNotice] at h
  cases hw : p.warning? with
  | none => simp [hw] at h
  | some w => exact ⟨w, rfl, by simpa [hw] using h⟩

/-- Without the comments in one line the same counts for the program, and what stands below is read as before. -/
theorem code_quiet (ps : List Passage) : ∀ qs : List Passage, Clear (ps ++ qs) →
    (∀ p ∈ ps, ∀ w, p.warning? = some w → p.IsCommentOn w) →
    code (quiet ps ++ qs) = code (ps ++ qs) ∧ (IsClear (ps ++ qs) → IsClear (quiet ps ++ qs)) := by
  -- `qs` are the passages below the last comment, which can be read as a whole only
  induction ps using List.reverseRecOn with
  | nil => exact fun qs _ _ => ⟨rfl, id⟩
  | append_singleton ps p ih =>
    intro qs hclear hps
    have hps' : ∀ q ∈ ps, ∀ w, q.warning? = some w → q.IsCommentOn w :=
      fun q hq => hps q (List.mem_append_left [p] hq)
    cases hp : p.isNotice with
    | false =>
      have hquiet : quiet (ps ++ [p]) ++ qs = quiet ps ++ p :: qs := by simp [quiet, hp]
      rw [hquiet, List.append_assoc, List.singleton_append]
      refine ih (p :: qs) ?_ hps'
      rwa [List.append_assoc, List.singleton_append] at hclear
    | true =>
      obtain ⟨w, hw, hid⟩ := exists_of_isNotice hp
      have hcomment : p.IsCommentOn w := hps p (by simp) w hw
      have habove : IsClear ps := hclear ps p qs (by simp) hp
      obtain ⟨hcode, hopen⟩ := ih [] (by simpa using hclear.of_append.of_append) hps'
      rw [List.append_nil, List.append_nil] at hcode hopen
      have hquiet : quiet (ps ++ [p]) ++ qs = quiet ps ++ qs := by simp [quiet, hp]
      rw [hquiet, List.append_assoc, List.singleton_append, code_around hcomment hid habove,
        code_append (hopen habove), hcode]
      refine ⟨rfl, fun hbelow => ?_⟩
      rw [IsClear, lexemes_around hcomment hid habove] at hbelow
      rw [IsClear, lexemes_append (hopen habove)]
      cases hqs : lexemes qs with
      | nil => simpa [IsClear] using hopen habove
      | cons l ls => simpa [hqs, List.getLast?_append, List.getLast?_cons] using hbelow

theorem Carry.append (h : Carry ps ws) (h' : Carry qs vs) : Carry (ps ++ qs) (ws ++ vs) where
  warnings := by rw [List.filterMap_append, h.warnings, h'.warnings]
  comment p hp := (List.mem_append.mp hp).elim (h.comment p) (h'.comment p)

theorem Carry.nil : Carry [] [] := ⟨rfl, by simp⟩

theorem Carry.lines (lines : List String) : Carry [{ lines }] [] where
  warnings := rfl
  comment p hp w hw := by
    obtain rfl := List.mem_singleton.mp hp
    cases hw

theorem toList_script_concat (ps : List Passage) (hp : p.lines ≠ []) :
    (script (ps ++ [p])).toList = Emitter.rowsText (rows ps) ++ (script [p]).toList := by
  have hone : rows [p] ≠ [] := by simpa [rows] using hp
  have hrows := @Script.toList_intercalate (rows (ps ++ [p])) (by simp [rows_append, hone])
  rw [rows_append, Emitter.rowsText_append, ← Script.toList_intercalate hone] at hrows
  rw [← List.append_left_inj ['\n'], script, rows_append, hrows, script, List.append_assoc]

/-- The last character of a comment on a warning is no blank. -/
theorem IsCommentOn.exists_last (h : p.IsCommentOn w) : ∃ cs c,
    Emitter.rowsText p.lines = cs ++ [c] ++ ['\n'] ∧ Text.isBlank c = false := by
  obtain ⟨indent, -, hlines⟩ := h
  obtain ⟨above, cs, c, hrows, hc, -⟩ := w.exists_last_row indent
  refine ⟨Emitter.rowsText above ++ cs, c, ?_, (isGraphic_of_isLetter hc).isBlank⟩
  rw [hlines, hrows, Emitter.rowsText_append]
  simp

theorem IsCommentOn.lines_ne_nil (h : p.IsCommentOn w) : p.lines ≠ [] := by
  obtain ⟨cs, c, hrows, -⟩ := h.exists_last
  intro hnil
  simp [hnil] at hrows

/-- It is enough that every line of the script ends clear. -/
theorem Carry.clear (h : Carry ps ws) (hlines : ∀ cs, cs ++ ['\n'] <+: (script ps).toList →
    (lexemesOf (pieces cs)).getLast?.any isOpen = false) : Clear ps := by
  rintro above p below rfl hp
  obtain ⟨w, hw, -⟩ := exists_of_isNotice hp
  have hbelow : rows (p :: below) ≠ [] := by
    rw [rows_cons]
    exact List.append_ne_nil_of_left_ne_nil (h.comment p (by simp) w hw).lines_ne_nil _
  by_cases habove : rows above = []
  · rw [IsClear, lexemes, script, habove]
    rfl
  · apply hlines
    rw [script_append habove hbelow]
    exact ⟨(script (p :: below)).toList, List.append_assoc _ _ _⟩

theorem IsCommentOn.not_all_isBlank (h : p.IsCommentOn w) : (Emitter.rowsText p.lines).all Text.isBlank = false := by
  obtain ⟨cs, c, hrows, hc⟩ := h.exists_last
  simp [hrows, hc]

theorem IsCommentOn.trimEndChars (h : p.IsCommentOn w) :
    Text.trimEndChars (Emitter.rowsText p.lines) = (script [p]).toList := by
  obtain ⟨cs, c, hrows, hc⟩ := h.exists_last
  have hscript : (script [p]).toList = cs ++ [c] := by
    rw [← List.append_left_inj ['\n'], ← hrows, ← Script.toList_intercalate h.lines_ne_nil, script, rows,
      List.flatMap_singleton]
  rw [hscript, hrows, Text.trimEndChars_append_of_blank rfl, Text.trimEndChars_concat hc]

/-- Blanks at the end belong to no comment on a warning, so they can be cut. -/
theorem Carry.exists_trimEnd (h : Carry ps ws) : ∃ qs, Carry qs ws ∧
    Text.trimEndChars (Emitter.rowsText (rows ps)) = (script qs).toList := by
  induction ps using List.reverseRecOn generalizing ws with
  | nil => exact ⟨[], h, rfl⟩
  | append_singleton ps p ih =>
    have hps : Carry ps (ps.filterMap warning?) := ⟨rfl, fun q hq => h.comment q (List.mem_append_left [p] hq)⟩
    have hp : ∀ w, p.warning? = some w → p.IsCommentOn w := h.comment p (by simp)
    have hrows : Emitter.rowsText (rows (ps ++ [p])) = Emitter.rowsText (rows ps) ++ Emitter.rowsText p.lines := by
      simp [rows]
    rw [hrows]
    cases hw : p.warning? with
    | some w =>
      have hcomment := hp w hw
      have hne : Text.trimEndChars (Emitter.rowsText p.lines) ≠ [] := by
        rw [ne_eq, Text.trimEndChars_eq_nil_iff, hcomment.not_all_isBlank]
        exact Bool.false_ne_true
      refine ⟨ps ++ [p], h, ?_⟩
      rw [toList_script_concat ps hcomment.lines_ne_nil, ← hcomment.trimEndChars, Text.trimEndChars_append hne]
    | none =>
      have hws : ps.filterMap warning? = ws := by
        rw [← h.warnings]
        simp [hw]
      rw [hws] at hps
      by_cases hblank : Text.trimEndChars (Emitter.rowsText p.lines) = []
      · obtain ⟨qs, hqs, htext⟩ := ih hps
        exact ⟨qs, hqs, htext ▸ Text.trimEndChars_append_of_blank (Text.trimEndChars_eq_nil_iff.mp hblank) _⟩
      · have hcarry := hps.append (Carry.lines [String.ofList (Text.trimEndChars (Emitter.rowsText p.lines))])
        rw [List.append_nil] at hcarry
        refine ⟨_, hcarry, ?_⟩
        rw [Text.trimEndChars_append hblank, toList_script_concat ps (by simp)]
        simp [script, rows]

/-- A blank text has no comments. -/
theorem Carry.eq_nil_of_blank (h : Carry ps ws) (hb : Text.isBlankText (script ps) = true) : ws = [] := by
  rw [← h.warnings, List.filterMap_eq_nil_iff]
  intro p hp
  cases hw : p.warning? with
  | none => rfl
  | some w =>
    have hcomment := h.comment p hp w hw
    obtain ⟨line, hline⟩ := List.exists_mem_of_ne_nil _ hcomment.lines_ne_nil
    have hne : rows ps ≠ [] := List.ne_nil_of_mem (List.mem_flatMap.mpr ⟨p, hp, hline⟩)
    have hrows : (Emitter.rowsText (rows ps)).all Text.isBlank = true := by
      rw [← Script.toList_intercalate hne, List.all_append, Bool.and_eq_true]
      exact ⟨hb, rfl⟩
    have hsub : Emitter.rowsText p.lines ⊆ Emitter.rowsText (rows ps) := by
      intro c hc
      obtain ⟨row, hrow, hc⟩ := List.mem_flatMap.mp hc
      exact List.mem_flatMap.mpr ⟨row, List.mem_flatMap.mpr ⟨p, hp, hrow⟩, hc⟩
    have hblank : (Emitter.rowsText p.lines).all Text.isBlank = true :=
      List.all_eq_true.mpr fun c hc => List.all_eq_true.mp hrows c (hsub hc)
    exact absurd hblank (by simp [hcomment.not_all_isBlank])

end Passage

namespace Event

open Passage

theorem unit_write (out : Emitter) (e : Event) : (e.write out).unit = out.unit := by
  cases e with
  | text | silent | cut | stray | enter => rfl
  | turn =>
    rw [write, Emitter.reopen]
    split <;> rfl
  | leave =>
    rw [write, Emitter.closeBlock]
    split <;> rfl

/-- An event writes one comment if it gives a warning, and otherwise lines that are none. -/
theorem exists_passages_write {out : Emitter} (hu : Text.isBlankText out.unit = true) (e : Event) :
    ∃ ps, (e.write out).lines = out.lines ++ rows ps ∧ Carry ps e.warning?.toList := by
  have hcomment (w : Warning) : ∃ ps, (out.write w.comment).lines = out.lines ++ rows ps ∧ Carry ps [w] := by
    let indent := Text.repeated out.unit out.closers.length
    refine ⟨[⟨w.rows indent, some w⟩], by simp [Emitter.write, rows, Warning.rows, indent], rfl, ?_⟩
    intro p hp v hv
    obtain rfl := List.mem_singleton.mp hp
    obtain rfl := Option.some.inj hv
    exact ⟨indent, Text.isBlankText_repeated hu _, rfl⟩
  have hlines (h : e.warning? = none) : ∃ ps, (e.write out).lines = out.lines ++ rows ps ∧
      Carry ps e.warning?.toList := by
    obtain ⟨more, hmore⟩ := exists_lines_write out e
    rw [h]
    exact ⟨[{ lines := more }], by simp [hmore, rows], Carry.lines more⟩
  cases e with
  | cut n limit => exact hcomment (.depthExceeded n.id limit)
  | stray n => exact hcomment (.unreachable n.id)
  | text | silent | enter | turn | leave => exact hlines rfl

theorem exists_passages_writeAll (es : List Event) : ∀ out : Emitter, Text.isBlankText out.unit = true →
    ∃ ps, (writeAll out es).lines = out.lines ++ rows ps ∧ Carry ps (es.filterMap warning?) := by
  induction es with
  | nil => exact fun out _ => ⟨[], by simp [writeAll, rows], Carry.nil⟩
  | cons e es ih =>
    intro out hu
    have hsplit : (e :: es).filterMap warning? = e.warning?.toList ++ es.filterMap warning? := by
      cases h : e.warning? <;> simp [h]
    obtain ⟨ps, hps, hcarry⟩ := exists_passages_write hu e
    obtain ⟨qs, hqs, hcarry'⟩ := ih (e.write out) (by rwa [unit_write])
    refine ⟨ps ++ qs, ?_, hsplit ▸ hcarry.append hcarry'⟩
    change (writeAll (e.write out) es).lines = _
    rw [hqs, hps, rows_append, List.append_assoc]

theorem exists_passages_blockText {unit : String} (hu : Text.isBlankText unit = true) (es : List Event) :
    ∃ ps, blockText unit es = script ps ∧ Carry ps (es.filterMap warning?) := by
  obtain ⟨ps, hps, hcarry⟩ := exists_passages_writeAll es { unit } hu
  obtain ⟨more, hmore⟩ := (writeAll { unit } es).exists_lines_finish
  refine ⟨ps ++ [{ lines := more }], ?_, ?_⟩
  · rw [blockText, hmore, hps, script, rows_append]
    simp [rows]
  · simpa using hcarry.append (Carry.lines more)

end Event

namespace Rendered

open Passage

/-- Blocks with an empty line below each. -/
theorem exists_passages_paragraphs {unit : String} (hu : Text.isBlankText unit = true) (blocks : List (List Event)) :
    ∃ ps, (((blocks.map (Event.blockText unit)).filter fun b => !Text.isBlankText b).flatMap
        fun b => (b ++ "\n\n").toList) = Emitter.rowsText (rows ps) ∧
      Carry ps (blocks.flatten.filterMap Event.warning?) := by
  induction blocks with
  | nil => exact ⟨[], rfl, Carry.nil⟩
  | cons es blocks ih =>
    obtain ⟨ps, hps, hcarry⟩ := Event.exists_passages_blockText hu es
    obtain ⟨qs, hqs, hcarry'⟩ := ih
    rw [List.flatten_cons, List.filterMap_append, List.map_cons]
    by_cases hblank : Text.isBlankText (Event.blockText unit es) = true
    · rw [List.filter_cons_of_neg (by simp [hblank]), hcarry.eq_nil_of_blank (hps ▸ hblank)]
      exact ⟨qs, hqs, hcarry'⟩
    · have hne : rows ps ≠ [] := by
        rintro hnil
        rw [hps, script, hnil] at hblank
        exact hblank rfl
      refine ⟨ps ++ [{ lines := [""] }] ++ qs, ?_, ?_⟩
      · rw [List.filter_cons_of_pos (by simpa using hblank), List.flatMap_cons, hqs, hps, rows_append, rows_append,
          Emitter.rowsText_append, Emitter.rowsText_append, ← Script.toList_intercalate hne]
        simp [script, rows]
      · have hrows := (hcarry.append (Carry.lines [""])).append hcarry'
        rwa [List.append_nil] at hrows

theorem exists_passages_join {unit : String} (hu : Text.isBlankText unit = true) (header : String)
    (blocks : List (List Event)) : ∃ ps, join header (blocks.map (Event.blockText unit)) = script ps ∧
      Carry ps (blocks.flatten.filterMap Event.warning?) := by
  obtain ⟨ps, hps, hcarry⟩ := exists_passages_paragraphs hu blocks
  let top : List String := if Text.isBlankText header then [] else [Text.trimEnd header]
  have htop : (top.flatMap fun b => (b ++ "\n\n").toList) = Emitter.rowsText (top.flatMap fun b => [b, ""]) := by
    simp only [top]
    split <;> simp
  have hrows := (Carry.lines (top.flatMap fun b => [b, ""])).append hcarry
  obtain ⟨qs, hqs, htext⟩ := hrows.exists_trimEnd
  refine ⟨qs, ?_, hqs⟩
  rw [← String.toList_inj, ← htext, rows_append, Emitter.rowsText_append, rows, List.flatMap_singleton, ← htop, ← hps,
    join, Text.trimEnd, String.toList_ofList, toList_paragraphs, List.flatMap_append]

theorem map_unplaced_tokenize_script (ps : List Passage) : (tokenize (script ps)).map Token.unplaced =
    (code ps).map (·.token ⟨0, 0⟩) ++ [.endOfInput 0 0] := by
  have hfilter (ts : List Token) : (ts.filter (·.kind ≠ .comment)).map Token.unplaced =
      (ts.map Token.unplaced).filter (·.kind ≠ .comment) := by
    rw [List.filter_map]
    rfl
  rw [tokenize, hfilter, rawTokens, map_unplaced_placed, List.filter_append, List.filter_map]
  rfl

/-- Each warning is told once, by lines of its own. Where no string or comment goes on from above, the first of these
lines is read as a comment, and the lines below as they would be without it. This is all that a warning adds, unless
the id of the node has a line break: then what follows in the id is read as well. The comments that take one line can
all be left out. -/
theorem warnings_are_comments {settings : RenderSettings} {g : Graph} {header : String}
    (hclosers : settings.balanceClosers = false) (hunit : Text.isBlankText settings.indent = true) :
    ∃ ps : List Passage, (ofGraph settings g header).text = script ps ∧ Carry ps (ofGraph settings g header).warnings ∧
      (∀ above p below w, ps = above ++ p :: below → p.warning? = some w →
        ('\n' ∉ w.node.toList → p.rest.lines = []) ∧ ('\n' ∈ w.node.toList → lexemes [p.rest] ≠ []) ∧
        (IsClear above → lexemes ps = lexemes above ++ w.lexeme :: lexemes (p.rest :: below) ∧
          lexemes (above ++ below) = lexemes above ++ lexemes below)) ∧
      (Clear ps → (tokenize (script ps)).map Token.unplaced = (tokenize (script (quiet ps))).map Token.unplaced) := by
  obtain ⟨blocks, -, hblocks, hwarnings⟩ := Draft.exists_runs g settings
  have hw : (ofGraph settings g header).warnings = blocks.flatten.filterMap Event.warning? := hwarnings
  obtain ⟨ps, hps, hcarry⟩ := exists_passages_join hunit
    (if Text.isBlankText header then settings.defaultHeader.getD header else header) blocks
  have htext : (ofGraph settings g header).text = script ps := by
    rw [← hps, ← hblocks, ofGraph]
    simp [hclosers]
  refine ⟨ps, htext, hw ▸ hcarry, ?_, ?_⟩
  · rintro above p below w rfl hp
    have hcomment : p.IsCommentOn w := hcarry.comment p (by simp) w hp
    refine ⟨hcomment.rest_lines, hcomment.lexemes_rest, fun hclear => ⟨?_, lexemes_append hclear below⟩⟩
    rw [lexemes_append hclear, lexemes_comment hcomment]
  · intro hclear
    have hcode := (code_quiet ps [] (by simpa using hclear) hcarry.comment).1
    rw [List.append_nil, List.append_nil] at hcode
    rw [map_unplaced_tokenize_script, map_unplaced_tokenize_script, hcode]

/-- The id would close a comment, and the string above is not closed. -/
theorem warnings_are_comments_below_string : ∃ (g : Graph) (settings : RenderSettings) (header : String),
    settings.balanceClosers = false ∧ Text.isBlankText settings.indent = true ∧
    (ofGraph settings g header).warnings = [.unreachable "]] f()"] ∧
    (tokenize (ofGraph settings g header).text).map Token.text = ["x", "=", "open", ""] ∧
    ∃ ps, (ofGraph settings g header).text = script ps ∧ Carry ps (ofGraph settings g header).warnings ∧
      (tokenize (script ps)).map Token.unplaced = (tokenize (script (quiet ps))).map Token.unplaced := by
  let g : Graph :=
    ⟨[{ id := "]] f()", kind := "custom-code" }], [{ id := "1", source := "]] f()", target := "]] f()" }]⟩
  let settings : RenderSettings := { balanceClosers := false }
  let text : String := "x = 'open\n\n-- luavisual: node ]] f() is not reachable from any root"
  have hrun : Text.isBlankText settings.indent = true ∧
      ofGraph settings g "x = 'open" = ⟨text, [.unreachable "]] f()"]⟩ ∧
      (tokenize text).map Token.text = ["x", "=", "open", ""] ∧
      (text.toList.inits.all fun cs =>
        cs.getLast? != some '\n' || !(lexemesOf (pieces cs.dropLast)).getLast?.any isOpen) = true := by
    decide +kernel
  obtain ⟨hunit, hrun, htokens, hclear⟩ := hrun
  obtain ⟨ps, htext, hcarry, -, hquiet⟩ := @warnings_are_comments settings g "x = 'open" rfl hunit
  refine ⟨g, settings, _, rfl, hunit, by rw [hrun], by rw [hrun, htokens], ps, htext, hcarry, hquiet (hcarry.clear ?_)⟩
  intro cs hcs
  rw [← htext, hrun] at hcs
  simpa using List.all_eq_true.mp hclear (cs ++ ['\n']) ((List.mem_inits _ _).mpr hcs)

-- below a comment that the code leaves open, an id can close it
example : ∃ g : Graph, (ofGraph { balanceClosers := false } g "--[[").warnings = [.unreachable "]] f() --"] ∧
    (tokenize (ofGraph { balanceClosers := false } g "--[[").text).map Token.text = ["f", "(", ")", ""] :=
  ⟨⟨[{ id := "]] f() --", kind := "custom-code" }],
    [{ id := "1", source := "]] f() --", target := "]] f() --" }]⟩, by decide +kernel⟩

/-- A line break in an id ends the comment: all of this script is the comment on one warning, and it calls a
function. -/
theorem warning_breaks_out : ∃ (g : Graph) (w : Warning),
    (ofGraph { balanceClosers := false } g "").warnings = [w] ∧
    (ofGraph { balanceClosers := false } g "").text = w.comment ∧
    (tokenize w.comment).map Token.text = ["os", ".", "exit", "(", ")", ""] := by
  refine ⟨⟨[{ id := "a\nos.exit() --", kind := "custom-code" }],
    [{ id := "1", source := "a\nos.exit() --", target := "a\nos.exit() --" }]⟩, .unreachable "a\nos.exit() --", ?_⟩
  decide +kernel

end Rendered

end ScriptGraph
