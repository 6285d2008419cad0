import ScriptGraph.Proofs.Rendering
import ScriptGraph.Proofs.Tiling

namespace ScriptGraph

open Lexeme

namespace Lexeme

def opens (l : Lexeme) : Bool := Balance.isOpener (l.token ⟨0, 0⟩)

def closes (l : Lexeme) : Bool := Balance.isCloser (l.token ⟨0, 0⟩)

/-- How many more blocks are opened than closed. -/
def excess (ls : List Lexeme) : Int := ls.countP opens - ls.countP closes

theorem excess_append (ls ms : List Lexeme) : excess (ls ++ ms) = excess ls + excess ms := by
  simp only [excess, List.countP_append]
  omega

theorem opens_of_kind {l : Lexeme} (h : l.kind ≠ .keyword) : l.opens = false := by
  simp [opens, Balance.isOpener, token, h]

theorem closes_of_kind {l : Lexeme} (h : l.kind ≠ .keyword) : l.closes = false := by
  simp [closes, Balance.isCloser, token, h]

theorem excess_of_kind {l : Lexeme} (h : l.kind ≠ .keyword) : excess [l] = 0 := by
  simp [excess, opens_of_kind h, closes_of_kind h]

end Lexeme

/-- How many more blocks a text opens than it closes. -/
def level (cs : List Char) : Int := excess (lexemesOf (pieces cs))

theorem Balance.ofText_eq_countP (s : String) :
    ofText s = ⟨(lexemesOf (pieces s.toList)).countP opens, (lexemesOf (pieces s.toList)).countP closes⟩ := by
  rw [ofText_eq, List.countP_map, List.countP_map]
  rfl

theorem Balance.level_eq (s : String) : level s.toList = (ofText s).openers - (ofText s).closers := by
  rw [ofText_eq_countP]
  rfl

theorem level_cons_gap {c : Char} {cs : List Char} (h : first? c cs = none) : level (c :: cs) = level cs := by
  rw [level, pieces_cons_gap h, lexemesOf_gap, level]

theorem level_cons_lexeme {c : Char} {cs rest : List Char} {l : Lexeme} (h : first? c cs = some l)
    (hrest : l.source ++ rest = c :: cs) : level (c :: cs) = excess [l] + level rest := by
  rw [level, pieces_cons_lexeme h, drop_length_of_append hrest, lexemesOf_lexeme, ← List.singleton_append,
    excess_append, level]

theorem level_blanks {blanks : List Char} (h : blanks.all Text.isBlank = true) (cs : List Char) :
    level (blanks ++ cs) = level cs := by
  induction blanks with
  | nil => rfl
  | cons c blanks ih =>
    rw [List.all_cons, Bool.and_eq_true] at h
    rw [List.cons_append, level_cons_gap (first?_of_isBlank h.1 _), ih h.2]

/-- Blanks at the end of a text change nothing. -/
theorem level_append_blanks (cs : List Char) {blanks : List Char} (h : blanks.all Text.isBlank = true) :
    level (cs ++ blanks) = level cs := by
  rw [level, excess, countP_append_blanks @opens_of_kind cs h, countP_append_blanks @closes_of_kind cs h]
  rfl

/-- No lexeme of the text could go on behind it, and it opens `k` more blocks than it closes. -/
structure Sealed (cs : List Char) (k : Int) : Prop where
  closed : ∀ l ∈ lexemesOf (pieces cs), l.isLoose = false
  level_eq : level cs = k

namespace Sealed

variable {as bs cs : List Char} {c : Char} {j k : Int}

theorem nil : Sealed [] 0 := ⟨by simp [pieces, piecesWithin], rfl⟩

theorem pieces_append (h : Sealed cs k) {rest : List Char} (hrest : startsApart rest = true) :
    pieces (cs ++ rest) = pieces cs ++ pieces rest := by
  rcases pieces_append_cases cs with hstays | ⟨ps, c, ds, l, -, -, hloose, hps, -⟩
  · exact hstays rest hrest
  · have hclosed := h.closed l (by simp [hps])
    rw [hclosed] at hloose
    cases hloose

theorem append (ha : Sealed as j) (hb : Sealed bs k) (hapart : startsApart bs = true) : Sealed (as ++ bs) (j + k) := by
  have hpieces := ha.pieces_append hapart
  refine ⟨?_, ?_⟩
  · rw [hpieces, lexemesOf_append]
    exact List.forall_mem_append.mpr ⟨ha.closed, hb.closed⟩
  · rw [level, hpieces, lexemesOf_append, excess_append]
    exact congrArg₂ (· + ·) ha.level_eq hb.level_eq

/-- A boundary in front is a piece of its own. -/
theorem cons (hc : isBoundary c = true) (h : Sealed cs k) : Sealed (c :: cs) k := by
  by_cases hblank : Text.isBlank c = true
  · have hpieces := pieces_cons_gap (first?_of_isBlank hblank cs)
    refine ⟨?_, ?_⟩
    · rw [hpieces]
      exact h.closed
    · rw [level, hpieces]
      exact h.level_eq
  · have hmark : c ∈ marks := by
      have hmem : c ∈ ['(', ')', ','] := by simpa [isBoundary, hblank] using hc
      exact (by decide : ['(', ')', ','] ⊆ marks) hmem
    have hfirst : first? c cs = some (verbatim .punctuation [c]) := scan?_mark hmark cs
    refine ⟨?_, ?_⟩
    · rw [pieces_cons_lexeme hfirst]
      exact List.forall_mem_cons.mpr ⟨rfl, h.closed⟩
    · rw [level_cons_lexeme hfirst rfl, h.level_eq, excess_of_kind (by simp [verbatim]), Int.zero_add]

theorem of_gap (h : Sealed (c :: cs) k) (hfirst : first? c cs = none) : Sealed cs k := by
  have hclosed := h.closed
  rw [pieces_cons_gap hfirst] at hclosed
  exact ⟨hclosed, (level_cons_gap hfirst).symm.trans h.level_eq⟩

theorem of_lexeme {l : Lexeme} {rest : List Char} (h : Sealed (c :: cs) k) (hfirst : first? c cs = some l)
    (hrest : l.source ++ rest = c :: cs) : l.isLoose = false ∧ Sealed rest (k - excess [l]) := by
  have hclosed := h.closed
  have hlevel := level_cons_lexeme hfirst hrest
  rw [pieces_cons_lexeme hfirst, drop_length_of_append hrest, lexemesOf_lexeme, List.forall_mem_cons] at hclosed
  rw [h.level_eq] at hlevel
  exact ⟨hclosed.1, hclosed.2, by omega⟩

/-- A text goes on behind a boundary. -/
theorem join (ha : Sealed as j) (hc : isBoundary c = true) (hb : Sealed bs k) : Sealed (as ++ c :: bs) (j + k) :=
  ha.append (hb.cons hc) (by simpa [startsApart] using hc)

end Sealed

/-- What the text adds to the level of whatever follows it. -/
def Adds (cs : List Char) (k : Int) : Prop := ∀ rest, level (cs ++ rest) = k + level rest

namespace Adds

variable {as bs : List Char} {j k : Int}

theorem nil : Adds [] 0 := fun _ => (Int.zero_add _).symm

theorem append (ha : Adds as j) (hb : Adds bs k) : Adds (as ++ bs) (j + k) := by
  intro rest
  rw [List.append_assoc, ha, hb, Int.add_assoc]

theorem blanks_append {blanks : List Char} (h : blanks.all Text.isBlank = true) (hb : Adds bs k) :
    Adds (blanks ++ bs) k := by
  intro rest
  rw [List.append_assoc, level_blanks h, hb]

end Adds

namespace Emitter

variable {indent : String} {c : Char} {cs : List Char}

/-- The rows of a text, without the indentation of the first one. -/
def reflowed (indent : String) (cs : List Char) : List Char :=
  Text.trimEndChars (Text.firstLine cs) ++ '\n' ::
    rowsText ((Text.splitLines cs).tail.map fun line => indented indent (String.ofList line))

/-- Is there something to be seen on the first line? -/
def Shows (cs : List Char) : Prop := Text.trimEndChars (Text.firstLine cs) ≠ []

/-- All rows of a text: the first one is indented, too, if something is on it. -/
theorem rowsText_splitLines (indent : String) (cs : List Char) :
    rowsText ((Text.splitLines cs).map fun line => indented indent (String.ofList line)) =
      if cs = [] then [] else if Text.trimEndChars (Text.firstLine cs) = [] then reflowed indent cs
        else indent.toList ++ reflowed indent cs := by
  cases hlines : Text.splitLines cs with
  | nil =>
    rw [if_pos (Text.eq_nil_of_splitLines hlines)]
    rfl
  | cons line lines =>
    have hne : cs ≠ [] := by
      rintro rfl
      cases hlines
    rw [if_neg hne, List.map_cons, rowsText_cons, toList_indented, reflowed, Text.firstLine, hlines, List.headD_cons,
      List.tail_cons]
    split
    · rename_i hblank
      rw [hblank]
    · rw [List.append_assoc]

theorem reflowed_newline (indent : String) (cs : List Char) : reflowed indent ('\n' :: cs) =
    '\n' :: rowsText ((Text.splitLines cs).map fun line => indented indent (String.ofList line)) := by
  rw [reflowed, Text.firstLine, Text.splitLines_newline]
  rfl

theorem reflowed_return (indent : String) (cs : List Char) :
    reflowed indent ('\r' :: '\n' :: cs) = reflowed indent ('\n' :: cs) := by
  rw [reflowed, Text.firstLine, Text.splitLines_return, reflowed, Text.firstLine]

theorem trimEndChars_firstLine (hc : c ≠ '\n') (hr : c = '\r' → cs.head? ≠ some '\n') :
    Text.trimEndChars (Text.firstLine (c :: cs)) =
      if Text.trimEndChars (Text.firstLine cs) = [] ∧ Text.isBlank c = true then []
      else c :: Text.trimEndChars (Text.firstLine cs) := by
  rw [Text.firstLine, Text.splitLines_cons hc hr, List.headD_cons, Text.trimEndChars_cons]

/-- A character stands in its row unless only blanks follow it there and it is blank itself. -/
theorem reflowed_cons (hc : c ≠ '\n') (hr : c = '\r' → cs.head? ≠ some '\n') :
    reflowed indent (c :: cs) =
      if Text.trimEndChars (Text.firstLine cs) = [] ∧ Text.isBlank c = true then reflowed indent cs
      else c :: reflowed indent cs := by
  rw [reflowed, trimEndChars_firstLine hc hr, Text.splitLines_cons hc hr, List.tail_cons, reflowed]
  split
  · rename_i hblank
    rw [hblank.1]
  · rfl

theorem Shows.cons (h : Shows cs) (hc : c ≠ '\n') (hr : c = '\r' → cs.head? ≠ some '\n') : Shows (c :: cs) := by
  rw [Shows, trimEndChars_firstLine hc hr, if_neg fun hblank => h hblank.1]
  exact List.cons_ne_nil _ _

theorem Shows.reflowed_cons (h : Shows cs) (hc : c ≠ '\n') (hr : c = '\r' → cs.head? ≠ some '\n') :
    reflowed indent (c :: cs) = c :: reflowed indent cs := by
  rw [Emitter.reflowed_cons hc hr, if_neg fun hblank => h hblank.1]

section Visible

variable (hc : Text.isBlank c = false)
include hc

theorem ne_of_isBlank {d : Char} (hd : Text.isBlank d = true) : c ≠ d := by
  rintro rfl
  rw [hc] at hd
  cases hd

theorem shows_cons (cs : List Char) : Shows (c :: cs) := by
  rw [Shows, trimEndChars_firstLine (ne_of_isBlank hc rfl) fun h => absurd h (ne_of_isBlank hc rfl),
    if_neg (by simp [hc])]
  exact List.cons_ne_nil _ _

theorem reflowed_cons_visible (indent : String) (cs : List Char) :
    reflowed indent (c :: cs) = c :: reflowed indent cs := by
  rw [reflowed_cons (ne_of_isBlank hc rfl) fun h => absurd h (ne_of_isBlank hc rfl), if_neg (by simp [hc])]

end Visible

theorem reflowed_append_visible {as : List Char} (h : ∀ c ∈ as, Text.isBlank c = false) (indent : String)
    (cs : List Char) : reflowed indent (as ++ cs) = as ++ reflowed indent cs := by
  induction as with
  | nil => rfl
  | cons c as ih =>
    obtain ⟨hc, has⟩ := List.forall_mem_cons.mp h
    rw [List.cons_append, reflowed_cons_visible hc, ih has, List.cons_append]

/-- Rows start as their text does, or with a blank. -/
theorem head?_reflowed (indent : String) (cs : List Char) :
    (reflowed indent cs).head? = cs.head? ∨ (reflowed indent cs).head? = some '\n' := by
  rcases Text.head?_trimEndChars (Text.firstLine cs) with hnil | htrim
  · right
    rw [reflowed, hnil]
    rfl
  rcases Text.head?_firstLine cs with hnil | hfirst
  · right
    rw [reflowed, hnil]
    rfl
  · rw [reflowed, List.head?_append, htrim, hfirst]
    cases cs with
    | nil => exact .inr rfl
    | cons d cs => exact .inl rfl

theorem reflowed_ne_nil (indent : String) (cs : List Char) : reflowed indent cs ≠ [] := by simp [reflowed]

section Strings

variable {quote : Char} {text : List Char} (hq : quote = '"' ∨ quote = '\'')
include hq

theorem stringBody_blanks_append {blanks : List Char} (hb : blanks.all Text.isBlank = true) (hn : '\n' ∉ blanks)
    (h : stringBody quote text = text) (hd : dangles text = false) :
    stringBody quote (blanks ++ text) = blanks ++ text ∧ dangles (blanks ++ text) = false := by
  induction blanks with
  | nil => exact ⟨h, hd⟩
  | cons c blanks ih =>
    obtain ⟨hc, hb⟩ := Bool.and_eq_true_iff.mp (List.all_cons.symm.trans hb)
    obtain ⟨hstring, hdangles⟩ := ih hb fun hmem => hn (List.mem_cons_of_mem c hmem)
    have hbackslash : c ≠ '\\' := by
      rintro rfl
      cases hc
    have hquote : c ≠ quote := by
      rintro rfl
      rcases hq with rfl | rfl <;> cases hc
    have hnewline : c ≠ '\n' := by
      rintro rfl
      exact hn List.mem_cons_self
    constructor
    · rw [List.cons_append, stringBody_cons hbackslash, if_neg (by simp [hquote, hnewline]), hstring]
    · rw [List.cons_append, dangles, hdangles]
      · exact fun h => absurd h hbackslash
      · exact fun _ _ h => absurd h hbackslash

/-- A closed string stays one when its lines are indented, as each line break in it is escaped. -/
theorem reflowed_string (hi : Text.isBlankText indent = true) (hn : '\n' ∉ indent.toList)
    (h : stringBody quote text = text) (hd : dangles text = false) (cs : List Char) :
    Shows (text ++ quote :: cs) ∧ ∃ text', stringBody quote text' = text' ∧ dangles text' = false ∧
      reflowed indent (text ++ quote :: cs) = text' ++ quote :: reflowed indent cs := by
  have hquote : Text.isBlank quote = false := by rcases hq with rfl | rfl <;> rfl
  have hreturn {t : List Char} (ht : stringBody quote t = t) : (t ++ quote :: cs).head? ≠ some '\n' := by
    cases t with
    | nil =>
      intro hhead
      obtain rfl := Option.some.inj hhead
      cases hquote
    | cons c t =>
      intro hhead
      obtain rfl := Option.some.inj hhead
      rw [stringBody_cons (by decide), if_pos (by simp)] at ht
      cases ht
  fun_induction dangles text with
  | case1 => exact ⟨shows_cons hquote cs, [], rfl, rfl, reflowed_cons_visible hquote indent cs⟩
  | case2 => cases hd
  | case3 c text ih =>
    rw [stringBody_escape] at h
    have htext : stringBody quote text = text := by simpa using h
    obtain ⟨hshows, text', hbody, hdangles, hreflowed⟩ := ih htext hd
    rw [List.cons_append, List.cons_append]
    refine ⟨shows_cons rfl _, ?_⟩
    rw [reflowed_cons_visible rfl]
    by_cases hc : c = '\n'
    · subst hc
      obtain ⟨hbody', hdangles'⟩ := stringBody_blanks_append hq hi hn hbody hdangles
      refine ⟨'\\' :: '\n' :: (indent.toList ++ text'), ?_, ?_, ?_⟩
      · rw [stringBody_escape, hbody']
      · rw [dangles, hdangles']
      · rw [reflowed_newline, rowsText_splitLines, if_neg (by simp), if_neg hshows, hreflowed]
        simp
    · refine ⟨'\\' :: c :: text', ?_, ?_, ?_⟩
      · rw [stringBody_escape, hbody]
      · rw [dangles, hdangles]
      · rw [hshows.reflowed_cons hc fun _ => hreturn htext, hreflowed]
        rfl
  | case4 c text hlast hpair ih =>
    have hbackslash : c ≠ '\\' := by
      rintro rfl
      cases text with
      | nil => exact hlast rfl rfl
      | cons d text => exact hpair d text rfl rfl
    rw [stringBody_cons hbackslash] at h
    split at h
    · cases h
    rename_i hstop
    have htext : stringBody quote text = text := by simpa using h
    have hc : c ≠ '\n' := by
      rintro rfl
      simp at hstop
    obtain ⟨hshows, text', hbody, hdangles, hreflowed⟩ := ih htext hd
    rw [List.cons_append]
    refine ⟨hshows.cons hc fun _ => hreturn htext, c :: text', ?_, ?_, ?_⟩
    · rw [stringBody_cons hbackslash, if_neg hstop, hbody]
    · rw [dangles, hdangles]
      · exact fun h => absurd h hbackslash
      · exact fun _ _ h => absurd h hbackslash
    · rw [hshows.reflowed_cons hc fun _ => hreturn htext, hreflowed]
      rfl

end Strings

end Emitter

/-- The content of a closed string does not end in a backslash of its own. -/
theorem Lexeme.dangles_of_closed {quote : Char} {cs : List Char}
    (h : (cs.drop (stringBody quote cs).length).head? = some quote) : dangles (stringBody quote cs) = false := by
  fun_induction stringBody quote cs with
  | case1 => rfl
  | case2 c cs ih =>
    rw [dangles]
    exact ih (by simpa using h)
  | case3 => rfl
  | case4 c cs hpair hstop ih =>
    have hrest := ih (by simpa using h)
    have hbackslash : c ≠ '\\' := by
      rintro rfl
      cases cs with
      | nil => cases h
      | cons d cs => exact hpair d cs rfl rfl
    rw [dangles, hrest]
    · exact fun h => absurd h hbackslash
    · exact fun _ _ h => absurd h hbackslash

/-- Names, numbers and signs are found again alone. -/
theorem Lexeme.whole_of_cut {kind : TokenKind} {text : List Char} (h : Cut kind text none) (hk : kind ≠ .comment) :
    (verbatim kind text).Whole := by
  have htext : (String.ofList text).toList = text := String.toList_ofList
  cases kind with
  | keyword => simpa [Lexeme.keyword, htext] using Whole.keyword (String.ofList text) (htext.symm ▸ h.1) h.2
  | identifier => simpa [Lexeme.name, htext] using Whole.name (String.ofList text) (htext.symm ▸ h.1) h.2
  | number => simpa [numeral, htext] using Whole.numeral (String.ofList text) (htext.symm ▸ h)
  | operator => simpa [Lexeme.operator, htext] using Whole.operator (String.ofList text) (htext.symm ▸ h)
  | punctuation =>
    obtain ⟨c, hc, rfl⟩ := h
    simpa [Lexeme.mark, htext] using Whole.mark (String.ofList [c]) c hc htext
  | string =>
    obtain ⟨q, hq, -⟩ := h
    cases hq
  | comment => exact absurd rfl hk
  | eof => exact h.elim

namespace Emitter

variable {indent : String} {c : Char} {cs : List Char}

/-- What ends a lexeme in a text, ends it in the rows of the text. -/
theorem exists_reflowed_apart (indent : String) (cs : List Char) : ∃ as bs, cs = as ++ bs ∧ startsApart bs = true ∧
    reflowed indent cs = as ++ reflowed indent bs ∧ ∀ rest, startsApart (reflowed indent bs ++ rest) = true := by
  generalize has : cs.takeWhile (!Text.isBlank ·) = as
  generalize hbs : cs.dropWhile (!Text.isBlank ·) = bs
  have hcs : cs = as ++ bs := by rw [← has, ← hbs, List.takeWhile_append_dropWhile]
  have hvisible : ∀ d ∈ as, Text.isBlank d = false := by
    intro d hd
    rw [← has] at hd
    simpa using List.mem_takeWhile_imp hd
  have hblank : ∀ d ∈ bs.head?, isBoundary d = true := by
    intro d hd
    have hnot := List.head?_dropWhile_not (!Text.isBlank ·) cs
    rw [hbs, Option.mem_def.mp hd] at hnot
    exact isBoundary_of_isBlank (by simpa using hnot)
  refine ⟨as, bs, hcs, ?_, by rw [hcs, reflowed_append_visible hvisible], fun rest => ?_⟩
  · rw [startsApart, Option.all_eq_true]
    exact hblank
  · rw [startsApart, Option.all_eq_true]
    intro d hd
    rw [List.head?_append_of_ne_nil _ (reflowed_ne_nil indent bs)] at hd
    rcases head?_reflowed indent bs with hhead | hhead
    · exact hblank d (hhead ▸ hd)
    · rw [hhead] at hd
      obtain rfl := Option.some.inj hd
      rfl

/-- Names, numbers and signs are found in the rows of a text as in the text. -/
theorem first?_reflowed (indent : String) {as cs : List Char} (hdash : ¬ (c = '-' ∧ (as ++ cs).head? = some '-'))
    (hquote : ¬ (c = '"' ∨ c = '\'')) (rest : List Char) :
    first? c (as ++ (reflowed indent cs ++ rest)) = first? c (as ++ cs) := by
  obtain ⟨bs, ds, rfl, hapart, hreflowed, happend⟩ := exists_reflowed_apart indent cs
  have hdash' : ¬ (c = '-' ∧ (as ++ bs).head? = some '-') := by
    rintro ⟨hc, hhead⟩
    refine hdash ⟨hc, ?_⟩
    rw [← List.append_assoc, List.head?_append, hhead]
    rfl
  rw [hreflowed, List.append_assoc, ← List.append_assoc as, ← List.append_assoc as,
    first?_append_apart (happend rest) hdash' hquote, first?_append_apart hapart hdash' hquote]

/-- What belongs to no lexeme in a text, belongs to none in its rows. -/
theorem first?_reflowed_eq_none (h : first? c cs = none) (rest : List Char) :
    first? c (reflowed indent cs ++ rest) = none := by
  have hdash : ¬ (c = '-' ∧ cs.head? = some '-') := by
    rintro ⟨rfl, hhead⟩
    obtain ⟨ds, rfl⟩ := List.head?_eq_some_iff.mp hhead
    cases h
  have hquote : ¬ (c = '"' ∨ c = '\'') := by
    intro hq
    rw [first?_quote hq] at h
    cases h
  exact (@first?_reflowed c indent [] cs hdash hquote rest).trans h

section Rows

variable {k : Int} (hi : Text.isBlankText indent = true)
include hi

theorem adds_rows (h : Adds (reflowed indent cs) k) :
    Adds (rowsText ((Text.splitLines cs).map fun line => indented indent (String.ofList line))) k := by
  rw [rowsText_splitLines]
  split
  · rename_i hnil
    subst hnil
    intro rest
    rw [List.nil_append, ← h rest]
    exact (level_cons_gap (first?_of_isBlank (by decide) rest)).symm
  split
  · exact h
  · exact h.blanks_append hi

theorem adds_reflowed_gap (hfirst : first? c cs = none) (h : Adds (reflowed indent cs) k) :
    Adds (reflowed indent (c :: cs)) k := by
  by_cases hc : c = '\n'
  · subst hc
    rw [reflowed_newline, ← List.singleton_append]
    exact Adds.blanks_append (by decide : ['\n'].all Text.isBlank = true) (adds_rows hi h)
  by_cases hr : c = '\r' ∧ cs.head? = some '\n'
  · obtain ⟨rfl, hhead⟩ := hr
    obtain ⟨ds, rfl⟩ := List.head?_eq_some_iff.mp hhead
    rwa [reflowed_return]
  rw [reflowed_cons hc fun h hhead => hr ⟨h, hhead⟩]
  split
  · exact h
  · intro rest
    rw [List.cons_append, level_cons_gap (first?_reflowed_eq_none hfirst rest), h]

variable (hn : '\n' ∉ indent.toList)
include hn

theorem adds_reflowed_string {quote : Char} {rest : List Char} (hq : quote = '"' ∨ quote = '\'')
    (hclosed : (string quote cs).isLoose = false) (hrest : (string quote cs).source ++ rest = quote :: cs)
    (h : Adds (reflowed indent rest) k) : Adds (reflowed indent (quote :: cs)) k := by
  have hbackslash : quote ≠ '\\' := by rcases hq with rfl | rfl <;> decide
  have hvisible : Text.isBlank quote = false := by rcases hq with rfl | rfl <;> rfl
  rw [isLoose_string, Bool.not_eq_false', decide_eq_true_eq] at hclosed
  have hcs : stringBody quote cs ++ quote :: rest = cs := by simpa [string, hclosed] using hrest
  obtain ⟨-, text, hbody, hdangles, hreflowed⟩ := reflowed_string hq hi hn
    (stringBody_stringBody hbackslash cs) (dangles_of_closed hclosed) rest
  rw [hcs] at hreflowed
  rw [reflowed_cons_visible hvisible, hreflowed]
  intro below
  have htext : stringBody quote (text ++ quote :: (reflowed indent rest ++ below)) = text :=
    stringBody_append hbackslash (.inl rfl) hbody hdangles _
  have hsource : (string quote (text ++ quote :: (reflowed indent rest ++ below))).source ++
      (reflowed indent rest ++ below) = quote :: (text ++ quote :: (reflowed indent rest ++ below)) := by
    simp [string, htext]
  rw [List.cons_append, List.append_assoc, List.cons_append, level_cons_lexeme (first?_quote hq _) hsource,
    excess_of_kind (by simp [string]), Int.zero_add, h]

/-- The rows of a text add what the text adds. -/
theorem adds_reflowed (h : Sealed cs k) : Adds (reflowed indent cs) k := by
  induction hlen : cs.length using Nat.strongRecOn generalizing cs k with
  | ind n ih =>
    subst hlen
    cases cs with
    | nil =>
      intro rest
      rw [← h.level_eq]
      exact (level_cons_gap (first?_of_isBlank (by decide) rest)).trans (Int.zero_add _).symm
    | cons c cs =>
      cases hfirst : first? c cs with
      | none => exact adds_reflowed_gap hi hfirst (ih cs.length (by simp) (h.of_gap hfirst) rfl)
      | some l =>
        obtain ⟨⟨rest, hrest⟩, hne⟩ := source_prefix_of_first? hfirst
        obtain ⟨hclosed, hsealed⟩ := h.of_lexeme hfirst hrest
        have hlt : rest.length < (c :: cs).length := by
          have hpos := List.length_pos_iff.mpr hne
          rw [← hrest, List.length_append]
          omega
        have hbelow := ih rest.length hlt hsealed rfl
        by_cases hdash : c = '-' ∧ cs.head? = some '-'
        · obtain ⟨rfl, hhead⟩ := hdash
          obtain ⟨ds, rfl⟩ := List.head?_eq_some_iff.mp hhead
          obtain rfl : comment ds = l := Option.some.inj hfirst
          rw [isLoose_comment] at hclosed
          cases hclosed
        by_cases hquote : c = '"' ∨ c = '\''
        · obtain rfl : string c cs = l := Option.some.inj ((first?_quote hquote cs).symm.trans hfirst)
          rw [excess_of_kind (by simp [string]), Int.sub_zero] at hbelow
          exact adds_reflowed_string hi hn hquote hclosed hrest hbelow
        · obtain ⟨kind, text, rfl, hstring, hcomment⟩ := eq_verbatim_of_first? hfirst hdash hquote
          have hvisible : ∀ d ∈ text, Text.isBlank d = false := fun d hd =>
            ((whole_of_cut (cut_of_first? hfirst) hcomment).isGraphic hstring d hd).isBlank
          have hsource : text ++ rest = c :: cs := hrest
          obtain ⟨ds, rfl⟩ : ∃ ds, text = c :: ds := by
            cases text with
            | nil => exact absurd rfl hne
            | cons d ds => exact ⟨ds, by rw [(List.cons.inj hsource).1]⟩
          obtain rfl : ds ++ rest = cs := (List.cons.inj hsource).2
          intro below
          have hagain := (first?_reflowed indent hdash hquote below).trans hfirst
          rw [← List.cons_append, reflowed_append_visible hvisible, List.append_assoc, List.cons_append,
            level_cons_lexeme hagain rfl, hbelow]
          omega

/-- Written line by line, a text adds what it adds. -/
theorem Sealed.rows {text : String} (h : Sealed text.toList k) :
    Adds (rowsText ((Text.lines text).map (indented indent))) k := by
  rw [Text.lines, List.map_map, Function.comp_def]
  exact adds_rows hi (adds_reflowed hi hn h)

end Rows

end Emitter

end ScriptGraph
