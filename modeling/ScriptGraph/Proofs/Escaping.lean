import Mathlib.Data.List.Induction
import ScriptGraph.Proofs.Quoting

namespace ScriptGraph

open Lexeme

namespace Text

/-- Does the text end in a backslash that escapes nothing? Backslashes in a row escape one another in pairs. -/
def endsUnpaired (cs : List Char) : Bool := (cs.reverse.takeWhile (· = '\\')).length % 2 = 1

/-- Somewhere in the text stands the character, and no backslash before it escapes it. -/
def Unescaped (c : Char) (cs : List Char) : Prop :=
  ∃ before after, cs = before ++ c :: after ∧ endsUnpaired before = false

theorem endsUnpaired_concat (cs : List Char) (c : Char) :
    endsUnpaired (cs ++ [c]) = (decide (c = '\\') && !endsUnpaired cs) := by
  by_cases hc : c = '\\'
  · simp only [endsUnpaired, hc, List.reverse_append, List.reverse_singleton, List.singleton_append, decide_true,
      List.takeWhile_cons_of_pos, List.length_cons, Bool.true_and, ← decide_not, decide_eq_decide]
    omega
  · simp [endsUnpaired, hc]

end Text

namespace Lexeme

theorem dangles_cons {c : Char} (hc : c ≠ '\\') (cs : List Char) : dangles (c :: cs) = dangles cs := by
  rw [dangles]
  · exact fun h _ => hc h
  · exact fun _ _ h _ => hc h

theorem dangles_concat (cs : List Char) (c : Char) : dangles (cs ++ [c]) = (decide (c = '\\') && !dangles cs) := by
  fun_induction dangles cs with
  | case1 =>
    by_cases hc : c = '\\'
    · subst hc
      rfl
    · rw [List.nil_append, dangles_cons hc]
      simp [dangles, hc]
  | case2 => simp [dangles]
  | case3 d cs ih => rw [List.cons_append, List.cons_append, dangles, ih]
  | case4 d cs hlast hpair ih =>
    have hd : d ≠ '\\' := by
      rintro rfl
      cases cs with
      | nil => exact hlast rfl rfl
      | cons e es => exact hpair e es rfl rfl
    rw [List.cons_append, dangles_cons hd, ih]

/-- The scanner, which pairs backslashes from the left, finds the same text open as the count of them from the right. -/
theorem dangles_eq_endsUnpaired (cs : List Char) : dangles cs = Text.endsUnpaired cs := by
  induction cs using List.reverseRecOn with
  | nil => rfl
  | append_singleton cs c ih => rw [dangles_concat, Text.endsUnpaired_concat, ih]

end Lexeme

namespace Text

namespace Unescaped

variable {q : Char} {cs : List Char}

theorem head (q : Char) (cs : List Char) : Unescaped q (q :: cs) := ⟨[], cs, rfl, rfl⟩

theorem escape (h : Unescaped q cs) (c : Char) : Unescaped q ('\\' :: c :: cs) := by
  obtain ⟨before, after, rfl, hbefore⟩ := h
  refine ⟨'\\' :: c :: before, after, rfl, ?_⟩
  rwa [← dangles_eq_endsUnpaired, dangles, dangles_eq_endsUnpaired]

theorem plain (h : Unescaped q cs) {c : Char} (hc : c ≠ '\\') : Unescaped q (c :: cs) := by
  obtain ⟨before, after, rfl, hbefore⟩ := h
  refine ⟨c :: before, after, rfl, ?_⟩
  rwa [← dangles_eq_endsUnpaired, dangles_cons hc, dangles_eq_endsUnpaired]

end Unescaped

end Text

open Text

namespace IsEscaped

variable {cs : List Char}

/-- A quote or a line break is always behind its own backslash. -/
theorem not_unescaped (h : IsEscaped cs) {q : Char} (hq : q = '\'' ∨ q = '\n') : ¬Unescaped q cs := by
  have hbackslash : q ≠ '\\' := by rcases hq with rfl | rfl <;> decide
  rintro ⟨before, after, hcs, hbefore⟩
  rw [← dangles_eq_endsUnpaired] at hbefore
  induction h generalizing before with
  | nil => simp at hcs
  | @escape c cs _ ih =>
    -- the text before `q` is empty, the backslash alone, or goes on behind the escaped character
    rcases before with _ | ⟨b, _ | ⟨d, before⟩⟩
    · exact hbackslash (List.cons.inj hcs).1.symm
    · obtain rfl := (List.cons.inj hcs).1
      cases hbefore
    · simp only [List.cons_append, List.cons.injEq] at hcs
      obtain ⟨rfl, -, hcs⟩ := hcs
      exact ih before hcs hbefore
  | @plain c cs hb hc hn _ ih =>
    rcases before with _ | ⟨d, before⟩
    · obtain rfl := (List.cons.inj hcs).1
      exact hq.elim hc hn
    · simp only [List.cons_append, List.cons.injEq] at hcs
      obtain ⟨rfl, hcs⟩ := hcs
      exact ih before hcs (by rwa [dangles_cons hb] at hbefore)

theorem of_not_unescaped (hq : ¬Unescaped '\'' cs) (hn : ¬Unescaped '\n' cs) (hd : dangles cs = false) :
    IsEscaped cs := by
  fun_induction dangles cs with
  | case1 => exact .nil
  | case2 => cases hd
  | case3 c cs ih => exact .escape c (ih (fun h => hq (h.escape c)) (fun h => hn (h.escape c)) hd)
  | case4 c cs hlast hpair ih =>
    have hb := ne_backslash hlast hpair
    refine .plain hb ?_ ?_ (ih (fun h => hq (h.plain hb)) (fun h => hn (h.plain hb)) hd)
    · rintro rfl
      exact hq (.head _ cs)
    · rintro rfl
      exact hn (.head _ cs)

end IsEscaped

theorem isEscaped_iff {cs : List Char} :
    IsEscaped cs ↔ ¬Unescaped '\'' cs ∧ ¬Unescaped '\n' cs ∧ endsUnpaired cs = false := by
  rw [← dangles_eq_endsUnpaired]
  constructor
  · intro h
    exact ⟨h.not_unescaped (.inl rfl), h.not_unescaped (.inr rfl), h.dangles_eq_false⟩
  · rintro ⟨hq, hn, hd⟩
    exact .of_not_unescaped hq hn hd

namespace Text

theorem requoted_eq_self_iff {s : String} : requoted s = s ↔ IsEscaped s.toList := by
  constructor
  · intro h
    exact h ▸ isEscaped_requoted s
  · intro h
    rw [requoted_eq, h.quotedBody_eq, String.ofList_toList]

theorem pieces_quoted (s : String) : pieces (quoted s).toList = [.lexeme (literal (requoted s) '\'')] := by
  have hescaped := isEscaped_requoted s
  have hwhole : (literal (requoted s) '\'').Whole := .literal _ _ hescaped.isContent hescaped.dangles_eq_false
  have hsource : (quoted s).toList = sourceOf [.lexeme (literal (requoted s) '\'')] := by
    rw [quoted_eq]
    simp [literal]
  rw [hsource]
  exact pieces_sourceOf ⟨hwhole, @endsBefore_literal _ _ none, trivial⟩

/-- A quoted text is read as one string, up to its end. Its content is quoted as the text is, and is the text itself
just if this has all its quotes and line breaks behind backslashes and no backslash left over. -/
theorem quoted_stable (s : String) :
    tokenize (quoted s) = [⟨.string, requoted s, 1, 1, some '\''⟩,
        .endOfInput (Place.after ⟨1, 1⟩ (quoted s).toList).line (Place.after ⟨1, 1⟩ (quoted s).toList).column] ∧
      requoted (requoted s) = requoted s ∧ quoted (requoted s) = quoted s ∧
      (requoted s = s ↔
        ¬Unescaped '\'' s.toList ∧ ¬Unescaped '\n' s.toList ∧ endsUnpaired s.toList = false) := by
  refine ⟨?_, requoted_eq_self_iff.mpr (isEscaped_requoted s), quoted_requoted s, ?_⟩
  · have hsource : (quoted s).toList = (literal (requoted s) '\'').source := by
      rw [← sourceOf_pieces (quoted s).toList, pieces_quoted]
      simp
    rw [tokenize, rawTokens, pieces_quoted, hsource]
    simp [placed, Lexeme.token, literal, Token.endOfInput]
  · rw [requoted_eq_self_iff, isEscaped_iff]

end Text

end ScriptGraph
