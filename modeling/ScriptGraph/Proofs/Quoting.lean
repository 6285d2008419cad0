import ScriptGraph.Proofs.PrintedText
import ScriptGraph.Text.Quoted

namespace ScriptGraph

open Lexeme

/-- A text in which backslashes come in pairs with what they escape, and quotes and line breaks only so. -/
inductive IsEscaped : List Char → Prop
  | nil : IsEscaped []
  | escape (c : Char) {cs : List Char} (h : IsEscaped cs) : IsEscaped ('\\' :: c :: cs)
  | plain {c : Char} {cs : List Char} (hb : c ≠ '\\') (hq : c ≠ '\'') (hn : c ≠ '\n') (h : IsEscaped cs) :
      IsEscaped (c :: cs)

/-- A character is no backslash if it is neither one that ends the text nor one that escapes what follows. -/
theorem ne_backslash {c : Char} {cs : List Char} (hlast : c = '\\' → cs = [] → False)
    (hpair : ∀ d ds, c = '\\' → cs = d :: ds → False) : c ≠ '\\' := by
  rintro rfl
  cases cs with
  | nil => exact hlast rfl rfl
  | cons d ds => exact hpair d ds rfl rfl

namespace IsEscaped

variable {cs : List Char}

theorem quotedBody (cs : List Char) : IsEscaped (Text.quotedBody cs) := by
  fun_induction Text.quotedBody cs with
  | case1 => exact nil
  | case2 => exact .escape '\\' nil
  | case3 c cs ih => exact .escape c ih
  | case4 cs ih => exact .escape '\'' ih
  | case5 cs ih => exact .escape 'n' ih
  | case6 c cs hlast hpair hq hn ih =>
    exact .plain (ne_backslash hlast hpair) hq hn ih

/-- Quoting leaves it as it is. -/
theorem quotedBody_eq (h : IsEscaped cs) : Text.quotedBody cs = cs := by
  induction h with
  | nil => rfl
  | escape c _ ih => rw [Text.quotedBody, ih]
  | plain hb hq hn _ ih =>
    rw [Text.quotedBody, ih]
    · exact fun h _ => hb h
    · exact fun _ _ h _ => hb h
    · exact hq
    · exact hn

/-- It can stand between single quotes. -/
theorem isContent (h : IsEscaped cs) : IsContent '\'' cs := by
  refine ⟨.inr rfl, ?_⟩
  induction h with
  | nil => rfl
  | escape c _ ih => rw [stringBody, ih]
  | plain hb hq hn _ ih =>
    rw [stringBody, ih]
    · simp [hq, hn]
    · exact fun _ _ h _ => hb h

theorem dangles_eq_false (h : IsEscaped cs) : dangles cs = false := by
  induction h with
  | nil => rfl
  | escape c _ ih => rw [dangles, ih]
  | plain hb _ _ _ ih =>
    rw [dangles, ih]
    · exact fun h _ => hb h
    · exact fun _ _ h _ => hb h

end IsEscaped

namespace Text

theorem newline_notMem_quotedBody {cs : List Char} (h : '\n' ∉ cs) : '\n' ∉ quotedBody cs := by
  fun_induction quotedBody cs with
  | case1 => simp
  | case2 => simp
  | case3 c cs ih => simp_all
  | case4 cs ih => simp_all
  | case5 cs ih => simp at h
  | case6 c cs _ _ _ _ ih => simp_all

/-- The content of the literal that a string is quoted as. -/
def requoted (s : String) : String := ((tokenize (quoted s)).headD (.endOfInput 0 0)).text

theorem requoted_eq (s : String) : requoted s = String.ofList (quotedBody s.toList) := by
  have hbody := IsEscaped.quotedBody s.toList
  have hwhole : (literal (String.ofList (quotedBody s.toList)) '\'').Whole := by
    apply Whole.literal
    · simpa using hbody.isContent
    · simpa using hbody.dangles_eq_false
  have hspells : Spells (quoted s).toList [literal (String.ofList (quotedBody s.toList)) '\''] none := by
    have hlexeme := Spells.lexeme hwhole (@endsBefore_literal _ _ none)
    simpa [quoted, literal] using hlexeme
  have htokens := hspells.map_unplaced_tokenize 1
  rw [List.map_singleton, List.singleton_append, List.map_eq_cons_iff] at htokens
  obtain ⟨t, ts, hts, ht, -⟩ := htokens
  have htext : t.unplaced.text = String.ofList (quotedBody s.toList) := by
    rw [ht]
    simp [Lexeme.token, literal]
  rw [requoted, hts]
  exact htext

theorem isEscaped_requoted (s : String) : IsEscaped (requoted s).toList := by
  rw [requoted_eq, String.toList_ofList]
  exact IsEscaped.quotedBody s.toList

/-- Quoting the content again gives the same literal. -/
theorem quoted_requoted (s : String) : quoted (requoted s) = quoted s := by
  rw [quoted, (isEscaped_requoted s).quotedBody_eq, String.ofList_toList, requoted_eq, quoted]

theorem quoted_eq (s : String) : quoted s = "'" ++ requoted s ++ "'" := by
  rw [quoted, requoted_eq]

theorem newline_notMem_requoted {s : String} (h : '\n' ∉ s.toList) : '\n' ∉ (requoted s).toList := by
  rw [requoted_eq, String.toList_ofList]
  exact newline_notMem_quotedBody h

end Text

end ScriptGraph
