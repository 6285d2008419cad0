import ScriptGraph.Proofs.Closing
import ScriptGraph.Proofs.Indentation
import ScriptGraph.Proofs.LineBreaks

namespace ScriptGraph

open Lexeme

namespace Balance

variable {s : String}

/-- Texts that are read apart are counted apart. -/
theorem ofText_append {head rest : String}
    (h : pieces (head.toList ++ rest.toList) = pieces head.toList ++ pieces rest.toList) :
    ofText (head ++ rest) =
      ⟨(ofText head).openers + (ofText rest).openers, (ofText head).closers + (ofText rest).closers⟩ := by
  rw [ofText_eq_countP, String.toList_append, h, lexemesOf_append, List.countP_append, List.countP_append,
    ofText_eq_countP, ofText_eq_countP]

theorem ofText_trimEnd (s : String) : ofText (Text.trimEnd s) = ofText s := by
  obtain ⟨blanks, hs, hblanks⟩ := Text.exists_trimEndChars s.toList
  have hopens := countP_append_blanks @opens_of_kind (Text.trimEndChars s.toList) hblanks
  have hcloses := countP_append_blanks @closes_of_kind (Text.trimEndChars s.toList) hblanks
  rw [← hs] at hopens hcloses
  rw [ofText_eq_countP, ofText_eq_countP, hopens, hcloses, Text.trimEnd, String.toList_ofList]

theorem ofText_closers (n : Nat) : ofText (Text.repeated "\nend" n) = ⟨0, n⟩ := by
  have hend : (keyword "end").opens = false ∧ (keyword "end").closes = true := by decide
  rw [ofText_eq_countP, (spells_closers n).lexemesOf_pieces, List.countP_replicate, List.countP_replicate, hend.1,
    hend.2]
  simp

theorem close_of_pos (h : 0 < (ofText s).missing) :
    close s = Text.trimEnd s ++ Text.repeated "\nend" (ofText s).missing := by
  unfold close
  split
  · rename_i hzero
    omega
  · rfl

/-- The closers that are added count, as the line break before them is no part of what stands there. -/
theorem ofText_close (h : (lexemesOf (pieces (Text.trimEnd s).toList)).getLast?.any isOpen = false) :
    ofText (close s) = ⟨(ofText s).openers, (ofText s).closers + (ofText s).missing⟩ := by
  by_cases hzero : (ofText s).missing = 0
  · rw [close_of_missing hzero, hzero]
    rfl
  · obtain ⟨n, hn⟩ := Nat.exists_eq_succ_of_ne_zero hzero
    have hhead : (Text.repeated "\nend" (ofText s).missing).toList.head? = some '\n' := by
      rw [hn, toList_repeated_succ]
      rfl
    rw [close_of_pos (Nat.pos_of_ne_zero hzero), ofText_append (pieces_append_line h hhead), ofText_trimEnd,
      ofText_closers]
    rfl

/-- Closing a text repairs it: nothing is missing then, no block is opened that was not, a text that misses nothing
stays as it is, and another gets the lines `end` that it needs. -/
theorem close_repairs (h : (lexemesOf (pieces (Text.trimEnd s).toList)).getLast?.any isOpen = false) :
    (ofText (close s)).missing = 0 ∧ (ofText (close s)).openers = (ofText s).openers ∧
      ((ofText s).missing = 0 → close s = s) ∧
      (0 < (ofText s).missing → close s = Text.trimEnd s ++ Text.repeated "\nend" (ofText s).missing ∧
        (ofText (close s)).openers = (ofText (close s)).closers) ∧
      close (close s) = close s := by
  have hclose := ofText_close h
  have hopeners : (ofText (close s)).openers = (ofText s).openers := by rw [hclose]
  have hclosers : (ofText (close s)).closers = (ofText s).closers + (ofText s).missing := by rw [hclose]
  have hmissing : (ofText (close s)).missing = 0 := by
    unfold missing at hclosers ⊢
    omega
  refine ⟨hmissing, hopeners, close_of_missing, fun hpos => ⟨close_of_pos hpos, ?_⟩, close_of_missing hmissing⟩
  unfold missing at hclosers hpos
  omega

theorem close_repairs_open_string :
    (lexemesOf (pieces (Text.trimEnd "repeat do x = 'a\\\\ \t\n").toList)).getLast?.any isOpen = false ∧
      close "repeat do x = 'a\\\\ \t\n" = "repeat do x = 'a\\\\\nend\nend" ∧
      (ofText "repeat do x = 'a\\\\\nend\nend").missing = 0 ∧
      close "repeat do x = 'a\\\\\nend\nend" = "repeat do x = 'a\\\\\nend\nend" := by
  have htext : (lexemesOf (pieces (Text.trimEnd "repeat do x = 'a\\\\ \t\n").toList)).getLast?.any isOpen = false ∧
      close "repeat do x = 'a\\\\ \t\n" = "repeat do x = 'a\\\\\nend\nend" := by decide +kernel
  have hrepairs := close_repairs htext.1
  rw [htext.2] at hrepairs
  exact ⟨htext.1, htext.2, hrepairs.1, hrepairs.2.2.2.2⟩

end Balance

end ScriptGraph
