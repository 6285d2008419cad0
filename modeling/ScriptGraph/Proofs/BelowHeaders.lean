import ScriptGraph.Proofs.HeaderSplit
import ScriptGraph.Proofs.LineOffsets
import ScriptGraph.Proofs.Repair

namespace ScriptGraph

open Lexeme

namespace Text

/-- Neither end of the text is blank. -/
structure Trimmed (s : String) : Prop where
  first : ∀ c ∈ s.toList.head?, isBlank c = false
  last : ∀ c ∈ s.toList.getLast?, isBlank c = false

variable {s : String}

theorem Trimmed.exists_last (h : Trimmed s) (hne : s ≠ "") : ∃ cs c, s.toList = cs ++ [c] ∧ isBlank c = false := by
  rcases List.eq_nil_or_concat s.toList with hnil | ⟨cs, c, hc⟩
  · exact absurd (String.toList_eq_nil_iff.mp hnil) hne
  · rw [List.concat_eq_append] at hc
    exact ⟨cs, c, hc, h.last c (by simp [hc])⟩

theorem trimEndChars_nil : trimEndChars [] = [] := rfl

theorem trimEndChars_append {cs : List Char} (h : trimEndChars cs ≠ []) (as : List Char) :
    trimEndChars (as ++ cs) = as ++ trimEndChars cs := by
  induction as with
  | nil => rfl
  | cons a as ih =>
    have hne : ¬trimEndChars (as ++ cs) = [] := by
      rw [ih]
      simp [h]
    rw [List.cons_append, trimEndChars_cons, if_neg fun h => hne h.1, ih, List.cons_append]

theorem Trimmed.isBlankText (h : Trimmed s) (hne : s ≠ "") : isBlankText s = false := by
  obtain ⟨cs, c, hs, hc⟩ := h.exists_last hne
  simp [Text.isBlankText, hs, hc]

end Text

namespace Rendered

open Text

/-- A header comes with an empty line. -/
def above (header : String) : String := if header = "" then "" else header ++ "\n\n"

end Rendered

theorem Token.not_dot_of_opensStmt {t : Token} (h : t.opensStmt = true) : t.is "." = false :=
  is_eq_false_of (P := opensStmt) rfl h (by decide)

/-- The text starts with a statement, whose first token is spelled as `next`. -/
def Token.Leads (next : Token) (text : String) : Prop :=
  ∃ b bs, tokenize text = b :: bs ∧ b.opensStmt = true ∧ ∀ s, next.is s = b.is s

namespace Header

variable {s : State} {t b : Token} {ts as bs : List Token} {line : Nat}

/-- The search goes on behind tokens among which it finds nothing, if a statement follows that no dot leads to. -/
theorem firstRootLine_of_none {next : Token} (h : firstRootLine s (as ++ [next]) = none)
    (hlast : ∀ a ∈ as.getLast?, a.is "." = false) (hb : b.opensStmt = true) (hopen : next.is "(" = b.is "(") :
    firstRootLine s (as ++ b :: bs) = firstRootLine (as.foldl State.pass s) (b :: bs) := by
  induction as generalizing s with
  | nil => rfl
  | cons a as ih =>
    have hrest : ∀ a ∈ as.getLast?, a.is "." = false := by
      intro u hu
      apply hlast
      cases as with
      | nil => cases hu
      | cons v as => rwa [List.getLast?_cons_cons]
    rw [List.cons_append, firstRootLine_cons] at h
    have hnot : ¬(s.atToken a).finds (a :: (as ++ [next])) = true := by
      intro hfinds
      rw [if_pos hfinds] at h
      cases h
    rw [if_neg hnot] at h
    have hnot' : ¬(s.atToken a).finds (a :: (as ++ b :: bs)) = true := by
      have hcut : Severed (a :: as) (b :: bs) := by
        intro b' hb'
        obtain rfl := Option.some.inj hb'
        exact ⟨Token.not_dot_of_opensStmt hb, fun _ => hlast⟩
      exact fun hfinds => hnot (State.finds_append hcut hopen.trans hfinds)
    rw [List.cons_append, firstRootLine_cons, if_neg hnot', ih h hrest]
    rfl

/-- What is known when a new line starts with nothing open. -/
theorem State.atToken_fresh (hdepth : s.depth = 0) (haccessed : s.accessed = false) (hline : s.line < t.line) :
    s.atToken t = ⟨false, 0, t.line, 0⟩ := by
  obtain ⟨accessed, depth, line, lineDepth⟩ := s
  subst hdepth haccessed
  exact if_neg (Nat.ne_of_gt hline)

theorem firstRootLine_congr {s' : State} (h : s.atToken t = s'.atToken t) :
    firstRootLine s (t :: ts) = firstRootLine s' (t :: ts) := by
  rw [firstRootLine_cons, firstRootLine_cons, State.pass, State.pass, h]

theorem startsCall_down (n : Nat) (callee ts : List Token) :
    startsCall callee (ts.map (Token.down n)) = startsCall callee ts := by
  fun_induction startsCall callee ts with
  | case1 => rfl
  | case2 c callee t ts ih =>
    rw [List.map_cons, startsCall, ih]
    rfl
  | case3 callee => cases callee <;> rfl

def State.down (n : Nat) (s : State) : State := { s with line := s.line + n }

theorem State.atToken_down (n : Nat) (s : State) (t : Token) :
    (s.down n).atToken (t.down n) = (s.atToken t).down n := by
  have hline : (t.line + n = s.line + n) ↔ t.line = s.line := Nat.add_right_cancel_iff
  change (if t.line + n = s.line + n then _ else _) = _
  simp only [hline, atToken]
  split <;> rfl

theorem State.finds_down (n : Nat) (s : State) (ts : List Token) :
    (s.down n).finds (ts.map (Token.down n)) = s.finds ts := by
  simp only [finds, startsCall_down]
  rfl

theorem firstRootLine_down (n : Nat) (s : State) (ts : List Token) :
    firstRootLine (s.down n) (ts.map (Token.down n)) = (firstRootLine s ts).map (· + n) := by
  induction ts generalizing s with
  | nil => rfl
  | cons t ts ih =>
    have hpass : (s.down n).pass (t.down n) = (s.pass t).down n := by
      rw [State.pass, State.atToken_down]
      rfl
    have hfinds := State.finds_down n (s.atToken t) (t :: ts)
    rw [List.map_cons] at hfinds
    rw [List.map_cons, firstRootLine_cons, firstRootLine_cons, State.atToken_down, hfinds, hpass, ih]
    split <;> rfl

/-- A header that stands on its own above a body that starts with `next`: above an empty line, no string or comment
is left open, what is opened is closed, and nothing calls an action or leads to a name. -/
structure Closed (header : String) (next : Token) : Prop where
  whole : EndsLine (header ++ "\n\n").toList
  balanced : (Balance.ofText (header ++ "\n\n")).missing = 0
  level : (tokenize (header ++ "\n\n")).dropLast.foldl nest 0 = 0
  quiet : firstRootLine {} ((tokenize (header ++ "\n\n")).dropLast ++ [next]) = none
  ended : ∀ t ∈ (tokenize (header ++ "\n\n")).dropLast.getLast?, t.is "." = false ∧ t.is ":" = false

instance (header : String) (next : Token) : Decidable (Closed header next) :=
  decidable_of_iff (_ ∧ _ ∧ _ ∧ _ ∧ _)
    ⟨fun h => ⟨h.1, h.2.1, h.2.2.1, h.2.2.2.1, h.2.2.2.2⟩, fun h => ⟨h.whole, h.balanced, h.level, h.quiet, h.ended⟩⟩

theorem State.accessed_foldl_pass (hs : s.accessed = false)
    (hts : ∀ t ∈ ts.getLast?, t.is "." = false ∧ t.is ":" = false) : (ts.foldl pass s).accessed = false := by
  rcases List.eq_nil_or_concat ts with rfl | ⟨us, t, rfl⟩
  · exact hs
  · rw [List.concat_eq_append] at hts ⊢
    obtain ⟨hdot, hcolon⟩ := hts t (by simp)
    rw [List.foldl_append]
    simp [pass, hdot, hcolon]

/-- Below a header the search finds what it finds in the body. -/
theorem Closed.firstRootLine_above {header body : String} {next : Token} (h : Closed header next)
    (hbody : header ≠ "" → next.Leads body) :
    firstRootLine {} (tokenize (Rendered.above header ++ body)) =
      (firstRootLine {} (tokenize body)).map (· + (Rendered.above header).toList.count '\n') := by
  by_cases hempty : header = ""
  · have habove : Rendered.above header = "" := if_pos hempty
    rw [habove, String.empty_append]
    exact Option.map_id'.symm
  · have habove : Rendered.above header = header ++ "\n\n" := if_neg hempty
    obtain ⟨b, bs, htokens, hstart, hnext⟩ := hbody hempty
    rw [habove]
    generalize hn : (header ++ "\n\n").toList.count '\n' = n
    have happend := h.whole.tokenize_append body 1
    obtain ⟨as, line, column, has, -⟩ := tokenize_eq_append (header ++ "\n\n") 1
    have hquiet := h.quiet
    have hlevel := h.level
    have hended := h.ended
    have hlines : ∀ a ∈ (tokenize (header ++ "\n\n")).dropLast, a.line < 1 + n := by
      intro a ha
      have hline := h.whole.line_lt ha
      rwa [Nat.max_self, hn] at hline
    have hpositive : 1 ≤ b.line := by
      have hline := (line_of_mem_tokenize (htokens ▸ List.mem_cons_self : b ∈ tokenize body)).1
      omega
    rw [has, List.dropLast_concat] at hquiet hlevel hended hlines
    rw [Nat.max_self, hn, tokenize_down, htokens, List.map_cons, has, List.dropLast_concat] at happend
    have hsearch := @firstRootLine_of_none _ (b.down n) as (bs.map (Token.down n)) next hquiet
      (fun a ha => (hended a ha).1) hstart (hnext "(")
    rw [happend, hsearch, htokens, ← firstRootLine_down, List.map_cons]
    apply firstRootLine_congr
    have hline : (b.down n).line = b.line + n := rfl
    rw [State.atToken_fresh, State.atToken_fresh]
    · rfl
    · rfl
    · change 0 + n < b.line + n
      omega
    · rwa [State.depth_foldl_pass]
    · exact State.accessed_foldl_pass rfl hended
    · apply State.line_foldl_pass
      · change 0 < b.line + n
        omega
      · intro a ha
        have ha' := hlines a ha
        omega

end Header

/-- Lines are counted behind lines. -/
theorem Text.splitAfterLines_add (as bs : List Char) (n : Nat) :
    splitAfterLines ((as ++ ['\n']).count '\n' + n) (as ++ ['\n'] ++ bs) =
      (as ++ ['\n'] ++ (splitAfterLines n bs).1, (splitAfterLines n bs).2) := by
  induction as with
  | nil => simp [splitAfterLines, Nat.add_comm 1 n]
  | cons a as ih =>
    have hpos : 0 < (as ++ ['\n']).count '\n' := by simp
    by_cases ha : a = '\n'
    · rw [List.cons_append, List.cons_append, ha, List.count_cons_self, Nat.add_right_comm, splitAfterLines, if_pos rfl,
        ih]
      rfl
    · obtain ⟨m, hm⟩ : ∃ m, (as ++ ['\n']).count '\n' + n = m + 1 := ⟨_, (Nat.succ_pred_eq_of_pos (by omega)).symm⟩
      rw [hm] at ih
      rw [List.cons_append, List.cons_append, List.count_cons_of_ne ha, hm, splitAfterLines, if_neg ha, ih]
      rfl

theorem Text.splitAfterLines_above (header body : String) (n : Nat) :
    splitAfterLines ((Rendered.above header).toList.count '\n' + n) (Rendered.above header ++ body).toList =
      ((Rendered.above header).toList ++ (splitAfterLines n body.toList).1, (splitAfterLines n body.toList).2) := by
  by_cases hempty : header = ""
  · rw [Rendered.above, if_pos hempty, String.empty_append]
    simp
  · have hlast : (header ++ "\n\n").toList = header.toList ++ ['\n'] ++ ['\n'] := by simp
    have happend : (header ++ "\n\n" ++ body).toList = (header ++ "\n\n").toList ++ body.toList := String.toList_append
    rw [Rendered.above, if_neg hempty, happend, hlast]
    exact splitAfterLines_add ..

namespace SourceParts

variable {header body : String} {next : Token}

theorem ofText_above_none (hc : Header.Closed header next) (hbody : header ≠ "" → next.Leads body)
    (hnone : Header.firstRootLine {} (tokenize body) = none) :
    ofText (Rendered.above header ++ body) = ⟨"", Rendered.above header ++ body, 1⟩ := by
  apply ofText_of_none
  rw [hc.firstRootLine_above hbody, hnone]
  rfl

/-- Below a header the body is split as it is on its own. -/
theorem ofText_above (hc : Header.Closed header next) (hbody : header ≠ "" → next.Leads body) {line : Nat}
    (hfound : Header.firstRootLine {} (tokenize body) = some line) :
    (ofText (Rendered.above header ++ body)).header = Rendered.above header ++ (ofText body).header ∧
      (ofText (Rendered.above header ++ body)).body = (ofText body).body := by
  have h := hc.firstRootLine_above hbody
  rw [hfound, Option.map_some] at h
  obtain ⟨t, ht, hline, -⟩ := Header.exists_of_firstRootLine hfound
  have hpositive := (line_of_mem_tokenize ht).1
  have hlines : line + (Rendered.above header).toList.count '\n' - 1 =
      (Rendered.above header).toList.count '\n' + (line - 1) := by omega
  rw [ofText, ofText, h, hfound]
  simp only [hlines, Text.splitAfterLines_above]
  exact ⟨by rw [String.ofList_append, String.ofList_toList], trivial⟩

end SourceParts

end ScriptGraph
