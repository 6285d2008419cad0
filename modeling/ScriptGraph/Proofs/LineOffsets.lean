import ScriptGraph.Proofs.Cutting
import ScriptGraph.Proofs.Recovery
import ScriptGraph.Proofs.Relocation

namespace ScriptGraph

/-- The place that many lines below. -/
def Place.down (p : Place) (n : Nat) : Place := ⟨p.line + n, p.column⟩

theorem Place.step_down (p : Place) (n : Nat) (c : Char) : (p.down n).step c = (p.step c).down n := by
  by_cases hc : c = '\n'
  · simp only [step, down, hc, if_true, Nat.add_right_comm]
  · simp only [step, down, hc, if_false]

theorem Place.after_down (p : Place) (n : Nat) (cs : List Char) : (p.down n).after cs = (p.after cs).down n := by
  induction cs generalizing p with
  | nil => rfl
  | cons c cs ih =>
    change ((p.down n).step c).after cs = _
    rw [step_down, ih]
    rfl

/-- The token that many lines below. -/
def Token.down (n : Nat) (t : Token) : Token := t.moved (· + n) id

theorem placed_down (p : Place) (n : Nat) (ps : List Piece) :
    placed (p.down n) ps = (placed p ps).map (Token.down n) := by
  induction ps generalizing p with
  | nil => rfl
  | cons q ps ih =>
    cases q with
    | gap c => rw [placed, p.step_down, ih, placed]
    | lexeme l =>
      rw [placed, p.after_down, ih, placed, List.map_cons]
      rfl

theorem tokenize_down (text : String) (n : Nat) : tokenize text (1 + n) = (tokenize text).map (Token.down n) := by
  have hplace : (⟨max (1 + n) 1, 1⟩ : Place) = Place.down ⟨max 1 1, 1⟩ n := by
    rw [Place.down, Nat.max_eq_left (Nat.le_add_right 1 n), Nat.max_self]
  have hfilter (ts : List Token) : (ts.map (Token.down n)).filter (·.kind ≠ .comment) =
      (ts.filter (·.kind ≠ .comment)).map (Token.down n) := List.filter_map
  rw [tokenize, tokenize, rawTokens, rawTokens, hplace, placed_down, hfilter]

/-- The line that a text starts on is added to the lines of all its tokens. -/
theorem tokenize_eq_down (text : String) (firstLine : Nat) :
    tokenize text firstLine = (tokenize text).map (Token.down (firstLine - 1)) := by
  rw [← tokenize_down]
  unfold tokenize rawTokens
  have hline : max firstLine 1 = max (1 + (firstLine - 1)) 1 := by omega
  rw [hline]

section Moved

variable (f g : Nat → Nat)

@[simp] theorem Cursor.atEof_moved (s : Cursor) : (s.moved f g).atEof = s.atEof := by
  rw [atEof, peek_moved, Token.isEof_moved, atEof]

@[simp] theorem Cursor.check_moved (s : Cursor) (text : String) : (s.moved f g).check text = s.check text := by
  rw [check, peek_moved, Token.is_moved, check]

@[simp] theorem Cursor.checkAny_moved (s : Cursor) (texts : List String) :
    (s.moved f g).checkAny texts = s.checkAny texts := by
  have hcheck : (s.moved f g).check = s.check := funext (s.check_moved f g)
  rw [checkAny, hcheck, checkAny]

namespace Recovered

/-- The result with its statements and errors on other lines. -/
def moved (r : Recovered) : Recovered := ⟨r.program.mapLines f, r.errors.map (ParseError.moved f g)⟩

theorem seek_moved (s : Cursor) (budget : List Token) :
    seek (s.moved f g) (budget.map (Token.moved f g)) = (seek s budget).moved f g := by
  induction budget generalizing s with
  | nil => rfl
  | cons b budget ih =>
    rw [List.map_cons, seek, seek, Cursor.atEof_moved, Cursor.checkAny_moved, Cursor.advance_moved, ih]
    split <;> rfl

theorem resume_moved (start s : Cursor) :
    resume (start.moved f g) (s.moved f g) = (resume start s).moved f g := by
  have hlength (s : Cursor) : (s.moved f g).pending.length = s.pending.length := List.length_map _
  let u : Cursor := { s with depth := 0 }
  by_cases hsame : s.pending.length = start.pending.length
  · have hresume : resume start s = u.advance := if_pos hsame
    have hresume' : resume (start.moved f g) (s.moved f g) = (u.moved f g).advance :=
      if_pos ((hlength s).trans (hsame.trans (hlength start).symm))
    rw [hresume, hresume', Cursor.advance_moved]
  · let t := seek u u.budget
    have hseek : seek (u.moved f g) (u.moved f g).budget = t.moved f g := seek_moved f g u u.budget
    have hresume : resume start s = if t.check "end" || t.check ";" then t.advance else t := if_neg hsame
    have hresume' : resume (start.moved f g) (s.moved f g) = if (t.moved f g).check "end" || (t.moved f g).check ";"
        then (t.moved f g).advance else t.moved f g := by
      rw [← hseek]
      exact if_neg fun h => hsame ((hlength s).symm.trans (h.trans (hlength start)))
    rw [hresume, hresume', Cursor.check_moved, Cursor.check_moved, Cursor.advance_moved]
    split <;> rfl

/-- On moved tokens the loop does the same, and all that it gives is moved. -/
theorem scan_moved (limit : Nat) (budget : List Token) (dropped : List ParseError) (s : Cursor) :
    scan limit (budget.map (Token.moved f g)) (dropped.map (ParseError.moved f g)) (s.moved f g) =
      ((scan limit budget dropped s).mapError (ParseError.moved f g)).map (moved f g) := by
  induction budget generalizing dropped s with
  | nil => rfl
  | cons b budget ih =>
    have hstatement : Parser.statement Nested.top (s.moved f g) =
        (Parser.statement Nested.top s).moved f g (Option.map (Stmt.mapLines f)) :=
      Parser.moves_statement (Parser.movesInside_ofRoom f g maxDepth) s
    rw [List.map_cons]
    rcases turn s with hs | ⟨hs, hturn⟩
    · rw [scan_of_atEof hs, scan_of_atEof ((s.atEof_moved f g).trans hs)]
      rfl
    have hs' := (s.atEof_moved f g).trans hs
    rcases hturn with ⟨t, ht⟩ | ⟨stmt, t, ht⟩ | ⟨e, t, ht⟩
    · rw [ht] at hstatement
      rw [scan_of_none hs ht, scan_of_none hs' hstatement, ih]
    · rw [ht] at hstatement
      rw [scan_of_some hs ht, scan_of_some hs' hstatement, ih]
      cases scan limit budget dropped t <;> rfl
    · rw [ht] at hstatement
      rw [scan_of_error hs ht, scan_of_error hs' hstatement, List.length_map]
      by_cases hroom : dropped.length < limit
      · rw [if_pos hroom, if_pos hroom, resume_moved, ← ih, List.map_append]
        rfl
      · rw [if_neg hroom, if_neg hroom]
        cases dropped <;> rfl

end Recovered

end Moved

theorem Program.parseRecovering_moved (f g : Nat → Nat) {ts : List Token} {stop : Token} (hstop : stop.isEof = true)
    (limit : Nat) :
    Program.parseRecovering ((ts ++ [stop]).map (Token.moved f g)) limit =
      ((Program.parseRecovering (ts ++ [stop]) limit).mapError (ParseError.moved f g)).map (Recovered.moved f g) := by
  have hcursor : Cursor.ofTokens ((ts ++ [stop]).map (Token.moved f g)) =
      (Cursor.ofTokens (ts ++ [stop])).moved f g := by
    simp [Cursor.ofTokens, Cursor.moved, hstop]
  unfold Program.parseRecovering
  rw [hcursor]
  exact Recovered.scan_moved f g limit (Cursor.ofTokens (ts ++ [stop])).budget [] (Cursor.ofTokens (ts ++ [stop]))

/-- The line that a text starts on is added to every line of the program that is read and of the errors, strictly or
with recovery, and changes nothing else. -/
theorem Program.parse_from_line (source : String) (firstLine limit : Nat) :
    Program.parse (tokenize source firstLine) =
      ((Program.parse (tokenize source)).mapError (ParseError.moved (· + (firstLine - 1)) id)).map
        (Program.mapLines (· + (firstLine - 1))) ∧
    Program.parseRecovering (tokenize source firstLine) limit =
      ((Program.parseRecovering (tokenize source) limit).mapError (ParseError.moved (· + (firstLine - 1)) id)).map
        (Recovered.moved (· + (firstLine - 1)) id) := by
  obtain ⟨ts, line, column, -, htokens⟩ := exists_tokenize source 1
  have hdown : Token.down (firstLine - 1) = Token.moved (· + (firstLine - 1)) id := rfl
  rw [tokenize_eq_down, hdown, htokens]
  exact ⟨Program.parse_moved _ _ rfl, Program.parseRecovering_moved _ _ rfl limit⟩

end ScriptGraph
