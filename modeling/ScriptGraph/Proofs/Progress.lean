import Mathlib.Data.List.Chain
import ScriptGraph.Proofs.Contracts
import ScriptGraph.Proofs.Cutting
import ScriptGraph.Proofs.Recovery

namespace ScriptGraph

open ScriptGraph.Parser

/-- The lines come in order and lie between two others. -/
structure Lined (first last : Nat) (lines : List Nat) : Prop where
  sorted : lines.Pairwise (· ≤ ·)
  between : ∀ n ∈ lines, first ≤ n ∧ n ≤ last

namespace Lined

variable {first first' last n : Nat} {lines : List Nat}

theorem nil : Lined first last [] := ⟨.nil, by simp⟩

theorem mono (h : Lined first last lines) (hf : first' ≤ first) : Lined first' last lines := by
  refine ⟨h.sorted, ?_⟩
  intro m hm
  have hbetween := h.between m hm
  omega

theorem cons (h : Lined n last lines) (hl : n ≤ last) : Lined n last (n :: lines) := by
  refine ⟨List.pairwise_cons.mpr ⟨?_, h.sorted⟩, ?_⟩
  · intro m hm
    exact (h.between m hm).1
  · intro m hm
    rcases List.mem_cons.mp hm with heq | hm
    · omega
    · exact h.between m hm

end Lined

namespace Cursor

/-- The tokens to come stand line by line. -/
def InOrder (s : Cursor) : Prop := (s.pending ++ [s.stop]).Pairwise fun t u => t.line ≤ u.line

/-- From `s` to `t` at least one token is taken. -/
def Passes (s t : Cursor) : Prop := ∃ ts, ts ≠ [] ∧ s.Behind ts t

variable {s t : Cursor}

theorem Passes.precedes (h : s.Passes t) : s.Precedes t := by
  obtain ⟨ts, -, ht⟩ := h
  exact ⟨ts, ht⟩

theorem Passes.length_lt (h : s.Passes t) : t.pending.length < s.pending.length := by
  obtain ⟨ts, hne, ht⟩ := h
  have hpos := List.length_pos_iff.mpr hne
  rw [ht.pending, List.length_append]
  omega

theorem Precedes.stop_eq (h : s.Precedes t) : t.stop = s.stop := by
  obtain ⟨ts, ht⟩ := h
  exact ht.stop

theorem peek_mem (s : Cursor) : s.peek ∈ s.pending ++ [s.stop] := by
  obtain ⟨pending, stop, depth⟩ := s
  cases pending <;> simp [peek]

namespace InOrder

theorem behind (hs : s.InOrder) (h : s.Precedes t) : t.InOrder := by
  obtain ⟨ts, ht⟩ := h
  unfold InOrder at hs
  rw [ht.pending, ← ht.stop, List.append_assoc] at hs
  exact hs.sublist (List.sublist_append_right ts _)

theorem line_le (hs : s.InOrder) (h : s.Precedes t) : s.peek.line ≤ t.peek.line := by
  obtain ⟨ts, ht⟩ := h
  rw [ht.peek]
  cases ts with
  | nil => exact Nat.le_refl _
  | cons a as =>
    unfold InOrder at hs
    rw [ht.pending, ← ht.stop, List.append_assoc, List.cons_append] at hs
    apply (List.pairwise_cons.mp hs).1
    exact List.mem_append_right as t.peek_mem

theorem line_le_stop (hs : s.InOrder) : s.peek.line ≤ s.stop.line := by
  obtain ⟨pending, stop, depth⟩ := s
  cases pending with
  | nil => exact Nat.le_refl _
  | cons a as =>
    apply (List.pairwise_cons.mp hs).1
    simp

end InOrder

end Cursor

/-- A statement stands on the line of its first token. -/
theorem Derives.line_eq {free : Bool} {d : Nat} {stmt : Stmt} {ts : List Token} {next : Token}
    (h : Derives free d (.stmt (some stmt)) ts next) : stmt.line = (ts.headD next).line := by
  cases h with
  | conditional ht htail => cases htail <;> rfl
  | assign => rw [List.headD_append]; rfl
  | _ => rfl

namespace Recovered

/-- The loop over the top statements as it runs from `s` on, without a budget: the cursors it comes to, and its result
if the errors `dropped` were met before. -/
inductive Loop (limit : Nat) : List Cursor → List ParseError → Cursor → Except ParseError Recovered → Prop
  | stop {dropped : List ParseError} {s : Cursor} (hs : s.atEof = true) : Loop limit [s] dropped s (.ok ⟨[], dropped⟩)
  | skip {path : List Cursor} {dropped : List ParseError} {s t : Cursor} {o : Except ParseError Recovered}
      (hs : s.atEof = false) (h : statement Nested.top s = .ok none t) (hr : Loop limit path dropped t o) :
      Loop limit (s :: path) dropped s o
  | take {path : List Cursor} {dropped : List ParseError} {s t : Cursor} {stmt : Stmt} {o : Except ParseError Recovered}
      (hs : s.atEof = false) (h : statement Nested.top s = .ok (some stmt) t) (hr : Loop limit path dropped t o) :
      Loop limit (s :: path) dropped s (o.map (prepend [stmt]))
  | drop {path : List Cursor} {dropped : List ParseError} {s t : Cursor} {e : ParseError}
    {o : Except ParseError Recovered}
      (hs : s.atEof = false) (h : statement Nested.top s = .error e t) (hroom : dropped.length < limit)
      (hr : Loop limit path (dropped ++ [e]) (resume s t) o) : Loop limit (s :: path) dropped s o
  | giveUp {dropped : List ParseError} {s t : Cursor} {e : ParseError} (hs : s.atEof = false)
      (h : statement Nested.top s = .error e t) (hfull : limit ≤ dropped.length) :
      Loop limit [s] dropped s (.error (.recoveryLimit limit (dropped.headD e)))

variable {limit : Nat} {budget : List Token} {dropped : List ParseError} {path : List Cursor} {s t : Cursor}

theorem passes_of_ok {o : Option Stmt} (hstop : s.stop.isEof = true) (h : statement Nested.top s = .ok o t) :
    s.Passes t := by
  obtain ⟨ts, hbehind, -, hderives⟩ := sound_statement (soundInside_ofRoom maxDepth) s o t hstop h
  exact ⟨ts, hderives.ne_nil rfl, hbehind⟩

theorem precedes_seek (s : Cursor) (budget : List Token) : s.Precedes (seek s budget) := by
  induction budget generalizing s with
  | nil => exact .refl s
  | cons b budget ih =>
    rw [seek]
    split
    · exact .refl s
    · exact (Cursor.precedes_advance s).trans (ih s.advance)

/-- The budget of the search is not what stops it. -/
theorem seek_stops (hstop : s.stop.isEof = true) (hbudget : s.pending.length < budget.length) :
    (seek s budget).atEof = true ∨ (seek s budget).checkAny syncTokens = true := by
  induction budget generalizing s with
  | nil => cases hbudget
  | cons b budget ih =>
    rw [seek]
    split
    · rename_i hfound
      exact Bool.or_eq_true_iff.mp hfound
    · rename_i hgoes
      have hpeek : s.peek.isEof = false := by
        simp only [Bool.or_eq_true, not_or, Bool.not_eq_true] at hgoes
        exact hgoes.1
      have hbehind := (Cursor.behind_advance hstop hpeek).1
      apply ih (hbehind.stop ▸ hstop)
      rw [hbehind.pending] at hbudget
      exact Nat.lt_of_succ_lt_succ hbudget

theorem precedes_resume (start s : Cursor) : s.Precedes (resume start s) := by
  have hfresh : s.Precedes (s.atDepth 0) := (Cursor.Precedes.refl s).atDepth 0
  have hsought := hfresh.trans (precedes_seek (s.atDepth 0) (s.atDepth 0).budget)
  unfold resume
  dsimp only
  split
  · exact hfresh.trans (Cursor.precedes_advance _)
  · split
    · exact hsought.trans (Cursor.precedes_advance _)
    · exact hsought

/-- A statement that fails on its first token loses this token, any other failed statement has taken one. -/
theorem passes_resume {e : ParseError} (hstop : s.stop.isEof = true) (hs : s.atEof = false)
    (h : statement Nested.top s = .error e t) : s.Passes (resume s t) := by
  obtain ⟨ts, ht⟩ := (statement_failed h).1
  cases ts with
  | nil =>
    have hlength : (t.atDepth 0).pending.length = s.pending.length := congrArg List.length ht.pending.symm
    have hresume : resume s t = (t.atDepth 0).advance := if_pos hlength
    have hpeek : (t.atDepth 0).peek.isEof = false := by
      change t.peek.isEof = false
      rw [← hs, Cursor.atEof, ht.peek]
      rfl
    have hbehind := (Cursor.behind_advance (show (t.atDepth 0).stop.isEof = true from ht.stop ▸ hstop) hpeek).1
    rw [hresume]
    exact ⟨_, List.cons_ne_nil _ _, ht.pending.trans hbehind.pending, hbehind.stop.trans ht.stop⟩
  | cons u us =>
    obtain ⟨vs, hv⟩ := precedes_resume s t
    exact ⟨u :: us ++ vs, List.cons_ne_nil u _, ht.trans hv⟩

theorem Loop.head?_path {o : Except ParseError Recovered} (h : Loop limit path dropped s o) : path.head? = some s := by
  cases h <;> rfl

theorem Loop.isChain_cons {o : Except ParseError Recovered} (h : Loop limit path dropped t o)
    (hpath : path.IsChain Cursor.Passes) (hs : s.Passes t) : (s :: path).IsChain Cursor.Passes := by
  apply hpath.cons
  intro u hu
  rw [h.head?_path] at hu
  cases hu
  exact hs

/-- The budget is never used up, so that the loop runs to its end, and each turn takes a token. -/
theorem exists_loop (limit : Nat) (hstop : s.stop.isEof = true) (hbudget : s.pending.length < budget.length)
    (dropped : List ParseError) :
    ∃ path, Loop limit path dropped s (scan limit budget dropped s) ∧ path.IsChain Cursor.Passes := by
  induction budget generalizing s dropped with
  | nil => cases hbudget
  | cons b budget ih =>
    -- what the induction gives behind a turn from `s` to `t`
    have hnext {t : Cursor} (ht : s.Passes t) (dropped : List ParseError) :
        ∃ path, Loop limit path dropped t (scan limit budget dropped t) ∧ (s :: path).IsChain Cursor.Passes := by
      have hlt := ht.length_lt
      rw [List.length_cons] at hbudget
      obtain ⟨path, hloop, hpath⟩ := ih (ht.precedes.stop_eq ▸ hstop) (by omega) dropped
      exact ⟨path, hloop, hloop.isChain_cons hpath ht⟩
    rcases turn s with hs | ⟨hs, ⟨t, ht⟩ | ⟨stmt, t, ht⟩ | ⟨e, t, ht⟩⟩
    · rw [scan_of_atEof hs]
      exact ⟨[s], .stop hs, .singleton s⟩
    · rw [scan_of_none hs ht]
      obtain ⟨path, hloop, hpath⟩ := hnext (passes_of_ok hstop ht) dropped
      exact ⟨s :: path, .skip hs ht hloop, hpath⟩
    · rw [scan_of_some hs ht]
      obtain ⟨path, hloop, hpath⟩ := hnext (passes_of_ok hstop ht) dropped
      exact ⟨s :: path, .take hs ht hloop, hpath⟩
    · rw [scan_of_error hs ht]
      by_cases hroom : dropped.length < limit
      · rw [if_pos hroom]
        obtain ⟨path, hloop, hpath⟩ := hnext (passes_resume hstop hs ht) (dropped ++ [e])
        exact ⟨s :: path, .drop hs ht hroom hloop, hpath⟩
      · rw [if_neg hroom]
        exact ⟨[s], .giveUp hs ht (Nat.le_of_not_lt hroom), .singleton s⟩

/-- What the loop adds to the errors it starts with, and the statements it keeps, stand on lines in order, from the
line ahead to that of the end of input. -/
theorem Loop.lined {o : Except ParseError Recovered} (h : Loop limit path dropped s o) (hs : s.InOrder)
    (hstop : s.stop.isEof = true) {r : Recovered} (hr : o = .ok r) :
    Lined s.peek.line s.stop.line (r.program.map (·.line)) ∧
      ∃ later, r.errors = dropped ++ later ∧ Lined s.peek.line s.stop.line (later.map (·.line)) := by
  induction h generalizing r with
  | stop =>
    cases hr
    exact ⟨.nil, [], (List.append_nil _).symm, .nil⟩
  | @skip path dropped s t o _ h _ ih =>
    have hpasses := (passes_of_ok hstop h).precedes
    have hrest := ih (hs.behind hpasses) (hpasses.stop_eq ▸ hstop) hr
    rw [hpasses.stop_eq] at hrest
    obtain ⟨hprogram, later, hlater, herrors⟩ := hrest
    exact ⟨hprogram.mono (hs.line_le hpasses), later, hlater, herrors.mono (hs.line_le hpasses)⟩
  | @take path dropped s t stmt o _ h _ ih =>
    have hpasses := (passes_of_ok hstop h).precedes
    cases o with
    | error e => cases hr
    | ok rest =>
      cases hr
      have hrest := ih (hs.behind hpasses) (hpasses.stop_eq ▸ hstop) rfl
      rw [hpasses.stop_eq] at hrest
      obtain ⟨hprogram, later, hlater, herrors⟩ := hrest
      obtain ⟨ts, hbehind, -, hderives⟩ := sound_statement (soundInside_ofRoom maxDepth) s (some stmt) t hstop h
      have hline : stmt.line = s.peek.line := by
        rw [hbehind.peek]
        exact hderives.line_eq
      refine ⟨?_, later, hlater, herrors.mono (hs.line_le hpasses)⟩
      change Lined s.peek.line s.stop.line (stmt.line :: rest.program.map (·.line))
      rw [hline]
      exact (hprogram.mono (hs.line_le hpasses)).cons hs.line_le_stop
  | @drop path dropped s t e o heof h _ _ ih =>
    obtain ⟨hfailed, hline⟩ := statement_failed h
    have hresume := precedes_resume s t
    have hall := hfailed.trans hresume
    have hrest := ih (hs.behind hall) (hall.stop_eq ▸ hstop) hr
    rw [hall.stop_eq] at hrest
    obtain ⟨hprogram, later, hlater, herrors⟩ := hrest
    refine ⟨hprogram.mono (hs.line_le hall), e :: later, ?_, ?_⟩
    · rw [hlater, List.append_assoc]
      rfl
    · -- the error stands where the statement stopped, the later ones behind
      have ht := hs.behind hfailed
      have hlast : t.peek.line ≤ s.stop.line := hfailed.stop_eq ▸ ht.line_le_stop
      have herror : Lined t.peek.line s.stop.line ((e :: later).map (·.line)) := by
        rw [List.map_cons, hline]
        exact (herrors.mono (ht.line_le hresume)).cons hlast
      exact herror.mono (hs.line_le hfailed)
  | giveUp => cases hr

end Recovered

theorem Cursor.inOrder_tokenize (source : String) (firstLine : Nat) : ∃ ts stop,
    tokenize source firstLine = ts ++ [stop] ∧ Cursor.ofTokens (tokenize source firstLine) = ⟨ts, stop, 0⟩ ∧
      (Cursor.ofTokens (tokenize source firstLine)).InOrder := by
  obtain ⟨ts, line, column, -, htokens⟩ := exists_tokenize source firstLine
  have hcursor : Cursor.ofTokens (tokenize source firstLine) =
      ⟨ts.filter (·.kind ≠ .comment), .endOfInput line column, 0⟩ := by
    rw [htokens]
    simp [Cursor.ofTokens, Token.isEof, Token.endOfInput]
  refine ⟨_, _, htokens, hcursor, ?_⟩
  have hsorted := pairwise_line_tokenize source firstLine
  rw [htokens] at hsorted
  rw [hcursor]
  exact hsorted

/-- Reading with recovery comes to an end, since each turn of its loop takes a token. Of a text it reports the errors
and keeps the top statements in the order of their lines, the errors on lines of the text and no more than allowed. -/
theorem Program.parseRecovering_progress :
    (∀ (tokens : List Token) (limit : Nat), ∃ path, Recovered.Loop limit path [] (.ofTokens tokens)
      (Program.parseRecovering tokens limit) ∧ path.IsChain Cursor.Passes) ∧
    (∀ s : Cursor, s.stop.isEof = true →
      (Recovered.seek s s.budget).atEof = true ∨ (Recovered.seek s s.budget).checkAny Recovered.syncTokens = true) ∧
    ∀ (source : String) (firstLine limit : Nat) (r : Recovered),
      Program.parseRecovering (tokenize source firstLine) limit = .ok r →
        r.errors.Pairwise (fun e f => e.line ≤ f.line) ∧
        (∀ e ∈ r.errors, max firstLine 1 ≤ e.line ∧ e.line ≤ max firstLine 1 + source.toList.count '\n') ∧
        r.errors.length ≤ limit ∧
        r.program.Pairwise fun s t => s.line ≤ t.line := by
  have hloop (tokens : List Token) (limit : Nat) := Recovered.exists_loop limit (Cursor.isEof_ofTokens tokens)
    (show (Cursor.ofTokens tokens).pending.length < (Cursor.ofTokens tokens).budget.length from Nat.lt_succ_self _) []
  refine ⟨hloop, fun s hstop => Recovered.seek_stops hstop (Nat.lt_succ_self _), ?_⟩
  intro source firstLine limit r hr
  obtain ⟨path, hruns, -⟩ := hloop (tokenize source firstLine) limit
  obtain ⟨ts, stop, htokens, hcursor, horder⟩ := Cursor.inOrder_tokenize source firstLine
  obtain ⟨hprogram, later, hlater, herrors⟩ := hruns.lined horder (Cursor.isEof_ofTokens _) hr
  rw [List.nil_append] at hlater
  rw [← hlater] at herrors
  refine ⟨List.pairwise_map.mp herrors.sorted, ?_, (Recovered.errors_of_scan hr (Nat.zero_le limit)).2,
    List.pairwise_map.mp hprogram.sorted⟩
  intro e he
  have hbetween := herrors.between e.line (List.mem_map_of_mem he)
  rw [hcursor] at hbetween
  have hpeek : (Cursor.mk ts stop 0).peek ∈ tokenize source firstLine := htokens ▸ Cursor.peek_mem _
  have hstop : stop ∈ tokenize source firstLine := by
    rw [htokens]
    simp
  have hfirst := (line_of_mem_tokenize hpeek).1
  have hlast := (line_of_mem_tokenize hstop).2
  exact ⟨hfirst.trans hbetween.1, hbetween.2.trans hlast⟩

theorem Program.parseRecovering_progress_two_errors : ∃ r,
    Program.parseRecovering (tokenize "local 1;\nx()\nf(\nlocal y = z" 5) 2 = .ok r ∧
      r.errors.map ParseError.line = [5, 8] ∧ r.program.map Stmt.line = [6, 8] ∧
      r.errors.Pairwise (fun e f => e.line ≤ f.line) ∧ ∀ e ∈ r.errors, 5 ≤ e.line ∧ e.line ≤ 5 + 3 := by
  have hlines : (Program.parseRecovering (tokenize "local 1;\nx()\nf(\nlocal y = z" 5) 2).map
      (fun r => (r.errors.map ParseError.line, r.program.map Stmt.line)) = .ok ([5, 8], [6, 8]) := by decide +kernel
  cases hr : Program.parseRecovering (tokenize "local 1;\nx()\nf(\nlocal y = z" 5) 2 with
  | error e =>
    rw [hr] at hlines
    cases hlines
  | ok r =>
    rw [hr] at hlines
    obtain ⟨herrors, hprogram⟩ := Prod.mk.inj (Except.ok.inj hlines)
    have hprogress := Program.parseRecovering_progress.2.2 _ _ _ _ hr
    exact ⟨r, rfl, herrors, hprogram, hprogress.1, hprogress.2.1⟩

end ScriptGraph
