import ScriptGraph.Program.Recovery
import ScriptGraph.Proofs.ParserComplete
import ScriptGraph.Proofs.ParserSound

namespace ScriptGraph

open ScriptGraph.Parser

/-- From `s` on the top statements `ss` are read, one after the other, up to `t`. -/
inductive Completes : Cursor → Program → Cursor → Prop
  | done (s : Cursor) : Completes s [] s
  | skip {s t u : Cursor} {ss : Program} (hs : s.atEof = false) (h : statement Nested.top s = .ok none t)
      (hr : Completes t ss u) : Completes s ss u
  | stmt {s t u : Cursor} {stmt : Stmt} {ss : Program} (hs : s.atEof = false)
      (h : statement Nested.top s = .ok (some stmt) t) (hr : Completes t ss u) : Completes s (stmt :: ss) u

/-- The tokens start with the top statements `done`, and the statement behind them fails with `e`. -/
def Program.FailsAfter (tokens : List Token) (done : Program) (e : ParseError) : Prop :=
  ∃ t u, Completes (.ofTokens tokens) done t ∧ t.atEof = false ∧ statement Nested.top t = .error e u

/-- The top statements and semicolons that `budget` allows for. -/
def topItems (budget : List Token) : Parser (List (Option Stmt)) :=
  unfoldWithin (manyStep (blockStep Nested.top [])) budget ()

theorem blockStep_top {s : Cursor} (hs : s.atEof = false) :
    blockStep Nested.top [] s = (some <$> statement Nested.top) s := by
  have hlook : look (fun s : Cursor => s.atEof || s.checkAny []) s = .ok false s := by
    simp [look, Cursor.checkAny, hs]
  unfold blockStep
  rw [bind_of_ok hlook]
  rfl

theorem topItems_of_atEof {s : Cursor} (hs : s.atEof = true) (budget : List Token) :
    topItems budget s = .ok [] s := by
  cases budget with
  | nil => rfl
  | cons b budget =>
    have hlook : look (fun s : Cursor => s.atEof || s.checkAny []) s = .ok true s := by simp [look, hs]
    have hblock : blockStep Nested.top [] s = .ok none s := by
      unfold blockStep
      rw [bind_of_ok hlook]
      rfl
    have hstep : manyStep (blockStep Nested.top []) () s = .ok none s := bind_of_ok hblock
    exact bind_of_ok hstep

theorem topItems_of_ok {s t : Cursor} {o : Option Stmt} (hs : s.atEof = false)
    (h : statement Nested.top s = .ok o t) (b : Token) (budget : List Token) :
    topItems (b :: budget) s = (topItems budget >>= fun os => Pure.pure (o :: os)) t := by
  have hblock : blockStep Nested.top [] s = .ok (some o) t := by
    rw [blockStep_top hs]
    exact bind_of_ok h
  have hstep : manyStep (blockStep Nested.top []) () s = .ok (some (o, ())) t := bind_of_ok hblock
  exact bind_of_ok hstep

theorem topItems_of_error {s t : Cursor} {e : ParseError} (hs : s.atEof = false)
    (h : statement Nested.top s = .error e t) (b : Token) (budget : List Token) :
    topItems (b :: budget) s = .error e t := by
  have hblock : blockStep Nested.top [] s = .error e t := by
    rw [blockStep_top hs]
    exact bind_of_error h
  have hstep : manyStep (blockStep Nested.top []) () s = .error e t := bind_of_error hblock
  exact bind_of_error hstep

theorem bind_pure_eq_error {α β : Type} {p : Parser α} {f : α → β} {s t : Cursor} {e : ParseError}
    (h : (p >>= fun a => Pure.pure (f a)) s = .error e t) : p s = .error e t := by
  cases hp : p s with
  | ok a u => rw [bind_of_ok hp] at h; cases h
  | error f u => rw [bind_of_error hp] at h; cases h; rfl

theorem Program.parse_eq (tokens : List Token) :
    Program.parse tokens =
      match topItems (Cursor.ofTokens tokens).budget (.ofTokens tokens) with
      | .ok os _ => .ok (os.filterMap id)
      | .error e _ => .error e := by
  have hmany : many (blockStep Nested.top []) (.ofTokens tokens) =
      topItems (Cursor.ofTokens tokens).budget (.ofTokens tokens) := rfl
  unfold Program.parse
  rw [statements_eq]
  cases h : topItems (Cursor.ofTokens tokens).budget (.ofTokens tokens) with
  | ok os t => rw [bind_of_ok (hmany.trans h)]; rfl
  | error e t => rw [bind_of_error (hmany.trans h)]

namespace Recovered

/-- The result with more statements in front. -/
def prepend (done : Program) (r : Recovered) : Recovered := { r with program := done ++ r.program }

@[simp] theorem prepend_program (done : Program) (r : Recovered) :
    (r.prepend done).program = done ++ r.program := rfl

@[simp] theorem prepend_errors (done : Program) (r : Recovered) : (r.prepend done).errors = r.errors := rfl

@[simp] theorem map_prepend_nil (o : Except ParseError Recovered) : o.map (prepend []) = o := by
  cases o <;> rfl

theorem map_prepend_prepend (stmt : Stmt) (done : Program) (o : Except ParseError Recovered) :
    (o.map (prepend done)).map (prepend [stmt]) = o.map (prepend (stmt :: done)) := by
  cases o <;> rfl

variable {limit : Nat} {budget : List Token} {dropped : List ParseError} {s t : Cursor} {b : Token}

theorem scan_of_atEof (hs : s.atEof = true) : scan limit budget dropped s = .ok ⟨[], dropped⟩ := by
  cases budget with
  | nil => rfl
  | cons b budget => rw [scan, if_pos hs]

theorem scan_of_none (hs : s.atEof = false) (h : statement Nested.top s = .ok none t) :
    scan limit (b :: budget) dropped s = scan limit budget dropped t := by
  rw [scan, if_neg (by simp [hs]), h]

theorem scan_of_some {stmt : Stmt} (hs : s.atEof = false) (h : statement Nested.top s = .ok (some stmt) t) :
    scan limit (b :: budget) dropped s = (scan limit budget dropped t).map (prepend [stmt]) := by
  rw [scan, if_neg (by simp [hs]), h]
  rfl

theorem scan_of_error {e : ParseError} (hs : s.atEof = false) (h : statement Nested.top s = .error e t) :
    scan limit (b :: budget) dropped s =
      if dropped.length < limit then scan limit budget (dropped ++ [e]) (resume s t)
      else .error (.recoveryLimit limit (dropped.headD e)) := by
  rw [scan, if_neg (by simp [hs]), h]

/-- What one turn of the loop does: it ends, takes a statement or a semicolon, or meets an error. -/
theorem turn (s : Cursor) :
    s.atEof = true ∨ s.atEof = false ∧ ((∃ t, statement Nested.top s = .ok none t) ∨
      (∃ stmt t, statement Nested.top s = .ok (some stmt) t) ∨ ∃ e t, statement Nested.top s = .error e t) := by
  cases hs : s.atEof with
  | true => exact .inl rfl
  | false =>
    refine .inr ⟨rfl, ?_⟩
    cases h : statement Nested.top s with
    | ok o t =>
      cases o with
      | none => exact .inl ⟨t, rfl⟩
      | some stmt => exact .inr (.inl ⟨stmt, t, rfl⟩)
    | error e t => exact .inr (.inr ⟨e, t, rfl⟩)

/-- Errors are kept in their order, and there are no more of them than the limit. -/
theorem errors_of_scan {r : Recovered} (h : scan limit budget dropped s = .ok r) (hd : dropped.length ≤ limit) :
    dropped <+: r.errors ∧ r.errors.length ≤ limit := by
  induction budget generalizing dropped s r with
  | nil =>
    cases h
    exact ⟨List.prefix_rfl, hd⟩
  | cons b budget ih =>
    rcases turn s with hs | ⟨hs, ⟨t, ht⟩ | ⟨stmt, t, ht⟩ | ⟨e, t, ht⟩⟩
    · rw [scan_of_atEof hs] at h
      cases h
      exact ⟨List.prefix_rfl, hd⟩
    · rw [scan_of_none hs ht] at h
      exact ih h hd
    · rw [scan_of_some hs ht] at h
      cases hrest : scan limit budget dropped t with
      | error e => rw [hrest] at h; cases h
      | ok rest =>
        rw [hrest] at h
        cases h
        have hkept := ih hrest hd
        exact hkept
    · rw [scan_of_error hs ht] at h
      by_cases hroom : dropped.length < limit
      · rw [if_pos hroom] at h
        obtain ⟨hpre, hlen⟩ := ih h (by rw [List.length_append, List.length_singleton]; omega)
        exact ⟨(List.prefix_append dropped [e]).trans hpre, hlen⟩
      · rw [if_neg hroom] at h
        cases h

/-- When the loop gives up, it reports the first error. -/
theorem error_of_scan {e e' : ParseError} (h : scan limit budget dropped s = .error e')
    (hd : dropped.head? = some e) : e' = .recoveryLimit limit e := by
  induction budget generalizing dropped s with
  | nil => cases h
  | cons b budget ih =>
    rcases turn s with hs | ⟨hs, ⟨t, ht⟩ | ⟨stmt, t, ht⟩ | ⟨f, t, ht⟩⟩
    · rw [scan_of_atEof hs] at h
      cases h
    · rw [scan_of_none hs ht] at h
      exact ih h hd
    · rw [scan_of_some hs ht] at h
      cases hrest : scan limit budget dropped t with
      | ok r => rw [hrest] at h; cases h
      | error e =>
        rw [hrest] at h
        cases h
        exact ih hrest hd
    · rw [scan_of_error hs ht] at h
      by_cases hroom : dropped.length < limit
      · rw [if_pos hroom] at h
        exact ih h (by rw [List.head?_append, hd]; rfl)
      · rw [if_neg hroom, List.headD_eq_head?_getD, hd] at h
        cases h
        rfl

/-- A result that stays within the limit does not depend on it. -/
theorem scan_mono {limit' : Nat} (hl : limit ≤ limit') {r : Recovered}
    (h : scan limit budget dropped s = .ok r) : scan limit' budget dropped s = .ok r := by
  induction budget generalizing dropped s r with
  | nil => exact h
  | cons b budget ih =>
    rcases turn s with hs | ⟨hs, ⟨t, ht⟩ | ⟨stmt, t, ht⟩ | ⟨e, t, ht⟩⟩
    · rw [scan_of_atEof hs] at h ⊢
      exact h
    · rw [scan_of_none hs ht] at h ⊢
      exact ih h
    · rw [scan_of_some hs ht] at h ⊢
      cases hrest : scan limit budget dropped t with
      | error e => rw [hrest] at h; cases h
      | ok r => rwa [ih hrest, ← hrest]
    · rw [scan_of_error hs ht] at h ⊢
      by_cases hroom : dropped.length < limit
      · rw [if_pos hroom] at h
        rw [if_pos (by omega)]
        exact ih h
      · rw [if_neg hroom] at h
        cases h

/-- Where the strict loop gets through, this one does the same. -/
theorem scan_of_topItems_ok {os : List (Option Stmt)} (h : topItems budget s = .ok os t) :
    scan limit budget dropped s = .ok ⟨os.filterMap id, dropped⟩ := by
  induction budget generalizing s os with
  | nil =>
    cases h
    rfl
  | cons b budget ih =>
    rcases turn s with hs | ⟨hs, hturn⟩
    · rw [topItems_of_atEof hs] at h
      cases h
      exact scan_of_atEof hs
    rcases hturn with ⟨u, hu⟩ | ⟨stmt, u, hu⟩ | ⟨e, u, hu⟩
    · rw [topItems_of_ok hs hu] at h
      obtain ⟨os, v, hos, hok⟩ := bind_eq_ok h
      cases hok
      rw [scan_of_none hs hu, ih hos]
      rfl
    · rw [topItems_of_ok hs hu] at h
      obtain ⟨os, v, hos, hok⟩ := bind_eq_ok h
      cases hok
      rw [scan_of_some hs hu, ih hos]
      rfl
    · rw [topItems_of_error hs hu] at h
      cases h

/-- Where the strict loop fails, this one keeps what was read up to there and drops the statement that
fails, if it may. -/
theorem scan_of_topItems_error {e : ParseError} (h : topItems budget s = .error e t) :
    ∃ done u v rest, Completes s done u ∧ u.atEof = false ∧ statement Nested.top u = .error e v ∧
      ∀ limit dropped, scan limit budget dropped s =
        (if dropped.length < limit then scan limit rest (dropped ++ [e]) (resume u v)
          else .error (.recoveryLimit limit (dropped.headD e))).map (prepend done) := by
  induction budget generalizing s with
  | nil => cases h
  | cons b budget ih =>
    rcases turn s with hs | ⟨hs, hturn⟩
    · rw [topItems_of_atEof hs] at h
      cases h
    rcases hturn with ⟨u, hu⟩ | ⟨stmt, u, hu⟩ | ⟨f, u, hu⟩
    · rw [topItems_of_ok hs hu] at h
      obtain ⟨done, v, w, rest, hdone, hv, hw, hscan⟩ := ih (bind_pure_eq_error h)
      refine ⟨done, v, w, rest, .skip hs hu hdone, hv, hw, fun limit dropped => ?_⟩
      rw [scan_of_none hs hu, hscan]
    · rw [topItems_of_ok hs hu] at h
      obtain ⟨done, v, w, rest, hdone, hv, hw, hscan⟩ := ih (bind_pure_eq_error h)
      refine ⟨stmt :: done, v, w, rest, .stmt hs hu hdone, hv, hw, fun limit dropped => ?_⟩
      rw [scan_of_some hs hu, hscan, map_prepend_prepend]
    · rw [topItems_of_error hs hu] at h
      cases h
      refine ⟨[], s, t, budget, .done s, hs, hu, fun limit dropped => ?_⟩
      rw [scan_of_error hs hu, map_prepend_nil]

end Recovered

open Recovered

theorem Program.parseRecovering_of_parse_ok {tokens : List Token} {p : Program} (limit : Nat)
    (h : Program.parse tokens = .ok p) : Program.parseRecovering tokens limit = .ok ⟨p, []⟩ := by
  rw [Program.parse_eq] at h
  cases hitems : topItems (Cursor.ofTokens tokens).budget (.ofTokens tokens) with
  | error e t => rw [hitems] at h; cases h
  | ok os t =>
    rw [hitems] at h
    cases h
    exact scan_of_topItems_ok hitems

/-- After a strict failure the other parser keeps the statements before it and reports the error first, or
gives up and reports it. -/
theorem Program.parseRecovering_of_parse_error {tokens : List Token} {e : ParseError} (limit : Nat)
    (h : Program.parse tokens = .error e) :
    ∃ done, FailsAfter tokens done e ∧
      ((∃ r, Program.parseRecovering tokens limit = .ok r ∧ r.errors.head? = some e ∧
          r.errors.length ≤ limit ∧ done <+: r.program) ∨
        Program.parseRecovering tokens limit = .error (.recoveryLimit limit e)) := by
  rw [Program.parse_eq] at h
  cases hitems : topItems (Cursor.ofTokens tokens).budget (.ofTokens tokens) with
  | ok os t => rw [hitems] at h; cases h
  | error f t =>
    rw [hitems] at h
    cases h
    obtain ⟨done, u, v, rest, hdone, hu, hv, hscan⟩ := scan_of_topItems_error hitems
    refine ⟨done, ⟨u, v, hdone, hu, hv⟩, ?_⟩
    unfold Program.parseRecovering
    rw [hscan]
    by_cases hroom : 0 < limit
    · rw [if_pos (by simpa using hroom)]
      cases hrest : scan limit rest ([] ++ [e]) (resume u v) with
      | ok r =>
        obtain ⟨⟨later, hlater⟩, hlen⟩ := errors_of_scan hrest (show 1 ≤ limit from hroom)
        refine .inl ⟨r.prepend done, rfl, ?_, hlen, List.prefix_append done r.program⟩
        rw [prepend_errors, ← hlater]
        rfl
      | error f =>
        have hf : f = .recoveryLimit limit e := error_of_scan hrest rfl
        exact .inr (by rw [hf]; rfl)
    · rw [if_neg (by simpa using hroom)]
      exact .inr rfl

/-- The strict and the recovering parser agree. Strict success is recovery without an error. After a
strict failure, recovery keeps all that was read before it and reports the same error first, as the first
of at most `limit` errors or when it gives up. A result within the limit is the result for every larger
limit. -/
theorem Program.parseRecovering_agrees (tokens : List Token) (limit : Nat) :
    (∀ p, Program.parse tokens = .ok p ↔ Program.parseRecovering tokens limit = .ok ⟨p, []⟩) ∧
    (∀ e, Program.parse tokens = .error e → ∃ done, FailsAfter tokens done e ∧
      ((∃ r, Program.parseRecovering tokens limit = .ok r ∧ 1 ≤ r.errors.length ∧ r.errors.length ≤ limit ∧
          r.errors.head? = some e ∧ done <+: r.program) ∨
        Program.parseRecovering tokens limit = .error (.recoveryLimit limit e))) ∧
    (∀ r, Program.parseRecovering tokens limit = .ok r →
      ∀ limit', limit ≤ limit' → Program.parseRecovering tokens limit' = .ok r) := by
  refine ⟨fun p => ⟨parseRecovering_of_parse_ok limit, fun h => ?_⟩, fun e he => ?_,
    fun r hr limit' hl => scan_mono hl hr⟩
  · cases hparse : Program.parse tokens with
    | ok q =>
      have hq := parseRecovering_of_parse_ok limit hparse
      rw [h] at hq
      cases hq
      rfl
    | error e =>
      obtain ⟨done, -, ⟨r, hr, hfirst, -⟩ | hlimit⟩ := parseRecovering_of_parse_error limit hparse
      · rw [h] at hr
        cases hr
        cases hfirst
      · rw [h] at hlimit
        cases hlimit
  · obtain ⟨done, hdone, ⟨r, hr, hfirst, hlen, hpre⟩ | hlimit⟩ := parseRecovering_of_parse_error limit he
    · have hone : 1 ≤ r.errors.length := List.length_pos_of_mem (List.mem_of_mem_head? hfirst)
      exact ⟨done, hdone, .inl ⟨r, hr, hone, hlen, hfirst, hpre⟩⟩
    · exact ⟨done, hdone, .inr hlimit⟩

end ScriptGraph
