import ScriptGraph.Proofs.LineIndependence
import ScriptGraph.Proofs.PrinterRoundTrip

namespace ScriptGraph

open Lexeme

/-- Printed below `s`, the statement `t` does not carry it on. -/
def Stmt.ClearOf (s t : Stmt) : Prop :=
  s.action ≠ .giveBack [] ∧ (s.action.endsOpen = true → t.action.leadToken.bridges = false)

/-- What lets the statements of a program be printed one below the other without separators: no two neighbours
run together, only a definition starts with `function`, and no string ends in an unpaired backslash. -/
def stackable : Rules where
  expr
    | .string value _ => dangles value.toList = false
    | _ => True
  action
    | .define .. => True
    | a => a.leadToken.is "function" = false
  block ss := ss.IsChain Stmt.ClearOf

/-- The statement above is over where the one below starts. -/
theorem Stmt.ClearOf.endsBefore {s t : Stmt} (h : s.ClearOf t) (ht : t.IsRead) (hp : t.Every printable) {l : Lexeme}
    {ls : List Lexeme} (hl : t.action.lexemes = l :: ls) : s.action.EndsBefore (l.token ⟨0, 0⟩) := by
  obtain ⟨m, ms, hm, hopens⟩ := ht.head
  obtain ⟨rfl, rfl⟩ := List.cons.inj (hl.symm.trans hm)
  have hspelled : t.action.IsSpelled defaultIndent := (printable_cases rfl).action _ hp.action_every
  refine ⟨?_, fun hbare => absurd hbare h.1⟩
  rcases Bool.or_eq_true_iff.mp hopens with hstarts | hbridges
  · exact .inl (Token.endsStmt_of_startsStmt hstarts)
  · refine .inr ⟨?_, hbridges⟩
    by_contra hopen
    have hclear := h.2 (by simpa using hopen)
    rw [Action.bridges_leadToken hspelled hl, hbridges] at hclear
    cases hclear

theorem stackable_separates : stackable.Separates where
  evaluate _ h := h
  assign _ _ _ h := h
  block _ hread hp _ hchain := hchain.imp_of_mem_imp fun _ t _ ht hclear _ _ hl =>
    hclear.endsBefore (hread t ht) (hp t ht) hl

/-- Programs that differ in their lines only are printed alike. -/
theorem Printer.program_eq_of_mapLines {p q : Program} {f : Nat → Nat} (h : Program.mapLines f q = Program.mapLines f p)
    (unit : String) : Printer.program unit q = Printer.program unit p := by
  have hprint (r : Program) : Printer.program unit (r.mapLines f) = Printer.program unit r := by
    rw [Printer.program, Printer.program, Program.mapLines, Stmt.mapLinesAll_eq, List.map_map]
    congr 1
    apply List.map_congr_left
    intro s _
    obtain ⟨line, action⟩ := s
    exact ((Printer.fixed_cases f unit).action action).text 0
  rw [← hprint q, h, hprint p]

/-- Formatting twice is formatting once: the printed text of a program that was read, whose statements can be
printed one below the other, is accepted and printed as it is, unless it nests too deep. -/
theorem Program.print_idempotent {s : String} {firstLine : Nat} {p : Program}
    (h : Program.parse (tokenize s firstLine) = .ok p) (hs : Program.Every stackable p) {unit : String}
    (hu : Text.isBlankText unit = true) :
    (∃ line, Program.parse (tokenize (Printer.program unit p)) = .error (.tooDeep maxDepth line)) ∨
      ∃ q, Program.parse (tokenize (Printer.program unit p)) = .ok q ∧
        Printer.program unit q = Printer.program unit p := by
  have hp : Program.Every printable p := (imply_printable fun _ _ h => h).program (Program.every_legible h) hs
  have hread := Program.parse_of_separates stackable_separates hp hs (Program.spells hu hp) 1
  refine hread.imp_right fun hok => ?_
  obtain ⟨q, hq, hlines⟩ := hok
  exact ⟨q, hq, Printer.program_eq_of_mapLines hlines unit⟩

theorem Program.print_idempotent_loop : ∃ p, Program.parse (tokenize "while a do (f or g)() end (h or k)()") = .ok p ∧
    Program.Every stackable p ∧ Text.isBlankText "\t" = true ∧
    ((∃ line, Program.parse (tokenize (Printer.program "\t" p)) = .error (.tooDeep maxDepth line)) ∨
      ∃ q, Program.parse (tokenize (Printer.program "\t" p)) = .ok q ∧
        Printer.program "\t" q = Printer.program "\t" p) := by
  have h : Program.parse (tokenize "while a do (f or g)() end (h or k)()") = .ok
      [.mk 1 (.whileLoop (.identifier "a")
        [.mk 1 (.evaluate (.call (.binary .or (.identifier "f") (.identifier "g")) []))]),
      .mk 1 (.evaluate (.call (.binary .or (.identifier "h") (.identifier "k")) []))] := by decide +kernel
  have hs : Program.Every stackable
      [.mk 1 (.whileLoop (.identifier "a")
        [.mk 1 (.evaluate (.call (.binary .or (.identifier "f") (.identifier "g")) []))]),
      .mk 1 (.evaluate (.call (.binary .or (.identifier "h") (.identifier "k")) []))] := by
    simp only [Program.Every, Stmt.EveryAll, Stmt.Every, Action.Every, Expr.Every, Expr.EveryAll, stackable, and_true,
      true_and]
    exact ⟨.cons_cons ⟨by simp [Stmt.action], by simp [Stmt.action, Action.endsOpen]⟩ (.singleton _),
      ⟨by decide, .singleton _, by decide⟩, by decide⟩
  exact ⟨_, h, hs, rfl, Program.print_idempotent h hs rfl⟩

/-- No separator is printed in front of a statement that starts with a parenthesis, so the two statements below
become one. -/
theorem Program.print_not_idempotent : ∃ p q, Program.parse (tokenize "x = a; (f or g)()") = .ok p ∧
    Program.parse (tokenize (Printer.program defaultIndent p)) = .ok q ∧
    Printer.program defaultIndent q ≠ Printer.program defaultIndent p := by
  obtain ⟨h, hagain⟩ :
      Program.parse (tokenize "x = a; (f or g)()") = .ok [.mk 1 (.assign (.identifier "x") .set (.identifier "a")),
        .mk 1 (.evaluate (.call (.binary .or (.identifier "f") (.identifier "g")) []))] ∧
      Program.parse (tokenize "x = a\n(f or g)()") = .ok [.mk 1 (.assign (.identifier "x") .set
        (.call (.call (.identifier "a") [.binary .or (.identifier "f") (.identifier "g")]) []))] :=
    ⟨by decide +kernel, by decide +kernel⟩
  have hprint : Printer.program defaultIndent [.mk 1 (.assign (.identifier "x") .set (.identifier "a")),
      .mk 1 (.evaluate (.call (.binary .or (.identifier "f") (.identifier "g")) []))] = "x = a\n(f or g)()" := by decide
  refine ⟨_, _, h, by rw [hprint]; exact hagain, ?_⟩
  rw [hprint]
  decide

end ScriptGraph
