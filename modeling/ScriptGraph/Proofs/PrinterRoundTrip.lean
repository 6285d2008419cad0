import Mathlib.Data.List.Permutation
import ScriptGraph.Proofs.Legible
import ScriptGraph.Proofs.PrintedDerivation
import ScriptGraph.Proofs.SyntaxEquality

namespace ScriptGraph

/-- What is read can be printed again, unless a string ends in a backslash that escapes nothing. -/
theorem imply_printable {Q : Rules}
    (hQ : ∀ value quote, Q.expr (.string value quote) → Lexeme.dangles value.toList = false) :
    Rules.Imply legible Q printable where
  expr e hl hs := by
    cases e with
    | string value quote => exact ⟨hl, hQ value quote hs⟩
    | _ => exact hl
  field _ hl _ := hl
  action _ hl _ := hl
  block _ _ _ := trivial

theorem Program.every_printable {s : String} {firstLine : Nat} {p : Program}
    (h : Program.parse (tokenize s firstLine) = .ok p) (hs : Program.Every separable p) : Program.Every printable p :=
  (imply_printable fun _ _ h => h).program (Program.every_legible h) hs

/-- The parser undoes the printer: the text of a separable program is read as the same program, up to the
lines of its statements, unless it nests too deep. -/
theorem Program.parse_print {s : String} {firstLine : Nat} {p : Program}
    (h : Program.parse (tokenize s firstLine) = .ok p) (hs : Program.Every separable p) {unit : String}
    (hu : Text.isBlankText unit = true) :
    (∃ line, Program.parse (tokenize (Printer.program unit p)) = .error (.tooDeep maxDepth line)) ∨
      ∃ q, Program.parse (tokenize (Printer.program unit p)) = .ok q ∧
        Program.mapLines origin q = Program.mapLines origin p :=
  have hp := Program.every_printable h hs
  Program.parse_of_spells hp hs (Program.spells hu hp) 1

theorem Program.parse_print_signs : ∃ p, Program.parse (tokenize "x = - -(a .. b) ^ 2") = .ok p ∧
    Program.Every separable p ∧ Text.isBlankText "\t" = true ∧
    ((∃ line, Program.parse (tokenize (Printer.program "\t" p)) = .error (.tooDeep maxDepth line)) ∨
      ∃ q, Program.parse (tokenize (Printer.program "\t" p)) = .ok q ∧
        Program.mapLines origin q = Program.mapLines origin p) := by
  have h : Program.parse (tokenize "x = - -(a .. b) ^ 2") = .ok [.mk 1 (.assign (.identifier "x") .set (.unary .neg
      (.unary .neg (.binary .pow (.binary .concat (.identifier "a") (.identifier "b")) (.number "2")))))] := by
    decide +kernel
  have hs : Program.Every separable [.mk 1 (.assign (.identifier "x") .set (.unary .neg
      (.unary .neg (.binary .pow (.binary .concat (.identifier "a") (.identifier "b")) (.number "2")))))] := by
    simp only [Program.Every, Stmt.EveryAll, Stmt.Every, Action.Every, Expr.Every, separable, and_true]
    exact ⟨by simp [BareReturnLast], by decide⟩
  exact ⟨_, h, hs, rfl, Program.parse_print h hs rfl⟩

end ScriptGraph
