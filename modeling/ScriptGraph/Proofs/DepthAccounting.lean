import ScriptGraph.Program.Recovery
import ScriptGraph.Proofs.Contracts

namespace ScriptGraph

theorem Cursor.depth_advance (s : Cursor) : s.advance.depth = s.depth := by
  unfold advance
  split
  · rfl
  · split <;> rfl

/-- Behind a value as many levels are open as before. Where a parser fails there may be more, one above the limit at
most, and inside a chain there may be more up to the limit. -/
def Contract.levels : Contract where
  done s t := s.depth ≤ maxDepth → t.depth = s.depth
  raised s t := s.depth ≤ maxDepth → s.depth ≤ t.depth ∧ t.depth ≤ maxDepth
  failed s _ t := s.depth ≤ maxDepth → s.depth ≤ t.depth ∧ t.depth ≤ maxDepth + 1
  refl _ _ := rfl
  trans h h' hs := (h' (h hs ▸ hs)).trans (h hs)
  raise h hs := by
    rw [h hs]
    exact ⟨Nat.le_refl _, hs⟩
  raisedTrans h h' hs := ⟨Nat.le_trans (h hs).1 (h' (h hs).2).1, (h' (h hs).2).2⟩
  fail h h' hs := ⟨Nat.le_trans (h hs).1 (h' (h hs).2).1, (h' (h hs).2).2⟩
  advance s _ := s.depth_advance
  unexpected _ hs := ⟨Nat.le_refl _, Nat.le_succ_of_le hs⟩
  expected _ _ hs := ⟨Nat.le_refl _, Nat.le_succ_of_le hs⟩
  deepen hs _ := ⟨Nat.le_succ _, hs⟩
  tooDeep _ hs := ⟨Nat.le_succ _, Nat.succ_le_succ hs⟩
  rise hs h _ := Nat.sub_eq_of_eq_add (h hs)
  failRise hs h _ := ⟨Nat.le_sub_one_of_lt (h hs).1, Nat.le_trans (Nat.sub_le _ _) (h hs).2⟩
  restore _ _ := rfl
  failRestore _ hs := ⟨Nat.le_refl _, Nat.le_succ_of_le hs⟩

namespace Parser

variable {α : Type} {p : Parser α}

/-- Behind a value the counter is what it was, and behind an error it is no lower and passes the limit by at most
one. -/
def KeepsLevel (p : Parser α) : Prop := ∀ s, s.depth ≤ maxDepth →
  (∀ a t, p s = .ok a t → t.depth = s.depth) ∧
    ∀ e t, p s = .error e t → s.depth ≤ t.depth ∧ t.depth ≤ maxDepth + 1

/-- The same of a part of a chain, whose levels are closed together when the chain ends. -/
def RaisesLevel (p : Parser α) : Prop := ∀ s, s.depth ≤ maxDepth →
  (∀ a t, p s = .ok a t → s.depth ≤ t.depth ∧ t.depth ≤ maxDepth) ∧
    ∀ e t, p s = .error e t → s.depth ≤ t.depth ∧ t.depth ≤ maxDepth + 1

theorem keepsLevel_iff : KeepsLevel p ↔ Meets .levels p := by
  constructor
  · intro hp s
    cases h : p s with
    | ok a t => exact fun hs => (hp s hs).1 a t h
    | error e t => exact fun hs => (hp s hs).2 e t h
  · intro hp s hs
    have hmeets := hp s
    constructor
    · intro a t h
      rw [h] at hmeets
      exact hmeets hs
    · intro e t h
      rw [h] at hmeets
      exact hmeets hs

theorem Raises.raisesLevel (hp : Raises .levels p) : RaisesLevel p := by
  intro s hs
  have hraises := hp s
  constructor
  · intro a t h
    rw [h] at hraises
    exact hraises hs
  · intro e t h
    rw [h] at hraises
    exact hraises hs

end Parser

open ScriptGraph.Parser in
/-- The parsers of a level keep the counter, apart from `enter` and `trailer`, which may raise it. -/
structure Nested.KeepsLevels (inner : Nested) : Prop where
  enter : RaisesLevel enter
  expect (text : String) : KeepsLevel (expect text)
  identifier : KeepsLevel identifier
  expression : KeepsLevel inner.expression
  concat : KeepsLevel inner.concat
  operand : KeepsLevel inner.operand
  block (stops : List String) : KeepsLevel (inner.block stops)
  leftChain (ops : List BinaryOp) {item : Parser Expr} : KeepsLevel item → KeepsLevel (leftChain ops item)
  disjunction : KeepsLevel (disjunction inner)
  concatenation : KeepsLevel (concatenation inner)
  sum : KeepsLevel (sum inner)
  unary : KeepsLevel (unary inner)
  power : KeepsLevel (power inner)
  access : KeepsLevel (access inner)
  trailer (e : Expr) : RaisesLevel (trailer inner e)
  primary : KeepsLevel (primary inner)
  tableFields : KeepsLevel (tableFields inner)
  tableField : KeepsLevel (tableField inner)
  arguments : KeepsLevel (arguments inner)
  body : KeepsLevel (body inner)
  parameters : KeepsLevel parameters
  parameter : KeepsLevel parameter
  functionName : KeepsLevel functionName
  definition (isLocal : Bool) : KeepsLevel (definition inner isLocal)
  localDeclaration : KeepsLevel (localDeclaration inner)
  conditional : KeepsLevel (conditional inner)
  whileLoop : KeepsLevel (whileLoop inner)
  forLoop : KeepsLevel (forLoop inner)
  returnValues : KeepsLevel (returnValues inner)
  expressionStatement : KeepsLevel (expressionStatement inner)
  statement : KeepsLevel (statement inner)
  statements (stops : List String) : KeepsLevel (statements inner stops)

open ScriptGraph.Parser in
theorem Nested.keepsLevels_ofRoom (n : Nat) : (ofRoom n).KeepsLevels := by
  have hi := meetsInside_ofRoom .levels n
  have hunary := meets_unary hi
  exact {
    enter := (Raises.enter).raisesLevel
    expect := fun text => keepsLevel_iff.mpr (.expect text)
    identifier := keepsLevel_iff.mpr .identifier
    expression := keepsLevel_iff.mpr hi.expression
    concat := keepsLevel_iff.mpr hi.concat
    operand := keepsLevel_iff.mpr hi.operand
    block := fun stops => keepsLevel_iff.mpr (hi.block stops)
    leftChain := fun ops _ hitem => keepsLevel_iff.mpr (meets_leftChain ops (keepsLevel_iff.mp hitem))
    disjunction := keepsLevel_iff.mpr (meets_disjunction hi)
    concatenation := keepsLevel_iff.mpr (meets_concatenation hi)
    sum := keepsLevel_iff.mpr (meets_leftChain _ (meets_leftChain _ hunary))
    unary := keepsLevel_iff.mpr hunary
    power := keepsLevel_iff.mpr (meets_power hi)
    access := keepsLevel_iff.mpr (meets_access hi)
    trailer := fun e => (raises_trailer hi e).raisesLevel
    primary := keepsLevel_iff.mpr (meets_primary hi)
    tableFields := keepsLevel_iff.mpr (meets_tableFields hi)
    tableField := keepsLevel_iff.mpr (meets_tableField hi)
    arguments := keepsLevel_iff.mpr (meets_arguments hi)
    body := keepsLevel_iff.mpr (meets_body hi)
    parameters := keepsLevel_iff.mpr meets_parameters
    parameter := keepsLevel_iff.mpr meets_parameter
    functionName := keepsLevel_iff.mpr meets_functionName
    definition := fun isLocal => keepsLevel_iff.mpr (meets_definition hi isLocal)
    localDeclaration := keepsLevel_iff.mpr (meets_localDeclaration hi)
    conditional := keepsLevel_iff.mpr (meets_conditional hi)
    whileLoop := keepsLevel_iff.mpr (meets_whileLoop hi)
    forLoop := keepsLevel_iff.mpr (meets_forLoop hi)
    returnValues := keepsLevel_iff.mpr (meets_returnValues hi)
    expressionStatement := keepsLevel_iff.mpr (meets_expressionStatement hi)
    statement := keepsLevel_iff.mpr (meets_statement hi)
    statements := fun stops => keepsLevel_iff.mpr (meets_statements hi stops) }

namespace Parser

variable {α : Type} {p : Parser α}

/-- Closes a nested construct. If none is open, reading ends with the error `stuck`. -/
def leaveChecked (stuck : ParseError) : Parser Unit := fun s => if s.depth = 0 then .error stuck s else leave s

/-- Runs `p` one level down, as `within` does. -/
def withinChecked (stuck : ParseError) (p : Parser α) : Parser α := fun s =>
  match enter s with
  | .error e t => .error e t
  | .ok _ t =>
    match p t with
    | .ok a u => (leaveChecked stuck >>= fun _ => pure a) u
    | .error e u => (leaveChecked stuck >>= fun _ => fail e) u

def blockChecked (stuck : ParseError) (inner : Nested) (stops : List String) : Parser (List Stmt) := do
  enter
  let stmts ← statements inner stops
  leaveChecked stuck
  return stmts

theorem leaveChecked_eq (stuck : ParseError) {s : Cursor} (h : 0 < s.depth) : leaveChecked stuck s = leave s :=
  if_neg (Nat.ne_of_gt h)

/-- Levels that were opened are still open when they are closed, whether `p` fails or not. -/
theorem withinChecked_eq (stuck : ParseError) (hp : Meets .levels p) : withinChecked stuck p = within p := by
  funext s
  unfold withinChecked within
  rw [enter_eq]
  by_cases hs : s.depth < maxDepth
  · rw [if_pos hs]
    have hin := hp (s.atDepth (s.depth + 1))
    dsimp only
    cases h : p (s.atDepth (s.depth + 1)) with
    | ok a t =>
      rw [h] at hin
      have hdepth : t.depth = s.depth + 1 := hin hs
      exact bind_of_ok (leaveChecked_eq stuck (by omega))
    | error e t =>
      rw [h] at hin
      have hdepth : s.depth + 1 ≤ t.depth := (hin hs).1
      exact bind_of_ok (leaveChecked_eq stuck (by omega))
  · rw [if_neg hs]

theorem blockChecked_eq (stuck : ParseError) {inner : Nested} (hi : MeetsInside .levels inner) (stops : List String) :
    blockChecked stuck inner stops = block inner stops := by
  funext s
  unfold blockChecked block
  have henter := enter_eq s
  by_cases hs : s.depth < maxDepth
  · rw [if_pos hs] at henter
    rw [bind_of_ok henter, bind_of_ok henter]
    have hin := meets_statements hi stops (s.atDepth (s.depth + 1))
    cases h : statements inner stops (s.atDepth (s.depth + 1)) with
    | ok ss t =>
      rw [h] at hin
      have hdepth : t.depth = s.depth + 1 := hin hs
      have hleave : leave t = .ok () { t with depth := t.depth - 1 } := rfl
      have hchecked := (leaveChecked_eq stuck (by omega : 0 < t.depth)).trans hleave
      rw [bind_of_ok h, bind_of_ok h, bind_of_ok hleave, bind_of_ok hchecked]
    | error e t => rw [bind_of_error h, bind_of_error h]
  · rw [if_neg hs] at henter
    rw [bind_of_error henter, bind_of_error henter]

end Parser

namespace Nested

/-- The parsers with room for `n` levels, which look whether a level is open before they close it. -/
def checked (stuck : ParseError) : Nat → Nested
  | 0 => full
  | n + 1 =>
    let inner := checked stuck n
    { expression := .withinChecked stuck (.disjunction inner)
      concat := .withinChecked stuck (.concatenation inner)
      operand := .withinChecked stuck (.unary inner)
      block := .blockChecked stuck inner }

/-- No parser ever closes a level that is not open. -/
theorem checked_eq (stuck : ParseError) (n : Nat) : checked stuck n = ofRoom n := by
  induction n with
  | zero => rfl
  | succ n ih =>
    have hi := Parser.meetsInside_ofRoom .levels n
    have hblock : Parser.blockChecked stuck (ofRoom n) = Parser.block (ofRoom n) :=
      funext (Parser.blockChecked_eq stuck hi)
    rw [checked, ih, ofRoom, Parser.withinChecked_eq stuck (Parser.meets_disjunction hi),
      Parser.withinChecked_eq stuck (Parser.meets_concatenation hi),
      Parser.withinChecked_eq stuck (Parser.meets_unary hi), hblock]

end Nested

/-- Reads a whole token list with the given parsers for the insides of top statements. -/
def Program.parseBy (top : Nested) (tokens : List Token) : Except ParseError Program :=
  match Parser.statements top [] (.ofTokens tokens) with
  | .ok stmts _ => .ok stmts
  | .error e _ => .error e

/-- The top statements from a cursor on, with the given parsers for their insides. -/
def Recovered.scanBy (top : Nested) (limit : Nat) : List Token → List ParseError → Cursor → Except ParseError Recovered
  | [], dropped, _ => .ok ⟨[], dropped⟩
  | _ :: budget, dropped, s =>
    if s.atEof then .ok ⟨[], dropped⟩
    else
      match Parser.statement top s with
      | .ok none t => scanBy top limit budget dropped t
      | .ok (some stmt) t =>
        (scanBy top limit budget dropped t).map fun r => { r with program := stmt :: r.program }
      | .error e t =>
        if dropped.length < limit then scanBy top limit budget (dropped ++ [e]) (resume s t)
        else .error (.recoveryLimit limit (dropped.headD e))

def Program.parseRecoveringBy (top : Nested) (tokens : List Token) (limit : Nat) : Except ParseError Recovered :=
  let s := Cursor.ofTokens tokens
  Recovered.scanBy top limit s.budget [] s

theorem Recovered.scanBy_top (limit : Nat) : ∀ budget dropped s,
    scanBy Nested.top limit budget dropped s = scan limit budget dropped s := by
  intro budget
  induction budget with
  | nil => exact fun _ _ => rfl
  | cons _ budget ih =>
    intro dropped s
    rw [scanBy]
    simp only [ih]
    rfl

/-- The count of open levels is exact. A parser that starts within the limit leaves it as it was if it succeeds, and
no lower if it fails, at most one above the limit. The two parsers that open a level for others to close, `enter` and
`trailer`, leave it no lower and within the limit if they succeed. In no reading, strict or recovering, is a level
closed that is not open. -/
theorem Parser.levels_exact :
    (∀ n, (Nested.ofRoom n).KeepsLevels) ∧
      ∀ (stuck : ParseError) (tokens : List Token),
        Program.parseBy (.checked stuck maxDepth) tokens = Program.parse tokens ∧
        ∀ limit, Program.parseRecoveringBy (.checked stuck maxDepth) tokens limit =
          Program.parseRecovering tokens limit := by
  refine ⟨Nested.keepsLevels_ofRoom, fun stuck tokens => ?_⟩
  have htop : Nested.checked stuck maxDepth = Nested.top := Nested.checked_eq stuck maxDepth
  rw [htop]
  exact ⟨rfl, fun limit => Recovered.scanBy_top limit _ _ _⟩

end ScriptGraph
