import ScriptGraph.Proofs.Grammar

namespace ScriptGraph

mutual

/-- The expression with the lines of all statements inside it changed. -/
def Expr.mapLines (f : Nat → Nat) : Expr → Expr
  | .binary op left right => .binary op (left.mapLines f) (right.mapLines f)
  | .unary op operand => .unary op (operand.mapLines f)
  | .call callee args => .call (callee.mapLines f) (Expr.mapLinesAll f args)
  | .methodCall object method args => .methodCall (object.mapLines f) method (Expr.mapLinesAll f args)
  | .member object property => .member (object.mapLines f) property
  | .index object key => .index (object.mapLines f) (key.mapLines f)
  | .table fields => .table (TableField.mapLinesAll f fields)
  | .function params body => .function params (Stmt.mapLinesAll f body)
  | e => e

def Expr.mapLinesAll (f : Nat → Nat) : List Expr → List Expr
  | [] => []
  | e :: es => e.mapLines f :: Expr.mapLinesAll f es

def Expr.mapLinesOption (f : Nat → Nat) : Option Expr → Option Expr
  | none => none
  | some e => some (e.mapLines f)

def TableField.mapLines (f : Nat → Nat) : TableField → TableField
  | .named name value => .named name (value.mapLines f)
  | .keyed key value => .keyed (key.mapLines f) (value.mapLines f)
  | .positional value => .positional (value.mapLines f)

def TableField.mapLinesAll (f : Nat → Nat) : List TableField → List TableField
  | [] => []
  | field :: fields => field.mapLines f :: TableField.mapLinesAll f fields

def Action.mapLines (f : Nat → Nat) : Action → Action
  | .declare name value => .declare name (Expr.mapLinesOption f value)
  | .assign target op value => .assign (target.mapLines f) op (value.mapLines f)
  | .define name params body isLocal isMethod => .define name params (Stmt.mapLinesAll f body) isLocal isMethod
  | .conditional condition consequent alternate =>
    .conditional (condition.mapLines f) (Stmt.mapLinesAll f consequent) (Stmt.mapLinesOption f alternate)
  | .whileLoop condition body => .whileLoop (condition.mapLines f) (Stmt.mapLinesAll f body)
  | .forLoop counter first last step body =>
    .forLoop counter (first.mapLines f) (last.mapLines f) (Expr.mapLinesOption f step) (Stmt.mapLinesAll f body)
  | .forEach names iterable body => .forEach names (iterable.mapLines f) (Stmt.mapLinesAll f body)
  | .giveBack values => .giveBack (Expr.mapLinesAll f values)
  | .leaveLoop => .leaveLoop
  | .evaluate e => .evaluate (e.mapLines f)

def Stmt.mapLines (f : Nat → Nat) : Stmt → Stmt
  | .mk line action => .mk (f line) (action.mapLines f)

def Stmt.mapLinesAll (f : Nat → Nat) : List Stmt → List Stmt
  | [] => []
  | s :: ss => s.mapLines f :: Stmt.mapLinesAll f ss

def Stmt.mapLinesOption (f : Nat → Nat) : Option (List Stmt) → Option (List Stmt)
  | none => none
  | some body => some (Stmt.mapLinesAll f body)

end

/-- The program with all its lines changed. -/
def Program.mapLines (f : Nat → Nat) (p : Program) : Program := Stmt.mapLinesAll f p

section Equations

-- The equations of the mutual functions are derived here, once for all lemmas below.
attribute [local simp] Expr.mapLines Expr.mapLinesAll Expr.mapLinesOption TableField.mapLines TableField.mapLinesAll
  Action.mapLines Stmt.mapLines Stmt.mapLinesAll Stmt.mapLinesOption

end Equations

section Lists

variable (f : Nat → Nat)

theorem Expr.mapLinesAll_eq (es : List Expr) : Expr.mapLinesAll f es = es.map (Expr.mapLines f) := by
  induction es with
  | nil => rfl
  | cons e es ih => simp [Expr.mapLinesAll, ih]

theorem Expr.mapLinesOption_eq (o : Option Expr) : Expr.mapLinesOption f o = o.map (Expr.mapLines f) := by
  cases o <;> rfl

theorem TableField.mapLinesAll_eq (fs : List TableField) :
    TableField.mapLinesAll f fs = fs.map (TableField.mapLines f) := by
  induction fs with
  | nil => rfl
  | cons e es ih => simp [TableField.mapLinesAll, ih]

theorem Stmt.mapLinesAll_eq (ss : List Stmt) : Stmt.mapLinesAll f ss = ss.map (Stmt.mapLines f) := by
  induction ss with
  | nil => rfl
  | cons e es ih => simp [Stmt.mapLinesAll, ih]

theorem Stmt.mapLinesOption_eq (o : Option (List Stmt)) :
    Stmt.mapLinesOption f o = o.map (List.map (Stmt.mapLines f)) := by
  cases o <;> simp [Stmt.mapLinesOption, Stmt.mapLinesAll_eq]

end Lists

/-- The token on another line and in another column. -/
def Token.moved (f g : Nat → Nat) (t : Token) : Token := { t with line := f t.line, column := g t.column }

def ParseError.moved (f g : Nat → Nat) : ParseError → ParseError
  | unexpected found line column => .unexpected found (f line) (g column)
  | expected wanted found line column => .expected wanted found (f line) (g column)
  | tooDeep limit line => .tooDeep limit (f line)
  | recoveryLimit steps first => .recoveryLimit steps (first.moved f g)

def Cursor.moved (f g : Nat → Nat) (s : Cursor) : Cursor :=
  ⟨s.pending.map (Token.moved f g), s.stop.moved f g, s.depth⟩

def Outcome.moved {α : Type} (f g : Nat → Nat) (v : α → α) : Outcome α → Outcome α
  | ok a t => .ok (v a) (t.moved f g)
  | error e t => .error (e.moved f g) (t.moved f g)

section Tokens

variable (f g : Nat → Nat)

@[simp] theorem Token.moved_kind (t : Token) : (t.moved f g).kind = t.kind := rfl

@[simp] theorem Token.moved_text (t : Token) : (t.moved f g).text = t.text := rfl

@[simp] theorem Token.moved_quote (t : Token) : (t.moved f g).quote = t.quote := rfl

@[simp] theorem Token.moved_line (t : Token) : (t.moved f g).line = f t.line := rfl

@[simp] theorem Token.moved_column (t : Token) : (t.moved f g).column = g t.column := rfl

@[simp] theorem Token.is_moved (t : Token) (s : String) : (t.moved f g).is s = t.is s := rfl

@[simp] theorem Token.isEof_moved (t : Token) : (t.moved f g).isEof = t.isEof := rfl

@[simp] theorem Token.describe_moved (t : Token) : (t.moved f g).describe = t.describe := rfl

theorem Token.headD_map_moved (ts : List Token) (t : Token) :
    (ts.map (Token.moved f g)).headD (t.moved f g) = (ts.headD t).moved f g := by
  cases ts <;> rfl

@[simp] theorem Cursor.peek_moved (s : Cursor) : (s.moved f g).peek = s.peek.moved f g :=
  Token.headD_map_moved f g s.pending s.stop

@[simp] theorem Cursor.peekNext_moved (s : Cursor) : (s.moved f g).peekNext = s.peekNext.moved f g := by
  unfold Cursor.peekNext Cursor.moved
  rw [← List.map_tail, Token.headD_map_moved]

@[simp] theorem Cursor.depth_moved (s : Cursor) : (s.moved f g).depth = s.depth := rfl

@[simp] theorem Cursor.advance_moved (s : Cursor) : (s.moved f g).advance = s.advance.moved f g := by
  obtain ⟨pending, stop, depth⟩ := s
  cases pending with
  | nil => rfl
  | cons t ts =>
    simp only [Cursor.moved, Cursor.advance, List.map_cons, Token.isEof_moved]
    split <;> rfl

end Tokens

namespace Parser

/-- On moved tokens `q` does what `p` does, and moves its value along. -/
def Moves {α : Type} (f g : Nat → Nat) (v : α → α) (p q : Parser α) : Prop :=
  ∀ s, q (s.moved f g) = (p s).moved f g v

namespace Moves

variable {α β σ : Type} {f g : Nat → Nat} {v : α → α} {w : β → β} {p q : Parser α}

theorem bind {k l : α → Parser β} (hp : Moves f g v p q) (hk : ∀ a, Moves f g w (k a) (l (v a))) :
    Moves f g w (p >>= k) (q >>= l) := by
  intro s
  change (match q (s.moved f g) with
    | .ok a t => l a t
    | .error e t => .error e t) = Outcome.moved f g w (match p s with
    | .ok a t => k a t
    | .error e t => .error e t)
  rw [hp s]
  cases p s with
  | ok a t => exact hk a t
  | error e t => rfl

theorem pure {a b : α} (h : b = v a) : Moves f g v (Pure.pure a) (Pure.pure b) := by
  intro s
  rw [h]
  rfl

theorem map {k : α → β} (hp : Moves f g v p q) {l : α → β} (h : ∀ a, l (v a) = w (k a)) :
    Moves f g w (p >>= fun a => Pure.pure (k a)) (q >>= fun a => Pure.pure (l a)) :=
  bind hp fun a => pure (h a)

theorem ite {c : Prop} [Decidable c] {p' q' : Parser α} (hp : Moves f g v p q) (hp' : Moves f g v p' q') :
    Moves f g v (if c then p else p') (if c then q else q') := by
  split
  · exact hp
  · exact hp'

theorem look {h : Cursor → α} (hh : ∀ s, h (s.moved f g) = v (h s)) : Moves f g v (Parser.look h) (Parser.look h) := by
  intro s
  change Outcome.ok _ _ = Outcome.ok _ _
  rw [hh]

theorem refuse : Moves f g v Parser.refuse Parser.refuse := by
  intro s
  simp [Parser.refuse, Outcome.moved, ParseError.unexpectedToken, ParseError.moved]

theorem next : Moves f g (Token.moved f g) Parser.next Parser.next := by
  intro s
  simp [Parser.next, Outcome.moved]

theorem eat (text : String) : Moves f g id (Parser.eat text) (Parser.eat text) := by
  intro s
  cases h : s.peek.is text <;> simp [Parser.eat, Cursor.check, Outcome.moved, h]

theorem expect (text : String) : Moves f g id (Parser.expect text) (Parser.expect text) := by
  intro s
  cases h : s.peek.is text <;>
    simp [Parser.expect, Cursor.check, Outcome.moved, ParseError.expectedAt, ParseError.moved, h]

theorem identifier : Moves f g id Parser.identifier Parser.identifier := by
  intro s
  by_cases h : s.peek.kind = .identifier <;>
    simp [Parser.identifier, Outcome.moved, ParseError.expectedAt, ParseError.moved, h]

theorem enter : Moves f g id Parser.enter Parser.enter := by
  intro s
  simp only [Parser.enter, Cursor.peek_moved, Cursor.depth_moved, Token.moved_line]
  split <;> rfl

theorem tooDeep : Moves f g v Parser.tooDeep Parser.tooDeep := by
  intro s
  simp only [Parser.tooDeep, Cursor.peek_moved, Token.moved_line]
  rfl

theorem leave : Moves f g id Parser.leave Parser.leave := fun _ => rfl

theorem within (hp : Moves f g v p q) : Moves f g v (Parser.within p) (Parser.within q) := by
  intro s
  unfold Parser.within
  rw [enter s]
  cases Parser.enter s with
  | error e t => rfl
  | ok a t =>
    simp only [Outcome.moved]
    rw [hp t]
    cases p t <;> rfl

theorem chained (hp : Moves f g v p q) : Moves f g v (Parser.chained p) (Parser.chained q) := by
  intro s
  unfold Parser.chained
  rw [hp s]
  cases p s <;> rfl

theorem iterate {step : α → Parser (Option α)} (hs : ∀ a, Moves f g (Option.map v) (step a) (step (v a))) (a : α) :
    Moves f g v (Parser.iterate a step) (Parser.iterate (v a) step) := by
  have hwithin (budget : List Token) : ∀ a, Moves f g v (iterateWithin step budget a)
      (iterateWithin step (budget.map (Token.moved f g)) (v a)) := by
    induction budget with
    | nil => exact fun a => pure rfl
    | cons _ budget ih =>
      intro a
      refine bind (hs a) fun o => ?_
      cases o with
      | none => exact pure rfl
      | some b => exact ih b
  intro s
  exact hwithin s.budget a s

theorem unfold {step : σ → Parser (Option (α × σ))}
    (hs : ∀ x, Moves f g (Option.map fun ay => (v ay.1, ay.2)) (step x) (step x)) (x : σ) :
    Moves f g (List.map v) (Parser.unfold x step) (Parser.unfold x step) := by
  have hwithin (budget : List Token) : ∀ x, Moves f g (List.map v) (unfoldWithin step budget x)
      (unfoldWithin step (budget.map (Token.moved f g)) x) := by
    induction budget with
    | nil => exact fun x => pure rfl
    | cons _ budget ih =>
      intro x
      refine bind (hs x) fun o => ?_
      cases o with
      | none => exact pure rfl
      | some ay => exact map (ih ay.2) fun _ => rfl
  intro s
  exact hwithin s.budget x s

end Moves

/-- What is assumed of the parsers of the level inside. -/
structure MovesInside (f g : Nat → Nat) (inner : Nested) : Prop where
  expression : Moves f g (Expr.mapLines f) inner.expression inner.expression
  concat : Moves f g (Expr.mapLines f) inner.concat inner.concat
  operand : Moves f g (Expr.mapLines f) inner.operand inner.operand
  block : ∀ stops, Moves f g (List.map (Stmt.mapLines f)) (inner.block stops) (inner.block stops)

section Expressions

variable {f g : Nat → Nat} {inner : Nested}

theorem moves_check (text : String) : Moves f g id (check text) (check text) :=
  .look fun s => by simp [Cursor.check]

theorem moves_leftChain (ops : List BinaryOp) {item : Parser Expr} (hi : Moves f g (Expr.mapLines f) item item) :
    Moves f g (Expr.mapLines f) (leftChain ops item) (leftChain ops item) := by
  refine .chained (.bind hi fun a => .iterate (fun left => ?_) a)
  refine .bind (v := id) (.look fun s => by simp [Cursor.check]) fun o => ?_
  cases o with
  | none => exact .pure rfl
  | some op => exact .bind .enter fun _ => .bind .next fun _ => .map hi fun b => by simp [Expr.mapLines]

theorem moves_separated (hi : MovesInside f g inner) : Moves f g (List.map (Expr.mapLines f))
    (separated inner.expression (eat ",")) (separated inner.expression (eat ",")) := by
  refine .unfold (fun due => ?_) true
  cases due with
  | false => exact .pure rfl
  | true => exact .bind hi.expression fun e => .map (.eat ",") fun b => rfl

theorem moves_arguments (hi : MovesInside f g inner) :
    Moves f g (List.map (Expr.mapLines f)) (arguments inner) (arguments inner) := by
  refine .bind (.expect "(") fun _ => .bind (moves_check ")") fun b => ?_
  cases b with
  | true => exact .bind (.pure rfl) fun _ => .bind (.expect ")") fun _ => .pure rfl
  | false => exact .bind (moves_separated hi) fun _ => .bind (.expect ")") fun _ => .pure rfl

theorem moves_parameter : Moves f g id parameter parameter := by
  refine .bind (.eat "...") fun b => ?_
  cases b with
  | true => exact .pure rfl
  | false => exact .bind .identifier fun name => .map (.eat ",") fun b => rfl

theorem moves_parameters : Moves f g id parameters parameters := by
  have hnames : Moves f g (List.map id) (unfold true parameterStep) (unfold true parameterStep) := by
    refine .unfold (fun due => ?_) true
    cases due with
    | false => exact .pure rfl
    | true => exact .map moves_parameter fun a => rfl
  rw [List.map_id_fun] at hnames
  refine .bind (.expect "(") fun _ => .bind (moves_check ")") fun b => ?_
  cases b with
  | true => exact .bind (v := id) (.pure rfl) fun _ => .bind (.expect ")") fun _ => .pure rfl
  | false => exact .bind hnames fun _ => .bind (.expect ")") fun _ => .pure rfl

theorem moves_body (hi : MovesInside f g inner) :
    Moves f g (List.map (Stmt.mapLines f)) (body inner) (body inner) :=
  .bind (hi.block ["end"]) fun _ => .map (.eat "end") fun _ => rfl

theorem moves_tableField (hi : MovesInside f g inner) :
    Moves f g (TableField.mapLines f) (tableField inner) (tableField inner) := by
  refine .bind (.eat "[") fun b => ?_
  cases b with
  | true =>
    exact .bind hi.expression fun key => .bind (.expect "]") fun _ => .bind (.expect "=") fun _ =>
      .map hi.expression fun value => by simp [TableField.mapLines]
  | false =>
    refine .bind (v := id) (.look fun s => by simp) fun b => ?_
    cases b with
    | true =>
      exact .bind .next fun t => .bind .next fun _ => .map hi.expression fun value => by simp [TableField.mapLines]
    | false => exact .map hi.expression fun value => by simp [TableField.mapLines]

theorem moves_fieldStep (hi : MovesInside f g inner) (due : Bool) :
    Moves f g (Option.map (Prod.map (TableField.mapLines f) id)) (fieldStep inner due) (fieldStep inner due) := by
  have hrest : Moves f g (Option.map (Prod.map (TableField.mapLines f) id))
      (do let field ← tableField inner
          if ← eat "," then return some (field, true)
          return some (field, ← eat ";"))
      (do let field ← tableField inner
          if ← eat "," then return some (field, true)
          return some (field, ← eat ";")) := by
    refine .bind (moves_tableField hi) fun field => .bind (.eat ",") fun b => ?_
    cases b with
    | true => exact .pure rfl
    | false => exact .map (.eat ";") fun b => rfl
  cases due with
  | false => exact .pure rfl
  | true =>
    refine .bind (v := id) (.look fun s => by simp [Cursor.check, Cursor.atEof]) fun b => ?_
    cases b with
    | true => exact .pure rfl
    | false => exact hrest

theorem moves_tableFields (hi : MovesInside f g inner) :
    Moves f g (List.map (TableField.mapLines f)) (tableFields inner) (tableFields inner) :=
  .unfold (moves_fieldStep hi) true

theorem moves_primary (hi : MovesInside f g inner) : Moves f g (Expr.mapLines f) (primary inner) (primary inner) := by
  refine .bind (v := Token.moved f g) (.look (Cursor.peek_moved f g)) fun t => ?_
  simp only [Token.moved_kind, Token.moved_text, Token.moved_quote]
  split
  · exact .map .next fun _ => rfl
  · exact .map .next fun _ => rfl
  · exact .map .next fun _ => rfl
  · split
    · exact .map .next fun _ => rfl
    · exact .map .next fun _ => rfl
    · exact .map .next fun _ => rfl
    · exact .bind .next fun _ => .bind moves_parameters fun names =>
        .map (moves_body hi) fun ss => by simp [Expr.mapLines, Stmt.mapLinesAll_eq]
    · exact .refuse
  · exact .ite (.map .next fun _ => rfl) .refuse
  · split
    · exact .bind .next fun _ => .bind hi.expression fun e => .bind (.expect ")") fun _ => .pure rfl
    · exact .bind .next fun _ => .bind (moves_tableFields hi) fun fs => .bind (.expect "\x7d") fun _ =>
        .pure (by simp [Expr.mapLines, TableField.mapLinesAll_eq])
    · exact .refuse
  · exact .refuse
  · exact .refuse

theorem moves_trailer (hi : MovesInside f g inner) (e : Expr) :
    Moves f g (Option.map (Expr.mapLines f)) (trailer inner e) (trailer inner (e.mapLines f)) := by
  refine .bind (v := id) (.look fun s => by simp [Cursor.checkAny, Cursor.check]) fun b => ?_
  cases b with
  | false => exact .pure rfl
  | true =>
    refine .bind .enter fun _ => .bind (moves_check "(") fun b => ?_
    cases b with
    | true => exact .map (moves_arguments hi) fun es => by simp [Expr.mapLines, Expr.mapLinesAll_eq]
    | false =>
      refine .bind (.eat ":") fun b => ?_
      cases b with
      | true =>
        exact .bind .identifier fun m => .map (moves_arguments hi) fun es => by
          simp [Expr.mapLines, Expr.mapLinesAll_eq]
      | false =>
        refine .bind (.eat ".") fun b => ?_
        cases b with
        | true => exact .map .identifier fun m => by simp [Expr.mapLines]
        | false =>
          exact .bind (.expect "[") fun _ => .bind hi.expression fun key => .bind (.expect "]") fun _ =>
            .pure (by simp [Expr.mapLines])

theorem moves_access (hi : MovesInside f g inner) : Moves f g (Expr.mapLines f) (access inner) (access inner) :=
  .chained (.bind (moves_primary hi) fun e => .iterate (moves_trailer hi) e)

theorem moves_power (hi : MovesInside f g inner) : Moves f g (Expr.mapLines f) (power inner) (power inner) := by
  refine .bind (moves_access hi) fun base => .bind (.eat "^") fun b => ?_
  cases b with
  | true => exact .map hi.operand fun e => by simp [Expr.mapLines]
  | false => exact .pure rfl

theorem moves_unary (hi : MovesInside f g inner) : Moves f g (Expr.mapLines f) (unary inner) (unary inner) := by
  refine .bind (v := id) (.look fun s => by simp) fun o => ?_
  cases o with
  | some op => exact .bind .next fun _ => .map hi.operand fun e => by simp [Expr.mapLines]
  | none => exact moves_power hi

theorem moves_concatenation (hi : MovesInside f g inner) :
    Moves f g (Expr.mapLines f) (concatenation inner) (concatenation inner) := by
  refine .bind (moves_leftChain _ (moves_leftChain _ (moves_unary hi))) fun left => .bind (.eat "..") fun b => ?_
  cases b with
  | true => exact .map hi.concat fun e => by simp [Expr.mapLines]
  | false => exact .pure rfl

theorem moves_disjunction (hi : MovesInside f g inner) :
    Moves f g (Expr.mapLines f) (disjunction inner) (disjunction inner) :=
  moves_leftChain _ (moves_leftChain _ (moves_leftChain _ (moves_concatenation hi)))

end Expressions

section Statements

variable {f g : Nat → Nat} {inner : Nested}

theorem moves_pathStep (a : String × Bool) : Moves f g (Option.map id) (pathStep a) (pathStep a) := by
  obtain ⟨name, isMethod⟩ := a
  cases isMethod with
  | true => exact .pure rfl
  | false =>
    refine .bind (.eat ".") fun b => ?_
    cases b with
    | true => exact .map .identifier fun m => rfl
    | false =>
      refine .bind (.eat ":") fun b => ?_
      cases b with
      | true => exact .map .identifier fun m => rfl
      | false => exact .pure rfl

theorem moves_functionName : Moves f g id functionName functionName :=
  .bind .identifier fun first => .iterate moves_pathStep (first, false)

theorem moves_definition (hi : MovesInside f g inner) (isLocal : Bool) :
    Moves f g (Action.mapLines f) (definition inner isLocal) (definition inner isLocal) := by
  have hrest (a : String × Bool) : Moves f g (Action.mapLines f)
      (do let names ← parameters; return .define a.1 names (← body inner) isLocal a.2)
      (do let names ← parameters; return .define a.1 names (← body inner) isLocal a.2) :=
    .bind moves_parameters fun names => .map (moves_body hi) fun ss => by simp [Action.mapLines, Stmt.mapLinesAll_eq]
  cases isLocal with
  | true => exact .bind (v := id) (.map .identifier fun _ => rfl) hrest
  | false => exact .bind moves_functionName hrest

theorem moves_localDeclaration (hi : MovesInside f g inner) :
    Moves f g (Action.mapLines f) (localDeclaration inner) (localDeclaration inner) := by
  refine .bind (.eat "function") fun b => ?_
  cases b with
  | true => exact moves_definition hi true
  | false =>
    refine .bind .identifier fun name => .bind (.eat "=") fun b => ?_
    cases b with
    | true => exact .map hi.expression fun e => by simp [Action.mapLines, Expr.mapLinesOption]
    | false => exact .pure rfl

theorem moves_conditionalWithin (hi : MovesInside f g inner) (budget : List Token) :
    Moves f g (Stmt.mapLines f) (conditionalWithin inner budget)
      (conditionalWithin inner (budget.map (Token.moved f g))) := by
  induction budget with
  | nil => exact .refuse
  | cons _ budget ih =>
    refine .bind .next fun t => .bind hi.expression fun c => .bind (.eat "then") fun _ =>
      .bind (hi.block _) fun ss => .bind (moves_check "elseif") fun b => ?_
    cases b with
    | true =>
      exact .map ih fun s => by
        simp [Stmt.mapLines, Action.mapLines, Stmt.mapLinesAll_eq, Stmt.mapLinesOption_eq]
    | false =>
      refine .bind (.eat "else") fun b => ?_
      cases b with
      | true =>
        exact .map (moves_body hi) fun rs => by
          simp [Stmt.mapLines, Action.mapLines, Stmt.mapLinesAll_eq, Stmt.mapLinesOption_eq]
      | false =>
        exact .map (.eat "end") fun _ => by
          simp [Stmt.mapLines, Action.mapLines, Stmt.mapLinesAll_eq, Stmt.mapLinesOption_eq]

theorem moves_conditional (hi : MovesInside f g inner) :
    Moves f g (Stmt.mapLines f) (conditional inner) (conditional inner) :=
  fun s => moves_conditionalWithin hi s.budget s

theorem moves_whileLoop (hi : MovesInside f g inner) :
    Moves f g (Action.mapLines f) (whileLoop inner) (whileLoop inner) :=
  .bind hi.expression fun c => .bind (.eat "do") fun _ => .map (moves_body hi) fun ss => by
    simp [Action.mapLines, Stmt.mapLinesAll_eq]

theorem moves_nameStep : Moves f g (Option.map id) nameStep nameStep := by
  refine .bind (.eat ",") fun b => ?_
  cases b with
  | true => exact .map .identifier fun m => rfl
  | false => exact .pure rfl

theorem moves_many {α : Type} {v : α → α} {item : Parser (Option α)} (hi : Moves f g (Option.map v) item item) :
    Moves f g (List.map v) (many item) (many item) :=
  .unfold (fun _ => .map hi fun o => by cases o <;> rfl) ()

theorem moves_forLoop (hi : MovesInside f g inner) :
    Moves f g (Action.mapLines f) (forLoop inner) (forLoop inner) := by
  refine .bind .identifier fun name => .bind (.eat "=") fun b => ?_
  cases b with
  | true =>
    refine .bind hi.expression fun first => .bind (.expect ",") fun _ => .bind hi.expression fun last =>
      .bind (.eat ",") fun b => ?_
    have hrest (o : Option Expr) : Moves f g (Action.mapLines f)
        (do let _ ← eat "do"; return .forLoop name first last o (← body inner))
        (do let _ ← eat "do"
            return .forLoop name (first.mapLines f) (last.mapLines f) (o.map (Expr.mapLines f)) (← body inner)) :=
      .bind (.eat "do") fun _ => .map (moves_body hi) fun ss => by
        simp [Action.mapLines, Stmt.mapLinesAll_eq, Expr.mapLinesOption_eq]
    cases b with
    | true => exact .bind (v := Option.map (Expr.mapLines f)) (.map hi.expression fun _ => rfl) hrest
    | false => exact .bind (v := Option.map (Expr.mapLines f)) (.pure rfl) hrest
  | false =>
    refine .bind (moves_many moves_nameStep) fun names => .bind (.expect "in") fun _ =>
      .bind hi.expression fun e => .bind (.eat "do") fun _ => .map (moves_body hi) fun ss => ?_
    simp [Action.mapLines, Stmt.mapLinesAll_eq]

theorem moves_returnValues (hi : MovesInside f g inner) :
    Moves f g (List.map (Expr.mapLines f)) (returnValues inner) (returnValues inner) := by
  refine .bind (v := id) (.look fun s => by simp [Cursor.atEof, Cursor.checkAny, Cursor.check]) fun bare => ?_
  cases bare with
  | true => exact .bind (v := List.map (Expr.mapLines f)) (.pure rfl) fun es => .map (.eat ";") fun _ => rfl
  | false => exact .bind (moves_separated hi) fun es => .map (.eat ";") fun _ => rfl

theorem isAssignable_mapLines (f : Nat → Nat) (e : Expr) : (e.mapLines f).isAssignable = e.isAssignable := by
  cases e <;> rfl

theorem moves_expressionStatement (hi : MovesInside f g inner) :
    Moves f g (Action.mapLines f) (expressionStatement inner) (expressionStatement inner) := by
  refine .bind hi.expression fun e => .bind (v := id) (.look fun s => by simp [Cursor.check]) fun o => ?_
  cases o with
  | none => exact .pure rfl
  | some op =>
    simp only [id_eq, isAssignable_mapLines]
    cases e.isAssignable with
    | false => exact .bind (v := id) .refuse fun _ => .bind .next fun _ => .map hi.expression fun _ => rfl
    | true => exact .bind .next fun _ => .map hi.expression fun value => rfl

theorem moves_statement (hi : MovesInside f g inner) :
    Moves f g (Option.map (Stmt.mapLines f)) (statement inner) (statement inner) := by
  refine .bind (v := Token.moved f g) (.look (Cursor.peek_moved f g)) fun t =>
    .bind (v := id) (.look fun s => by simp) fun o => ?_
  simp only [Token.moved_line, id_eq]
  split
  · exact .bind .next fun _ => .map (moves_localDeclaration hi) fun _ => rfl
  · exact .bind .next fun _ => .map (moves_definition hi false) fun _ => rfl
  · exact .map (moves_conditional hi) fun _ => rfl
  · exact .bind .next fun _ => .map (moves_whileLoop hi) fun _ => rfl
  · exact .bind .next fun _ => .map (moves_forLoop hi) fun _ => rfl
  · exact .bind .next fun _ => .map (moves_returnValues hi) fun es => by
      simp [Stmt.mapLines, Action.mapLines, Expr.mapLinesAll_eq]
  · exact .map .next fun _ => rfl
  · refine .bind (.eat ";") fun b => ?_
    cases b with
    | true => exact .pure rfl
    | false => exact .map (moves_expressionStatement hi) fun _ => rfl

theorem moves_statements (hi : MovesInside f g inner) (stops : List String) :
    Moves f g (List.map (Stmt.mapLines f)) (statements inner stops) (statements inner stops) := by
  have hstep :
      Moves f g (Option.map (Option.map (Stmt.mapLines f))) (blockStep inner stops) (blockStep inner stops) := by
    refine .bind (v := id) (.look fun s => ?_) fun b => ?_
    · have hcheck : (s.moved f g).check = s.check := by
        funext text
        simp [Cursor.check]
      simp [Cursor.atEof, Cursor.checkAny, hcheck]
    cases b with
    | true => exact .pure rfl
    | false => exact .map (moves_statement hi) fun _ => rfl
  exact .map (moves_many hstep) fun os => by simp [List.filterMap_map, List.map_filterMap]

theorem moves_block (hi : MovesInside f g inner) (stops : List String) :
    Moves f g (List.map (Stmt.mapLines f)) (block inner stops) (block inner stops) :=
  .bind .enter fun _ => .bind (moves_statements hi stops) fun _ => .map .leave fun _ => rfl

end Statements

theorem movesInside_ofRoom (f g : Nat → Nat) (n : Nat) : MovesInside f g (Nested.ofRoom n) := by
  induction n with
  | zero => exact ⟨.tooDeep, .tooDeep, .tooDeep, fun _ => .tooDeep⟩
  | succ n ih =>
    exact ⟨.within (moves_disjunction ih), .within (moves_concatenation ih), .within (moves_unary ih), moves_block ih⟩

end Parser

/-- Moving the tokens of a program moves the program, or the error, and does nothing else. -/
theorem Program.parse_moved (f g : Nat → Nat) {ts : List Token} {stop : Token} (hstop : stop.isEof = true) :
    Program.parse ((ts ++ [stop]).map (Token.moved f g)) =
      ((Program.parse (ts ++ [stop])).mapError (ParseError.moved f g)).map (Program.mapLines f) := by
  have hcursor : Cursor.ofTokens ((ts ++ [stop]).map (Token.moved f g)) =
      (Cursor.ofTokens (ts ++ [stop])).moved f g := by
    simp [Cursor.ofTokens, Cursor.moved, hstop]
  have hmoves := Parser.moves_statements (Parser.movesInside_ofRoom f g maxDepth) []
    (Cursor.ofTokens (ts ++ [stop]))
  change Parser.statements Nested.top [] _ = (Parser.statements Nested.top [] _).moved f g _ at hmoves
  unfold Program.parse
  rw [hcursor, hmoves]
  cases Parser.statements Nested.top [] (Cursor.ofTokens (ts ++ [stop])) with
  | ok ss t =>
    change Except.ok (ss.map (Stmt.mapLines f)) = Except.ok (Program.mapLines f ss)
    rw [Program.mapLines, Stmt.mapLinesAll_eq]
  | error e t => rfl

end ScriptGraph
