import ScriptGraph.Proofs.ParserComplete
import ScriptGraph.Proofs.ParserSound

namespace ScriptGraph

def Cursor.atDepth (s : Cursor) (depth : Nat) : Cursor := { s with depth }

/-- What may become of a cursor: where a parser stops behind a value, where it stands while levels are open that it
has not closed yet, and with which error it stops where. A contract allows for every step that parsers are made of. -/
structure Contract where
  done : Cursor → Cursor → Prop
  raised : Cursor → Cursor → Prop
  failed : Cursor → ParseError → Cursor → Prop
  refl (s : Cursor) : done s s
  trans {s t u : Cursor} : done s t → done t u → done s u
  raise {s t : Cursor} : done s t → raised s t
  raisedTrans {s t u : Cursor} : raised s t → raised t u → raised s u
  fail {s t u : Cursor} {e : ParseError} : raised s t → failed t e u → failed s e u
  advance (s : Cursor) : done s s.advance
  unexpected (s : Cursor) : failed s (.unexpectedToken s.peek) s
  expected (text : String) (s : Cursor) : failed s (.expectedAt text s.peek) s
  deepen {s : Cursor} : s.depth < maxDepth → raised s (s.atDepth (s.depth + 1))
  tooDeep (s : Cursor) : failed s (.tooDeep maxDepth s.peek.line) (s.atDepth (s.depth + 1))
  rise {s t : Cursor} : s.depth < maxDepth → done (s.atDepth (s.depth + 1)) t → done s (t.atDepth (t.depth - 1))
  failRise {s t : Cursor} {e : ParseError} : s.depth < maxDepth → failed (s.atDepth (s.depth + 1)) e t →
    failed s e (t.atDepth (t.depth - 1))
  restore {s t : Cursor} : raised s t → done s (t.atDepth s.depth)
  failRestore {s t : Cursor} {e : ParseError} : failed s e t → failed s e (t.atDepth s.depth)

namespace Outcome

variable {α : Type} {C : Contract}

/-- The outcome is one that the contract has for parsers that start at `s`. -/
def Meets (C : Contract) (s : Cursor) : Outcome α → Prop
  | .ok _ t => C.done s t
  | .error e t => C.failed s e t

theorem Meets.behind {o : Outcome α} {s t : Cursor} (ho : o.Meets C t) (h : C.done s t) : o.Meets C s := by
  cases o with
  | ok a u => exact C.trans h ho
  | error e u => exact C.fail (C.raise h) ho

/-- The same for parsers that leave levels open. -/
def Raises (C : Contract) (s : Cursor) : Outcome α → Prop
  | .ok _ t => C.raised s t
  | .error e t => C.failed s e t

theorem Raises.behind {o : Outcome α} {s t : Cursor} (ho : o.Raises C t) (h : C.raised s t) : o.Raises C s := by
  cases o with
  | ok a u => exact C.raisedTrans h ho
  | error e u => exact C.fail h ho

theorem Meets.raises {o : Outcome α} {s : Cursor} (ho : o.Meets C s) : o.Raises C s := by
  cases o with
  | ok a u => exact C.raise ho
  | error e u => exact ho

end Outcome

namespace Parser

variable {α β σ : Type} {C : Contract}

/-- Wherever the parser starts, it stops as the contract has it. -/
def Meets (C : Contract) (p : Parser α) : Prop := ∀ s, (p s).Meets C s

/-- Wherever the parser starts, it stops as the contract has it, perhaps with more levels open. -/
def Raises (C : Contract) (p : Parser α) : Prop := ∀ s, (p s).Raises C s

theorem enter_eq (s : Cursor) : enter s =
    if s.depth < maxDepth then .ok () (s.atDepth (s.depth + 1))
    else .error (.tooDeep maxDepth s.peek.line) (s.atDepth (s.depth + 1)) := by
  by_cases hs : s.depth < maxDepth
  · rw [if_pos hs]
    exact if_neg (Nat.not_lt.mpr hs)
  · rw [if_neg hs]
    exact if_pos (Nat.lt_succ_of_le (Nat.le_of_not_lt hs))

namespace Raises

variable {p : Parser α}

theorem bind {k : α → Parser β} (hp : Raises C p) (hk : ∀ a, Raises C (k a)) : Raises C (p >>= k) := by
  intro s
  have hs := hp s
  cases h : p s with
  | ok a t =>
    rw [h] at hs
    rw [bind_of_ok h]
    exact (hk a t).behind hs
  | error e t =>
    rw [h] at hs
    rw [bind_of_error h]
    exact hs

theorem enter : Raises C Parser.enter := by
  intro s
  rw [enter_eq]
  split
  · exact C.deepen ‹_›
  · exact C.tooDeep s

theorem iterate {step : α → Parser (Option α)} (hs : ∀ a, Raises C (step a)) (a : α) :
    Raises C (Parser.iterate a step) := by
  have hpure (a : α) : Raises C (Pure.pure a : Parser α) := fun s => C.raise (C.refl s)
  have hwithin (budget : List Token) : ∀ a, Raises C (iterateWithin step budget a) := by
    induction budget with
    | nil => exact hpure
    | cons _ budget ih =>
      intro a
      refine bind (hs a) fun o => ?_
      cases o with
      | none => exact hpure a
      | some b => exact ih b
  exact fun s => hwithin s.budget a s

end Raises

namespace Meets

variable {p : Parser α}

theorem raises (hp : Meets C p) : Raises C p := fun s => (hp s).raises

theorem bind {k : α → Parser β} (hp : Meets C p) (hk : ∀ a, Meets C (k a)) : Meets C (p >>= k) := by
  intro s
  have hs := hp s
  cases h : p s with
  | ok a t =>
    rw [h] at hs
    rw [bind_of_ok h]
    exact (hk a t).behind hs
  | error e t =>
    rw [h] at hs
    rw [bind_of_error h]
    exact hs

theorem pure (a : α) : Meets C (Pure.pure a : Parser α) := C.refl

theorem map (hp : Meets C p) (f : α → β) : Meets C (p >>= fun a => Pure.pure (f a)) :=
  bind hp fun a => pure (f a)

theorem ite {c : Prop} [Decidable c] {q : Parser α} (hp : Meets C p) (hq : Meets C q) :
    Meets C (if c then p else q) := by
  split
  · exact hp
  · exact hq

theorem look (f : Cursor → α) : Meets C (Parser.look f) := C.refl

theorem refuse : Meets C (Parser.refuse : Parser α) := C.unexpected

theorem tooDeep : Meets C (Parser.tooDeep : Parser α) := C.tooDeep

theorem next : Meets C Parser.next := C.advance

theorem eat (text : String) : Meets C (Parser.eat text) := by
  intro s
  unfold Parser.eat
  split
  · exact C.advance s
  · exact C.refl s

theorem expect (text : String) : Meets C (Parser.expect text) := by
  intro s
  unfold Parser.expect
  split
  · exact C.advance s
  · exact C.expected text s

theorem identifier : Meets C Parser.identifier := by
  intro s
  unfold Parser.identifier
  split
  · exact C.advance s
  · exact C.expected "identifier" s

theorem within (hp : Meets C p) : Meets C (Parser.within p) := by
  intro s
  unfold Parser.within
  rw [enter_eq]
  by_cases hs : s.depth < maxDepth
  · rw [if_pos hs]
    have hin := hp (s.atDepth (s.depth + 1))
    dsimp only
    cases h : p (s.atDepth (s.depth + 1)) with
    | ok a t =>
      rw [h] at hin
      exact C.rise hs hin
    | error e t =>
      rw [h] at hin
      exact C.failRise hs hin
  · rw [if_neg hs]
    exact C.tooDeep s

theorem chained (hp : Raises C p) : Meets C (Parser.chained p) := by
  intro s
  have hs := hp s
  unfold Parser.chained
  cases h : p s with
  | ok a t =>
    rw [h] at hs
    exact C.restore hs
  | error e t =>
    rw [h] at hs
    exact C.failRestore hs

theorem iterate {step : α → Parser (Option α)} (hs : ∀ a, Meets C (step a)) (a : α) :
    Meets C (Parser.iterate a step) := by
  have hwithin (budget : List Token) : ∀ a, Meets C (iterateWithin step budget a) := by
    induction budget with
    | nil => exact pure
    | cons _ budget ih =>
      intro a
      refine bind (hs a) fun o => ?_
      cases o with
      | none => exact pure a
      | some b => exact ih b
  exact fun s => hwithin s.budget a s

theorem unfold {step : σ → Parser (Option (α × σ))} (hs : ∀ x, Meets C (step x)) (x : σ) :
    Meets C (Parser.unfold x step) := by
  have hwithin (budget : List Token) : ∀ x, Meets C (unfoldWithin step budget x) := by
    induction budget with
    | nil => exact fun _ => pure []
    | cons _ budget ih =>
      intro x
      refine bind (hs x) fun o => ?_
      cases o with
      | none => exact pure []
      | some ay => exact map (ih ay.2) _
  exact fun s => hwithin s.budget x s

theorem many {item : Parser (Option α)} (hi : Meets C item) : Meets C (Parser.many item) :=
  unfold (fun _ => map hi _) ()

end Meets

/-- What is assumed of the parsers of the level inside. -/
structure MeetsInside (C : Contract) (inner : Nested) : Prop where
  expression : Meets C inner.expression
  concat : Meets C inner.concat
  operand : Meets C inner.operand
  block : ∀ stops, Meets C (inner.block stops)

section Expressions

variable {inner : Nested}

theorem meets_leftChain (ops : List BinaryOp) {item : Parser Expr} (hi : Meets C item) :
    Meets C (leftChain ops item) := by
  refine .chained (.bind hi.raises fun a => .iterate (fun left => .bind (Meets.look _).raises fun o => ?_) a)
  cases o with
  | none => exact (Meets.pure _).raises
  | some op => exact .bind .enter fun _ => (Meets.bind .next fun _ => .map hi _).raises

theorem meets_separated (hi : MeetsInside C inner) : Meets C (separated inner.expression (eat ",")) := by
  refine .unfold (fun due => ?_) true
  cases due with
  | false => exact .pure _
  | true => exact .bind hi.expression fun e => .map (.eat ",") _

theorem meets_arguments (hi : MeetsInside C inner) : Meets C (arguments inner) := by
  refine .bind (.expect "(") fun _ => .bind (.look _) fun b => ?_
  cases b with
  | true => exact .bind (.pure _) fun _ => .map (.expect ")") _
  | false => exact .bind (meets_separated hi) fun _ => .map (.expect ")") _

theorem meets_parameter : Meets C parameter := by
  refine .bind (.eat "...") fun b => ?_
  cases b with
  | true => exact .pure _
  | false => exact .bind .identifier fun name => .map (.eat ",") _

theorem meets_parameters : Meets C parameters := by
  have hnames : Meets C (unfold true parameterStep) := by
    refine .unfold (fun due => ?_) true
    cases due with
    | false => exact .pure _
    | true => exact .map meets_parameter _
  refine .bind (.expect "(") fun _ => .bind (.look _) fun b => ?_
  cases b with
  | true => exact .bind (.pure _) fun _ => .map (.expect ")") _
  | false => exact .bind hnames fun _ => .map (.expect ")") _

theorem meets_body (hi : MeetsInside C inner) : Meets C (body inner) :=
  .bind (hi.block ["end"]) fun _ => .map (.eat "end") _

theorem meets_tableField (hi : MeetsInside C inner) : Meets C (tableField inner) := by
  refine .bind (.eat "[") fun b => ?_
  cases b with
  | true =>
    exact .bind hi.expression fun key => .bind (.expect "]") fun _ => .bind (.expect "=") fun _ => .map hi.expression _
  | false =>
    refine .bind (.look _) fun b => ?_
    cases b with
    | true => exact .bind .next fun t => .bind .next fun _ => .map hi.expression _
    | false => exact .map hi.expression _

theorem meets_tableFields (hi : MeetsInside C inner) : Meets C (tableFields inner) := by
  refine .unfold (fun due => ?_) true
  have hrest : Meets C (do
      let field ← tableField inner
      if ← eat "," then return some (field, true)
      return some (field, ← eat ";")) := by
    refine .bind (meets_tableField hi) fun field => .bind (.eat ",") fun b => ?_
    cases b with
    | true => exact .pure _
    | false => exact .map (.eat ";") _
  cases due with
  | false => exact .pure _
  | true =>
    refine .bind (.look _) fun b => ?_
    cases b with
    | true => exact .pure _
    | false => exact hrest

theorem meets_primary (hi : MeetsInside C inner) : Meets C (primary inner) := by
  refine .bind (.look _) fun t => ?_
  split
  · exact .map .next _
  · exact .map .next _
  · exact .map .next _
  · split
    · exact .map .next _
    · exact .map .next _
    · exact .map .next _
    · exact .bind .next fun _ => .bind meets_parameters fun names => .map (meets_body hi) _
    · exact .refuse
  · exact .ite (.map .next _) .refuse
  · split
    · exact .bind .next fun _ => .bind hi.expression fun e => .map (.expect ")") _
    · exact .bind .next fun _ => .bind (meets_tableFields hi) fun fs => .map (.expect "\x7d") _
    · exact .refuse
  · exact .refuse
  · exact .refuse

/-- The level of a call or access stays open until the whole chain of them ends. -/
theorem raises_trailer (hi : MeetsInside C inner) (e : Expr) : Raises C (trailer inner e) := by
  refine .bind (Meets.look _).raises fun b => ?_
  cases b with
  | false => exact (Meets.pure _).raises
  | true =>
    refine .bind .enter fun _ => (Meets.bind (.look _) fun b => ?_).raises
    cases b with
    | true => exact .map (meets_arguments hi) _
    | false =>
      refine .bind (.eat ":") fun b => ?_
      cases b with
      | true => exact .bind .identifier fun m => .map (meets_arguments hi) _
      | false =>
        refine .bind (.eat ".") fun b => ?_
        cases b with
        | true => exact .map .identifier _
        | false => exact .bind (.expect "[") fun _ => .bind hi.expression fun key => .map (.expect "]") _

theorem meets_access (hi : MeetsInside C inner) : Meets C (access inner) :=
  .chained (.bind (meets_primary hi).raises fun e => .iterate (raises_trailer hi) e)

theorem meets_power (hi : MeetsInside C inner) : Meets C (power inner) := by
  refine .bind (meets_access hi) fun base => .bind (.eat "^") fun b => ?_
  cases b with
  | true => exact .map hi.operand _
  | false => exact .pure _

theorem meets_unary (hi : MeetsInside C inner) : Meets C (unary inner) := by
  refine .bind (.look _) fun o => ?_
  cases o with
  | some op => exact .bind .next fun _ => .map hi.operand _
  | none => exact meets_power hi

theorem meets_concatenation (hi : MeetsInside C inner) : Meets C (concatenation inner) := by
  refine .bind (meets_leftChain _ (meets_leftChain _ (meets_unary hi))) fun left => .bind (.eat "..") fun b => ?_
  cases b with
  | true => exact .map hi.concat _
  | false => exact .pure _

theorem meets_disjunction (hi : MeetsInside C inner) : Meets C (disjunction inner) :=
  meets_leftChain _ (meets_leftChain _ (meets_leftChain _ (meets_concatenation hi)))

end Expressions

section Statements

variable {inner : Nested}

theorem meets_functionName : Meets C functionName := by
  refine .bind .identifier fun first => .iterate (fun a => ?_) (first, false)
  obtain ⟨name, isMethod⟩ := a
  cases isMethod with
  | true => exact .pure _
  | false =>
    refine .bind (.eat ".") fun b => ?_
    cases b with
    | true => exact .map .identifier _
    | false =>
      refine .bind (.eat ":") fun b => ?_
      cases b with
      | true => exact .map .identifier _
      | false => exact .pure _

theorem meets_definition (hi : MeetsInside C inner) (isLocal : Bool) : Meets C (definition inner isLocal) := by
  have hrest (a : String × Bool) : Meets C (do
      let names ← parameters
      return Action.define a.1 names (← body inner) isLocal a.2) :=
    .bind meets_parameters fun names => .map (meets_body hi) _
  cases isLocal with
  | true => exact .bind (.map .identifier _) hrest
  | false => exact .bind meets_functionName hrest

theorem meets_localDeclaration (hi : MeetsInside C inner) : Meets C (localDeclaration inner) := by
  refine .bind (.eat "function") fun b => ?_
  cases b with
  | true => exact meets_definition hi true
  | false =>
    refine .bind .identifier fun name => .bind (.eat "=") fun b => ?_
    cases b with
    | true => exact .map hi.expression _
    | false => exact .pure _

theorem meets_conditional (hi : MeetsInside C inner) : Meets C (conditional inner) := by
  have hwithin (budget : List Token) : Meets C (conditionalWithin inner budget) := by
    induction budget with
    | nil => exact .refuse
    | cons _ budget ih =>
      refine .bind .next fun t => .bind hi.expression fun c => .bind (.eat "then") fun _ =>
        .bind (hi.block _) fun ss => .bind (.look _) fun b => ?_
      cases b with
      | true => exact .map ih _
      | false =>
        refine .bind (.eat "else") fun b => ?_
        cases b with
        | true => exact .map (meets_body hi) _
        | false => exact .map (.eat "end") _
  exact fun s => hwithin s.budget s

theorem meets_whileLoop (hi : MeetsInside C inner) : Meets C (whileLoop inner) :=
  .bind hi.expression fun _ => .bind (.eat "do") fun _ => .map (meets_body hi) _

theorem meets_forLoop (hi : MeetsInside C inner) : Meets C (forLoop inner) := by
  refine .bind .identifier fun name => .bind (.eat "=") fun b => ?_
  cases b with
  | true =>
    refine .bind hi.expression fun first => .bind (.expect ",") fun _ => .bind hi.expression fun last =>
      .bind (.eat ",") fun b => ?_
    have hrest (o : Option Expr) : Meets C (do
        let _ ← eat "do"
        return Action.forLoop name first last o (← body inner)) :=
      .bind (.eat "do") fun _ => .map (meets_body hi) _
    cases b with
    | true => exact .bind (.map hi.expression _) hrest
    | false => exact .bind (.pure none) hrest
  | false =>
    have hname : Meets C nameStep := by
      refine .bind (.eat ",") fun b => ?_
      cases b with
      | true => exact .map .identifier _
      | false => exact .pure _
    exact .bind (.many hname) fun names => .bind (.expect "in") fun _ => .bind hi.expression fun e =>
      .bind (.eat "do") fun _ => .map (meets_body hi) _

theorem meets_returnValues (hi : MeetsInside C inner) : Meets C (returnValues inner) := by
  refine .bind (.look _) fun bare => ?_
  cases bare with
  | true => exact .bind (.pure []) fun es => .map (.eat ";") _
  | false => exact .bind (meets_separated hi) fun es => .map (.eat ";") _

theorem meets_expressionStatement (hi : MeetsInside C inner) : Meets C (expressionStatement inner) := by
  refine .bind hi.expression fun e => .bind (.look _) fun o => ?_
  cases o with
  | none => exact .pure _
  | some op =>
    dsimp only
    cases e.isAssignable with
    | false => exact .bind .refuse fun _ => .bind .next fun _ => .map hi.expression _
    | true => exact .bind .next fun _ => .map hi.expression _

theorem meets_statement (hi : MeetsInside C inner) : Meets C (statement inner) := by
  refine .bind (.look _) fun t => .bind (.look _) fun o => ?_
  split
  · exact .bind .next fun _ => .map (meets_localDeclaration hi) _
  · exact .bind .next fun _ => .map (meets_definition hi false) _
  · exact .map (meets_conditional hi) _
  · exact .bind .next fun _ => .map (meets_whileLoop hi) _
  · exact .bind .next fun _ => .map (meets_forLoop hi) _
  · exact .bind .next fun _ => .map (meets_returnValues hi) _
  · exact .map .next _
  · refine .bind (.eat ";") fun b => ?_
    cases b with
    | true => exact .pure _
    | false => exact .map (meets_expressionStatement hi) _

theorem meets_statements (hi : MeetsInside C inner) (stops : List String) : Meets C (statements inner stops) := by
  have hstep : Meets C (blockStep inner stops) := by
    refine .bind (.look _) fun b => ?_
    cases b with
    | true => exact .pure _
    | false => exact .map (meets_statement hi) _
  exact .map (.many hstep) _

theorem meets_block (hi : MeetsInside C inner) (stops : List String) : Meets C (block inner stops) := by
  intro s
  unfold block
  have henter := enter_eq s
  by_cases hs : s.depth < maxDepth
  · rw [if_pos hs] at henter
    rw [bind_of_ok henter]
    have hin := meets_statements hi stops (s.atDepth (s.depth + 1))
    cases h : statements inner stops (s.atDepth (s.depth + 1)) with
    | ok ss t =>
      rw [h] at hin
      rw [bind_of_ok h]
      exact C.rise hs hin
    | error e t =>
      -- the level stays open
      rw [h] at hin
      rw [bind_of_error h]
      exact C.fail (C.deepen hs) hin
  · rw [if_neg hs] at henter
    rw [bind_of_error henter]
    exact C.tooDeep s

end Statements

theorem meetsInside_ofRoom (C : Contract) (n : Nat) : MeetsInside C (Nested.ofRoom n) := by
  induction n with
  | zero => exact ⟨.tooDeep, .tooDeep, .tooDeep, fun _ => .tooDeep⟩
  | succ n ih =>
    exact ⟨.within (meets_disjunction ih), .within (meets_concatenation ih), .within (meets_unary ih), meets_block ih⟩

end Parser

namespace Cursor

/-- `t` stands where `s` does, or behind it. -/
def Precedes (s t : Cursor) : Prop := ∃ ts, s.Behind ts t

variable {s t u : Cursor}

theorem Precedes.refl (s : Cursor) : s.Precedes s := ⟨[], .refl s⟩

theorem Precedes.trans (h : s.Precedes t) (h' : t.Precedes u) : s.Precedes u := by
  obtain ⟨ts, ht⟩ := h
  obtain ⟨us, hu⟩ := h'
  exact ⟨ts ++ us, ht.trans hu⟩

/-- The depth does not matter for the place. -/
theorem Precedes.atDepth {d : Nat} (h : (s.atDepth d).Precedes t) (d' : Nat) : s.Precedes (t.atDepth d') := by
  obtain ⟨ts, ht⟩ := h
  exact ⟨ts, ht.pending, ht.stop⟩

/-- One step takes one token, or none at the end of input. -/
theorem precedes_advance (s : Cursor) : s.Precedes s.advance := by
  obtain ⟨pending, stop, depth⟩ := s
  cases pending with
  | nil => exact ⟨[], rfl, rfl⟩
  | cons t ts =>
    unfold advance
    dsimp only
    split
    · exact ⟨[], rfl, rfl⟩
    · exact ⟨[t], rfl, rfl⟩

end Cursor

/-- Parsers step over tokens and never back. An error is about the token that they stop at. -/
def Contract.forward : Contract where
  done := Cursor.Precedes
  raised := Cursor.Precedes
  failed s e t := s.Precedes t ∧ e.line = t.peek.line
  refl := .refl
  trans := .trans
  raise := id
  raisedTrans := .trans
  fail h h' := ⟨h.trans h'.1, h'.2⟩
  advance := Cursor.precedes_advance
  unexpected s := ⟨.refl s, rfl⟩
  expected _ s := ⟨.refl s, rfl⟩
  deepen _ := (Cursor.Precedes.refl _).atDepth _
  tooDeep s := ⟨(Cursor.Precedes.refl s).atDepth _, rfl⟩
  rise _ h := h.atDepth _
  failRise _ h := ⟨h.1.atDepth _, h.2⟩
  restore h := h.atDepth _
  failRestore h := ⟨h.1.atDepth _, h.2⟩

/-- A statement that fails does so behind its start, with an error about the token ahead. -/
theorem Parser.statement_failed {s t : Cursor} {e : ParseError} (h : statement Nested.top s = .error e t) :
    s.Precedes t ∧ e.line = t.peek.line := by
  have hmeets : (statement Nested.top s).Meets .forward s := meets_statement (meetsInside_ofRoom .forward maxDepth) s
  rw [h] at hmeets
  exact hmeets

end ScriptGraph
