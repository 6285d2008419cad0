import ScriptGraph.Proofs.EntryCalls
import ScriptGraph.Proofs.Legible

namespace ScriptGraph

open Lexeme

/-- A call by its first callee and with its quoted arguments as they are written, if it fits an entry. -/
def Expr.asWritten (e : Expr) (callee : String) (args written : List Expr) : Expr :=
  match CallMatch.ofCall? callee args with
  | none => e
  | some m => m.entry.call (Arg.requote m.entry.args written)

def Action.isReturn : Action → Bool
  | .giveBack _ => true
  | _ => false

mutual

/-- The statements that the nodes of a block are written as. Nothing is written below a return. -/
def Stmt.canonicalAll : List Stmt → List Stmt
  | [] => []
  | s :: ss => s.canonical :: if s.action.isReturn then [] else Stmt.canonicalAll ss

def Stmt.canonical : Stmt → Stmt
  | .mk line action => .mk line action.canonical

def Action.canonical : Action → Action
  | .declare s value => .declare s value
  | .assign target op value => .assign target op value
  | .define s names body isLocal isMethod => .define s names (Stmt.canonicalAll body) isLocal isMethod
  | .conditional condition consequent alternate =>
    .conditional condition (Stmt.canonicalAll consequent) (Action.canonicalAlternate alternate)
  | .whileLoop condition body => .whileLoop condition (Stmt.canonicalAll body)
  | .forLoop counter first last step body => .forLoop counter first last step (Stmt.canonicalAll body)
  | .forEach names iterable body => .forEach names iterable (Stmt.canonicalAll body)
  | .giveBack values => .giveBack values
  | .leaveLoop => .leaveLoop
  | .evaluate e => .evaluate e.canonical

/-- An alternate without statements has no node. -/
def Action.canonicalAlternate : Option (List Stmt) → Option (List Stmt)
  | none => none
  | some [] => none
  | some (s :: ss) => some (s.canonical :: if s.action.isReturn then [] else Stmt.canonicalAll ss)

def Expr.canonical : Expr → Expr
  | .call callee args => (Expr.call callee args).asWritten callee.text args (Expr.canonicalHandler args)
  | .methodCall object method args =>
    (Expr.methodCall object method args).asWritten (object.text ++ ":" ++ method) args (Expr.canonicalHandler args)
  | e => e

def Expr.canonicalHandler : List Expr → List Expr
  | [] => []
  | .function names body :: args => .function names (Stmt.canonicalAll body) :: args
  | e :: args => e :: Expr.canonicalHandler args

end

theorem Stmt.canonicalAll_eq_nil {ss : List Stmt} : Stmt.canonicalAll ss = [] ↔ ss = [] := by
  cases ss with
  | nil => simp [Stmt.canonicalAll]
  | cons s ss => simp [Stmt.canonicalAll]

theorem Action.canonicalAlternate_cons (s : Stmt) (ss : List Stmt) :
    Action.canonicalAlternate (some (s :: ss)) = some (Stmt.canonicalAll (s :: ss)) := by
  rw [Action.canonicalAlternate, Stmt.canonicalAll]

namespace Expr

variable {e : Expr} {callee : String} {args : List Expr}

theorem canonical_of_none (hc : e.call? = some (callee, args)) (h : CallMatch.ofCall? callee args = none) :
    e.canonical = e := by
  cases e <;> cases hc <;> rw [canonical, asWritten, h]

theorem canonical_of_some (hc : e.call? = some (callee, args)) {m : CallMatch}
    (h : CallMatch.ofCall? callee args = some m) :
    e.canonical = m.entry.call (Arg.requote m.entry.args (canonicalHandler args)) := by
  cases e <;> cases hc <;> rw [canonical, asWritten, h]

theorem canonical_of_call?_none (h : e.call? = none) : e.canonical = e := by
  cases e with
  | call | methodCall => cases h
  | _ => rw [canonical] <;> simp

/-- A call that fits no entry stays as it is, and so does what is no call. -/
theorem canonical_cases (e : Expr) : e.canonical = e ∨ ∃ callee args m, e.call? = some (callee, args) ∧
    CallMatch.ofCall? callee args = some m ∧
    e.canonical = m.entry.call (Arg.requote m.entry.args (canonicalHandler args)) := by
  cases hc : e.call? with
  | none => exact .inl (canonical_of_call?_none hc)
  | some call =>
    obtain ⟨callee, args⟩ := call
    cases h : CallMatch.ofCall? callee args with
    | none => exact .inl (canonical_of_none hc h)
    | some m => exact .inr ⟨callee, args, m, rfl, h, canonical_of_some hc h⟩

/-- Does the call fit an entry? -/
def fits (e : Expr) : Bool := (e.call?.bind fun call => CallMatch.ofCall? call.1 call.2).isSome

theorem fits_of_some (hc : e.call? = some (callee, args)) {m : CallMatch} (h : CallMatch.ofCall? callee args = some m) :
    e.fits = true := by
  rw [fits, hc]
  exact Option.isSome_of_eq_some h

theorem handler_canonicalHandler (args : List Expr) :
    handler (canonicalHandler args) = Stmt.canonicalAll (handler args) := by
  induction args with
  | nil => rw [canonicalHandler, handler, Stmt.canonicalAll]
  | cons e args ih =>
    cases e with
    | function names body => rw [canonicalHandler, handler, handler]
    | _ => rw [canonicalHandler, handler, handler, ih] <;> simp

theorem handler_requote (args : List Arg) (es : List Expr) : handler (Arg.requote args es) = handler es := by
  fun_induction Arg.requote args es with
  | case1 f args e es hf ih =>
    cases e with
    | function names body => rw [requoted, handler, handler]; simp
    | string value quote => rw [requoted, handler, handler, ih] <;> simp
    | _ => rw [requoted, handler, handler, ih] <;> simp
  | case2 f args e es hf ih =>
    cases e with
    | function names body => rw [handler, handler]
    | _ => rw [handler, handler, ih] <;> simp
  | case3 => rfl
  | case4 params optional args e es ih =>
    cases e with
    | function names body => rw [handler, handler]
    | _ => rw [handler, handler, ih] <;> simp
  | case5 => rfl

theorem handlerOutlines_requote (args : List Arg) (es : List Expr) :
    handlerOutlines (Arg.requote args (canonicalHandler es)) = Stmt.outlines (Stmt.canonicalAll (handler es)) := by
  rw [handlerOutlines_eq, handler_requote, handler_canonicalHandler]

theorem outline_of_call? (h : e.call? = some (callee, args)) (text : String) :
    e.outline text = .ofCall callee args text (handlerOutlines args) := by
  cases e <;> cases h <;> rw [outline]

theorem handler_mem_bodies (h : e.call? = some (callee, args)) : handler args ∈ (Action.evaluate e).bodies := by
  cases e <;> cases h <;> exact List.mem_singleton.mpr rfl

theorem Every.arguments {P : Rules} (he : e.Every P) (h : e.call? = some (callee, args)) : EveryAll P args := by
  cases e <;> cases h <;> exact he.2.2

end Expr

/-- The rule holds of a program that is written if it holds of the program that the graph was made of. -/
structure Rules.Settles (P : Rules) : Prop extends P.OfPaths where
  requoted : ∀ value quote, P.expr (.string value quote) → P.expr (.string (Text.requoted value) '\'')
  function : ∀ names body, P.expr (.function names body) → P.expr (.function names (Stmt.canonicalAll body))
  action : ∀ a : Action, a.Every P → P.action a.canonical
  block : ∀ ss, P.block ss → P.block (Stmt.canonicalAll ss)

theorem Expr.EveryAll.handler {P : Rules} {args : List Expr} (h : Expr.EveryAll P args) :
    (Expr.handler args ≠ [] → P.block (Expr.handler args)) ∧ Stmt.EveryAll P (Expr.handler args) := by
  induction args with
  | nil => exact ⟨fun hne => absurd rfl hne, trivial⟩
  | cons e args ih =>
    cases e with
    | function names body => exact ⟨fun _ => h.1.2.1, h.1.2.2⟩
    | _ => exact ih h.2

/-- What holds everywhere in a statement holds in the blocks that become nodes below its node. -/
theorem Action.Every.bodies {P : Rules} {a : Action} (h : a.Every P) :
    ∀ body ∈ a.bodies, (body ≠ [] → P.block body) ∧ Stmt.EveryAll P body := by
  cases a with
  | declare | assign | giveBack | leaveLoop => simp [Action.bodies]
  | define => exact List.forall_mem_singleton.mpr ⟨fun _ => h.2.1, h.2.2⟩
  | conditional condition consequent alternate =>
    refine List.forall_mem_cons.mpr ⟨⟨fun _ => h.2.2.1.1, h.2.2.1.2⟩, List.forall_mem_singleton.mpr ?_⟩
    cases alternate with
    | none => exact ⟨fun hne => absurd rfl hne, trivial⟩
    | some body => exact ⟨fun _ => h.2.2.2.1, h.2.2.2.2⟩
  | whileLoop => exact List.forall_mem_singleton.mpr ⟨fun _ => h.2.2.1, h.2.2.2⟩
  | forLoop => exact List.forall_mem_singleton.mpr ⟨fun _ => h.2.2.2.2.1, h.2.2.2.2.2⟩
  | forEach => exact List.forall_mem_singleton.mpr ⟨fun _ => h.2.2.1, h.2.2.2⟩
  | evaluate e =>
    cases e with
    | call callee args => exact List.forall_mem_singleton.mpr h.2.2.2.handler
    | methodCall object method args => exact List.forall_mem_singleton.mpr h.2.2.2.handler
    | _ => simp [Action.bodies]

namespace Rules.Settles

variable {P : Rules}

theorem canonicalHandler (hP : P.Settles) {args : List Expr} (h : Expr.EveryAll P args)
    (hh : Stmt.EveryAll P (Stmt.canonicalAll (Expr.handler args))) : Expr.EveryAll P (Expr.canonicalHandler args) := by
  induction args with
  | nil =>
    rw [Expr.canonicalHandler]
    exact trivial
  | cons e args ih =>
    cases e with
    | function names body =>
      rw [Expr.canonicalHandler, Expr.EveryAll, Expr.Every]
      exact ⟨⟨hP.function _ _ h.1.1, hP.block _ h.1.2.1, hh⟩, h.2⟩
    | _ =>
      rw [Expr.canonicalHandler, Expr.EveryAll]
      · exact ⟨h.1, ih h.2 hh⟩
      · simp

theorem requote (hP : P.Settles) (args : List Arg) {es : List Expr} (h : Expr.EveryAll P es) :
    Expr.EveryAll P (Arg.requote args es) := by
  fun_induction Arg.requote args es with
  | case1 f args e es hf ih =>
    refine ⟨?_, ih h.2⟩
    cases e with
    | string value quote => exact hP.requoted value quote h.1
    | _ => exact h.1
  | case2 f args e es hf ih => exact ⟨h.1, ih h.2⟩
  | case3 => exact h
  | case4 params optional args e es ih => exact ⟨h.1, ih h.2⟩
  | case5 => exact h

theorem expr (hP : P.Settles) {e : Expr} (h : e.Every P)
    (hh : ∀ body ∈ (Action.evaluate e).bodies, Stmt.EveryAll P (Stmt.canonicalAll body)) : e.canonical.Every P := by
  rcases e.canonical_cases with hsame | ⟨callee, args, m, hc, hm, hcanonical⟩
  · rw [hsame]
    exact h
  · rw [hcanonical]
    apply hP.call_entry (CallMatch.mem_entries hm)
    apply hP.requote
    exact hP.canonicalHandler (h.arguments hc) (hh _ (Expr.handler_mem_bodies hc))

/-- The written program keeps the rule. -/
theorem every (hP : P.Settles) (ss : List Stmt) : Stmt.EveryAll P ss → Stmt.EveryAll P (Stmt.canonicalAll ss) := by
  induction ss using Stmt.bodyInduction with
  | nil =>
    intro _
    rw [Stmt.canonicalAll]
    exact trivial
  | cons line action ss hb hss =>
    intro h
    rw [Stmt.canonicalAll, Stmt.canonical]
    refine ⟨?_, ?_⟩
    · replace h : action.Every P := h.1
      have ha := hP.action action h
      have hbodies : ∀ body ∈ action.bodies, Stmt.EveryAll P (Stmt.canonicalAll body) :=
        fun body hm => hb body hm (h.bodies body hm).2
      rw [Stmt.Every]
      cases action with
      | declare | assign | giveBack | leaveLoop =>
        rw [Action.canonical]
        exact h
      | define s names body isLocal isMethod =>
        rw [Action.canonical] at ha ⊢
        exact ⟨ha, hP.block _ h.2.1, hbodies body (by simp [Action.bodies])⟩
      | conditional condition consequent alternate =>
        have hthen := hbodies consequent (by simp [Action.bodies])
        rw [Action.canonical] at ha ⊢
        refine ⟨ha, h.2.1, ⟨hP.block _ h.2.2.1.1, hthen⟩, ?_⟩
        rcases alternate with _ | _ | ⟨s, ss⟩
        · rw [Action.canonicalAlternate]
          exact trivial
        · rw [Action.canonicalAlternate]
          exact trivial
        · rw [Action.canonicalAlternate_cons]
          exact ⟨hP.block _ h.2.2.2.1, hbodies (s :: ss) (by simp [Action.bodies])⟩
      | whileLoop condition body =>
        rw [Action.canonical] at ha ⊢
        exact ⟨ha, h.2.1, hP.block _ h.2.2.1, hbodies body (by simp [Action.bodies])⟩
      | forLoop counter first last step body =>
        rw [Action.canonical] at ha ⊢
        exact ⟨ha, h.2.1, h.2.2.1, h.2.2.2.1, hP.block _ h.2.2.2.2.1, hbodies body (by simp [Action.bodies])⟩
      | forEach names iterable body =>
        rw [Action.canonical] at ha ⊢
        exact ⟨ha, h.2.1, hP.block _ h.2.2.1, hbodies body (by simp [Action.bodies])⟩
      | evaluate e =>
        rw [Action.canonical] at ha ⊢
        exact ⟨ha, hP.expr h.2 hbodies⟩
    · split
      · exact trivial
      · exact hss h.2

theorem program (hP : P.Settles) {p : Program} (h : Program.Every P p) : Program.Every P (Stmt.canonicalAll p) :=
  ⟨hP.block p h.1, hP.every p h.2⟩

end Rules.Settles

/-- Both rules hold. -/
def Rules.and (P Q : Rules) : Rules where
  expr e := P.expr e ∧ Q.expr e
  field f := P.field f ∧ Q.field f
  action a := P.action a ∧ Q.action a
  block ss := P.block ss ∧ Q.block ss

namespace Rules

variable {P Q : Rules}

theorem imply_and (P Q : Rules) : Rules.Imply P Q (P.and Q) :=
  ⟨fun _ => .intro, fun _ => .intro, fun _ => .intro, fun _ => .intro⟩

theorem and_imply_left (P Q : Rules) : Rules.Imply (P.and Q) (P.and Q) P :=
  ⟨fun _ h _ => h.1, fun _ h _ => h.1, fun _ h _ => h.1, fun _ h _ => h.1⟩

theorem and_imply_right (P Q : Rules) : Rules.Imply (P.and Q) (P.and Q) Q :=
  ⟨fun _ h _ => h.2, fun _ h _ => h.2, fun _ h _ => h.2, fun _ h _ => h.2⟩

theorem OfPaths.and (hP : P.OfPaths) (hQ : Q.OfPaths) : (P.and Q).OfPaths where
  identifier s h := ⟨hP.identifier s h, hQ.identifier s h⟩
  member object s h := ⟨hP.member object s h, hQ.member object s h⟩
  index object key := ⟨hP.index object key, hQ.index object key⟩
  string value h hn := ⟨hP.string value h hn, hQ.string value h hn⟩
  call callee args := ⟨hP.call callee args, hQ.call callee args⟩
  methodCall object s args h := ⟨hP.methodCall object s args h, hQ.methodCall object s args h⟩

end Rules

theorem legible_settles : legible.Settles where
  identifier _ h := h
  member _ _ h := h
  index _ _ := trivial
  string _ h _ := h.isContent
  call _ _ := trivial
  methodCall _ _ _ h := h
  requoted value _ _ := (Text.isEscaped_requoted value).isContent
  function _ _ h := h
  action a h := by
    have hself := h.self
    cases a <;> rw [Action.canonical] <;> exact hself
  block _ _ := trivial

theorem printable_settles : printable.Settles where
  toOfPaths := printable_ofPaths
  requoted value _ _ := ⟨(Text.isEscaped_requoted value).isContent, (Text.isEscaped_requoted value).dangles_eq_false⟩
  function _ _ h := h
  action a h := by
    have hself := h.self
    cases a <;> rw [Action.canonical] <;> exact hself
  block _ _ := trivial

/-- Only the last statement of a block is a return. -/
def ReturnLast (ss : List Stmt) : Prop := ∀ s ∈ ss.dropLast, ∀ values, s.action ≠ .giveBack values

theorem ReturnLast.tail {s : Stmt} {ss : List Stmt} (h : ReturnLast (s :: ss)) : ReturnLast ss := by
  intro s' hs'
  cases ss with
  | nil => cases hs'
  | cons s'' ss => exact h s' (List.mem_cons_of_mem _ hs')

/-- Where a return comes last, everything is written. -/
theorem ReturnLast.canonicalAll_cons {s : Stmt} {ss : List Stmt} (h : ReturnLast (s :: ss)) :
    Stmt.canonicalAll (s :: ss) = s.canonical :: Stmt.canonicalAll ss := by
  rw [Stmt.canonicalAll]
  cases ss with
  | nil => simp [Stmt.canonicalAll]
  | cons s' ss =>
    have hfirst := h s (by simp)
    have hgoes : s.action.isReturn = false := by
      cases ha : s.action with
      | giveBack values => exact absurd ha (hfirst values)
      | _ => rfl
    rw [hgoes, if_neg (by simp)]

/-- No string goes over the end of a line. -/
def unbroken : Rules where
  expr
    | .string value _ => '\n' ∉ value.toList
    | _ => True

theorem unbroken_settles : unbroken.Settles where
  identifier _ _ := trivial
  member _ _ _ := trivial
  index _ _ := trivial
  string _ _ h := h
  call _ _ := trivial
  methodCall _ _ _ _ := trivial
  requoted _ _ h := Text.newline_notMem_requoted h
  function _ _ h := h
  action _ _ := trivial
  block _ _ := trivial

/-- No statement of a written program can carry on the statement before it. -/
theorem Action.isLoose_canonical {a : Action} (hp : a.Every printable) (h : a.isLoose = false) :
    a.canonical.isLoose = false := by
  have hprint : a.canonical.Every printable :=
    (printable_settles.every [.mk 0 a] ⟨hp, trivial⟩).1
  cases a with
  | evaluate e =>
    rw [Action.canonical] at hprint ⊢
    rcases e.canonical_cases with hsame | ⟨callee, args, m, -, hm, hcanonical⟩
    · rwa [hsame]
    · rw [hcanonical] at hprint ⊢
      obtain ⟨s, ls, hls⟩ := Entry.head_lexemes (CallMatch.mem_entries hm)
        (Arg.requote m.entry.args (Expr.canonicalHandler args))
      have hspelled := (printable_cases (rfl : Text.isBlankText defaultIndent = true)).action _ hprint
      have hlead := Action.is_leadToken hspelled (hls : (Action.evaluate _).lexemes = _)
      have hname (text : String) : ((name s).token ⟨0, 0⟩).is text = false := rfl
      simp only [Action.isLoose, List.any_cons, List.any_nil, hlead, hname, Bool.or_self]
  | assign target op value =>
    rw [Action.canonical]
    exact h
  | _ => rw [Action.canonical]; rfl

theorem Action.isReturn_canonical (a : Action) : a.canonical.isReturn = a.isReturn := by
  cases a <;> rw [Action.canonical] <;> rfl

theorem bareReturnLast_canonicalAll (ss : List Stmt) : BareReturnLast (Stmt.canonicalAll ss) := by
  induction ss with
  | nil => simp [Stmt.canonicalAll, BareReturnLast]
  | cons s ss ih =>
    obtain ⟨line, action⟩ := s
    rw [Stmt.canonicalAll, Stmt.canonical]
    split
    · simp [BareReturnLast]
    · rename_i hr
      intro s hs
      cases hrest : Stmt.canonicalAll ss with
      | nil => simp [hrest] at hs
      | cons t ts =>
        rw [hrest] at hs ih
        rcases List.mem_cons.mp hs with rfl | hs
        · intro hbare
          have hcanonical : action.canonical = .giveBack [] := hbare
          have hgoes := action.isReturn_canonical
          rw [hcanonical] at hgoes
          exact hr hgoes.symm
        · exact ih s hs

theorem separable_settles : (printable.and separable).Settles where
  toOfPaths := printable_ofPaths.and
    { identifier _ _ := trivial
      member _ _ _ := trivial
      index _ _ := trivial
      string _ h _ := h.dangles_eq_false
      call _ _ := trivial
      methodCall _ _ _ _ := trivial }
  requoted value quote h :=
    ⟨printable_settles.requoted value quote h.1, (Text.isEscaped_requoted value).dangles_eq_false⟩
  function _ _ h := h
  action a h := by
    have hp := (Rules.and_imply_left _ _).cases.action a h h
    exact ⟨printable_settles.action a hp, Action.isLoose_canonical hp h.self.2⟩
  block ss _ := ⟨trivial, bareReturnLast_canonicalAll ss⟩

/-- The outline with the values of quoted fields as they are written. -/
def Outline.requotedAll : List Outline → List Outline
  | [] => []
  | .leaf kind data :: os => .leaf kind (data.requoted kind) :: requotedAll os
  | .block kind data body :: os => .block kind (data.requoted kind) (requotedAll body) :: requotedAll os
  | .branch kind data consequent alternate :: os =>
    .branch kind (data.requoted kind) (requotedAll consequent) (requotedAll alternate) :: requotedAll os

theorem Expr.canonicalHandler_cons {e : Expr} (h : e.isFunction = false) (args : List Expr) :
    Expr.canonicalHandler (e :: args) = e :: Expr.canonicalHandler args := by
  rw [Expr.canonicalHandler]
  rintro names body rfl
  cases h

theorem Expr.canonicalHandler_eq_self {args : List Expr} (h : args.any Expr.isFunction = false) :
    Expr.canonicalHandler args = args := by
  induction args with
  | nil => rw [Expr.canonicalHandler]
  | cons e args ih =>
    rw [List.any_cons, Bool.or_eq_false_iff] at h
    rw [Expr.canonicalHandler_cons h.1, ih h.2]

theorem Expr.canonicalHandler_append {before : List Expr} (h : before.any Expr.isFunction = false) (args : List Expr) :
    Expr.canonicalHandler (before ++ args) = before ++ Expr.canonicalHandler args := by
  induction before with
  | nil => rfl
  | cons e before ih =>
    rw [List.any_cons, Bool.or_eq_false_iff] at h
    rw [List.cons_append, Expr.canonicalHandler_cons h.1, ih h.2, List.cons_append]

theorem Expr.function_or (e : Expr) : (∃ names body, e = .function names body) ∨ e.isFunction = false := by
  cases e with
  | function names body => exact .inl ⟨names, body, rfl⟩
  | _ => exact .inr rfl

theorem Expr.isFunction_requoted (e : Expr) : e.requoted.isFunction = e.isFunction := by
  cases e <;> simp only [Expr.requoted, Expr.isFunction]

theorem Arg.requote_canonicalHandler (args : List Arg) (es : List Expr) :
    Arg.requote args (Expr.canonicalHandler es) = Expr.canonicalHandler (Arg.requote args es) := by
  fun_induction Arg.requote args es with
  | case1 f args e es hf ih =>
    rcases e.function_or with ⟨names, body, rfl⟩ | he
    · simp only [Expr.canonicalHandler, requote, hf, Expr.requoted]
    · rw [Expr.canonicalHandler_cons he, Expr.canonicalHandler_cons (e.isFunction_requoted.trans he), ← ih]
      simp only [requote, hf]
  | case2 f args e es hf ih =>
    rcases e.function_or with ⟨names, body, rfl⟩ | he
    · simp only [Expr.canonicalHandler, requote, hf]
    · rw [Expr.canonicalHandler_cons he, Expr.canonicalHandler_cons he, ← ih]
      simp only [requote, hf]
  | case3 f args e es hf =>
    rcases e.function_or with ⟨names, body, rfl⟩ | he
    · simp only [Expr.canonicalHandler, requote, hf]
    · rw [Expr.canonicalHandler_cons he]
      simp only [requote, hf]
  | case4 params optional args e es ih =>
    rcases e.function_or with ⟨names, body, rfl⟩ | he
    · simp only [Expr.canonicalHandler, requote]
    · rw [Expr.canonicalHandler_cons he, Expr.canonicalHandler_cons he, ← ih]
      simp only [requote]
  | case5 args es hfield hhandler =>
    cases es with
    | nil => rw [Expr.canonicalHandler, requote_nil]
    | cons e es =>
      cases args with
      | nil => simp only [requote]
      | cons arg args =>
        cases arg with
        | field f => exact (hfield f args e es rfl rfl).elim
        | handler params optional => exact (hhandler params optional args e es rfl rfl).elim

theorem Arg.Fill.canonicalHandler {args : List Arg} {es : List Expr} {fs : Fields} {body : Option (List Stmt)}
    (h : Fill args es fs body) : Fill args (Expr.canonicalHandler es) fs (body.map Stmt.canonicalAll) := by
  have hnil : Expr.canonicalHandler [] = [] := Expr.canonicalHandler_eq_self rfl
  induction h with
  | nil =>
    rw [hnil]
    exact .nil
  | handler params optional h _ =>
    rw [Expr.canonicalHandler]
    exact .handler params optional h
  | noHandler params h ih =>
    rw [hnil] at ih ⊢
    exact .noHandler params ih
  | quoted hf h ih =>
    rw [Expr.canonicalHandler_cons rfl]
    exact .quoted hf ih
  | raw hf he h ih =>
    rw [Expr.canonicalHandler_cons he]
    exact .raw hf he ih
  | absent hf ho h ih =>
    rw [hnil] at ih ⊢
    exact .absent hf ho ih
  | rest hf hes ht h ih =>
    rw [hnil] at ih
    rw [Expr.canonicalHandler_eq_self hes]
    exact .rest hf hes ht ih
  | noRest hf hes ht h ih =>
    rw [hnil] at ih
    rw [Expr.canonicalHandler_eq_self hes]
    exact .noRest hf hes ht ih

namespace CallMatch

variable {callee : String} {args : List Expr} {m : CallMatch}

/-- What the written call fits. -/
def written (m : CallMatch) : CallMatch :=
  ⟨m.entry, m.fields.requoted m.entry.kind, m.body.map Stmt.canonicalAll⟩

theorem data_written (h : ofCall? callee args = some m) : m.written.data = m.data.requoted m.entry.kind := by
  have hlabel := (Catalogue.isQuoted_eq m.entry (mem_entries h)).2 "label" List.mem_cons_self
  rw [data, data, written, Fields.requoted, Fields.requoted, List.map_cons, hlabel]
  rfl

theorem ofCall?_written (h : ofCall? callee args = some m) :
    ofCall? m.entry.callee (Arg.requote m.entry.args (Expr.canonicalHandler args)) = some m.written := by
  have he := mem_entries h
  obtain ⟨hquoted, hfixed⟩ := Catalogue.isQuoted_eq m.entry he
  obtain ⟨-, fs, hfill, hfields⟩ := ofCall?_eq_some_iff.mp h
  refine ofCall?_eq_some_iff.mpr ⟨Catalogue.lookup?_callee m.entry he, fs.requoted m.entry.kind,
    hfill.canonicalHandler.requote hquoted, ?_⟩
  have hsame : m.entry.fixedFields.requoted m.entry.kind = m.entry.fixedFields := by
    refine Fields.requoted_eq_self fun k hk => hfixed k (List.mem_cons_of_mem _ ?_)
    simpa [Entry.fixedFields, Fields.keys] using hk
  change m.fields.requoted m.entry.kind = _ ++ m.entry.fixedFields
  rw [hfields, Fields.requoted, List.map_append, ← Fields.requoted, ← Fields.requoted, hsame]

/-- The outline of the written call. -/
theorem outline_written (h : ofCall? callee args = some m) (text text' : String) (body : List Outline)
    (hb : Stmt.outlines (Stmt.canonicalAll (Expr.handler args)) = Outline.requotedAll body) :
    [(m.entry.call (Arg.requote m.entry.args (Expr.canonicalHandler args))).outline text'] =
      Outline.requotedAll [.ofCall callee args text body] := by
  have he := mem_entries h
  rw [Expr.outline_of_call? (Entry.call?_call he _), Expr.handlerOutlines_requote, hb,
    Outline.ofCall_of_some (ofCall?_written h), Outline.ofCall_of_some h, data_written h]
  cases hbody : m.body <;> simp [written, hbody, Outline.requotedAll]

end CallMatch

theorem Outline.requotedAll_append (os os' : List Outline) :
    requotedAll (os ++ os') = requotedAll os ++ requotedAll os' := by
  induction os with
  | nil => rw [requotedAll, List.nil_append, List.nil_append]
  | cons o os ih => cases o <;> simp only [List.cons_append, requotedAll, ih]

/-- A return comes last in each block. -/
def returnsLast : Rules where
  block := ReturnLast

/-- Where nothing follows a return, the written program has the same outline, with the values of quoted fields as they
are written. -/
theorem Stmt.outlines_canonicalAll (ss : List Stmt) : Stmt.EveryAll returnsLast ss → (ss ≠ [] → ReturnLast ss) →
    Stmt.outlines (Stmt.canonicalAll ss) = Outline.requotedAll (Stmt.outlines ss) := by
  have hdata {k : NodeKind} (hk : k ∈ NodeKind.structural) (data : Fields) : data.requoted k.tag = data :=
    Fields.requoted_eq_self fun key _ => Catalogue.isQuoted_structural hk key
  induction ss using Stmt.bodyInduction with
  | nil =>
    intro _ _
    rw [Stmt.canonicalAll, Stmt.outlines, Outline.requotedAll]
  | cons line action ss hb hss =>
    intro hr hlast
    have hreturn := hlast (List.cons_ne_nil _ _)
    have ha : action.Every returnsLast := hr.1
    replace hb : ∀ body ∈ action.bodies, Stmt.outlines (Stmt.canonicalAll body) =
        Outline.requotedAll (Stmt.outlines body) :=
      fun body hm => hb body hm (ha.bodies body hm).2 (ha.bodies body hm).1
    -- one statement at a time, as a list of its own
    suffices h : [(Stmt.mk line action.canonical).outline] = Outline.requotedAll [(Stmt.mk line action).outline] by
      rw [hreturn.canonicalAll_cons, Stmt.canonical, Stmt.outlines, Stmt.outlines, hss hr.2 fun _ => hreturn.tail,
        ← List.singleton_append, h, ← Outline.requotedAll_append, List.singleton_append]
    rw [Stmt.outline, Stmt.outline]
    cases action with
    | declare s value =>
      rw [Action.canonical, Action.outline, Outline.requotedAll, hdata (by decide), Outline.requotedAll]
    | assign target op value =>
      rw [Action.canonical, Action.outline, Outline.requotedAll, hdata (by decide), Outline.requotedAll]
    | define s names body isLocal isMethod =>
      rw [Action.canonical, Action.outline, Action.outline, Outline.requotedAll, hdata (by decide), Outline.requotedAll,
        hb body (by simp [Action.bodies])]
    | conditional condition consequent alternate =>
      have helse : Stmt.alternateOutlines (Action.canonicalAlternate alternate) =
          Outline.requotedAll (Stmt.alternateOutlines alternate) := by
        rcases alternate with _ | _ | ⟨s, ss⟩
        · rw [Action.canonicalAlternate, Stmt.alternateOutlines, Outline.requotedAll]
        · rw [Action.canonicalAlternate, Stmt.alternateOutlines, Stmt.alternateOutlines, Stmt.outlines,
            Outline.requotedAll]
        · rw [Action.canonicalAlternate_cons, Stmt.alternateOutlines, Stmt.alternateOutlines,
            hb (s :: ss) (by simp [Action.bodies])]
      rw [Action.canonical, Action.outline, Action.outline, Outline.requotedAll, hdata (by decide), Outline.requotedAll,
        hb consequent (by simp [Action.bodies]), helse]
    | whileLoop condition body =>
      rw [Action.canonical, Action.outline, Action.outline, Outline.requotedAll, hdata (by decide), Outline.requotedAll,
        hb body (by simp [Action.bodies])]
    | forLoop counter first last step body =>
      rw [Action.canonical, Action.outline, Action.outline, Outline.requotedAll, hdata (by decide), Outline.requotedAll,
        hb body (by simp [Action.bodies])]
    | forEach names iterable body =>
      rw [Action.canonical, Action.outline, Action.outline, Outline.requotedAll, hdata (by decide), Outline.requotedAll,
        hb body (by simp [Action.bodies])]
    | giveBack values =>
      rw [Action.canonical, Action.outline, Outline.requotedAll, hdata (by decide), Outline.requotedAll]
    | leaveLoop =>
      rw [Action.canonical, Action.outline, Outline.requotedAll, hdata (by decide), Outline.requotedAll]
    | evaluate e =>
      have hcode (label text : String) :
          [Outline.leaf NodeKind.code.tag (Builder.labelled label [("codeBlock", text)])] =
          Outline.requotedAll [.leaf NodeKind.code.tag (Builder.labelled label [("codeBlock", text)])] := by
        rw [Outline.requotedAll, hdata (by decide), Outline.requotedAll]
      rw [Action.canonical, Action.outline, Action.outline]
      cases hc : e.call? with
      | none =>
        rw [Expr.canonical_of_call?_none hc]
        cases e with
        | call | methodCall => cases hc
        | _ => rw [Expr.outline] <;> first | exact hcode _ _ | simp
      | some call =>
        obtain ⟨callee, args⟩ := call
        have hbody : Stmt.outlines (Stmt.canonicalAll (Expr.handler args)) =
            Outline.requotedAll (Expr.handlerOutlines args) := by
          rw [Expr.handlerOutlines_eq]
          exact hb _ (Expr.handler_mem_bodies hc)
        cases hm : CallMatch.ofCall? callee args with
        | none =>
          rw [Expr.canonical_of_none hc hm, Expr.outline_of_call? hc, Outline.ofCall, hm]
          exact hcode _ _
        | some m =>
          rw [Expr.canonical_of_some hc hm, Expr.outline_of_call? hc]
          exact CallMatch.outline_written hm _ _ _ hbody

end ScriptGraph
