import ScriptGraph.Proofs.Outline
import ScriptGraph.Proofs.PrintedText
import ScriptGraph.Proofs.Relocation

namespace ScriptGraph

variable (f : Nat → Nat)

@[simp] theorem Expr.precedence_mapLines (e : Expr) : (e.mapLines f).precedence = e.precedence := by
  cases e <;> rfl

@[simp] theorem Expr.isBarePrefix_mapLines (e : Expr) : (e.mapLines f).isBarePrefix = e.isBarePrefix := by
  cases e <;> rfl

@[simp] theorem Expr.isFunction_mapLines (e : Expr) : (e.mapLines f).isFunction = e.isFunction := by
  cases e <;> rfl

@[simp] theorem Expr.literal?_mapLines (e : Expr) : (e.mapLines f).literal? = e.literal? := by
  cases e <;> rfl

namespace Printer

variable (unit : String)

/-- An action prints the same on any line, and so does what follows `else` if it is the only statement there. -/
structure Fixed (a : Action) : Prop where
  text : ∀ level, actionText unit level (a.mapLines f) = actionText unit level a
  alternate : ∀ level line line', alternate unit level (some [.mk line (a.mapLines f)]) =
    alternate unit level (some [.mk line' a])

variable {f unit}

theorem block_mapLines {ss : List Stmt} (h : ∀ s ∈ ss, Fixed f unit s.action) (level : Nat) :
    block unit level (Stmt.mapLinesAll f ss) = block unit level ss := by
  induction ss with
  | nil => rfl
  | cons s ss ih =>
    obtain ⟨hs, hss⟩ := List.forall_mem_cons.mp h
    obtain ⟨line, a⟩ := s
    have htext : actionText unit (level + 1) (a.mapLines f) = actionText unit (level + 1) a := hs.text (level + 1)
    rw [Stmt.mapLinesAll, Stmt.mapLines, block, block, stmt, stmt, htext, ih hss]

theorem exprs_mapLines {es : List Expr}
    (h : ∀ e ∈ es, ∀ level, expr unit level (e.mapLines f) = expr unit level e) (level : Nat) :
    exprs unit level (Expr.mapLinesAll f es) = exprs unit level es := by
  rw [exprs_eq, exprs_eq, Expr.mapLinesAll_eq, List.map_map]
  exact congrArg _ (List.map_congr_left fun e he => h e he level)

theorem alternate_else {ss : List Stmt} (h : ∀ line condition consequent rest,
      ss ≠ [.mk line (.conditional condition consequent rest)]) (level : Nat) :
    alternate unit level (some ss) = "else" ++ block unit level ss ++ "end" := by
  rw [alternate]
  exact fun line condition consequent rest he => h line condition consequent rest he

/-- What is no conditional stands behind `else`. -/
theorem Fixed.of_text {a : Action} (h : ∀ level, actionText unit level (a.mapLines f) = actionText unit level a)
    (hno : ∀ condition consequent rest, a ≠ .conditional condition consequent rest)
    (hno' : ∀ condition consequent rest, a.mapLines f ≠ .conditional condition consequent rest) : Fixed f unit a := by
  refine ⟨h, fun level line line' => ?_⟩
  rw [alternate_else, alternate_else]
  · simp only [block, stmt, h]
  · rintro _ condition consequent rest he
    cases he
    exact hno condition consequent rest rfl
  · rintro _ condition consequent rest he
    exact hno' condition consequent rest (Stmt.mk.inj (List.cons.inj he).1).2

theorem alternate_mapLines {rest : Option (List Stmt)} (h : ∀ body ∈ rest, ∀ s ∈ body, Fixed f unit s.action)
    (level : Nat) : alternate unit level (Stmt.mapLinesOption f rest) = alternate unit level rest := by
  match rest with
  | none => rfl
  | some [] => rfl
  | some [.mk line a] => exact (h _ rfl _ List.mem_cons_self).alternate level (f line) line
  | some (s :: s' :: ss) =>
    rw [@alternate_else unit (s :: s' :: ss) (by simp), ← block_mapLines (h _ rfl)]
    exact alternate_else (by simp [Stmt.mapLinesAll]) level

theorem Fixed.conditional {condition : Expr} {consequent : List Stmt} {rest : Option (List Stmt)}
    (hc : ∀ level, expr unit level (condition.mapLines f) = expr unit level condition)
    (ht : ∀ s ∈ consequent, Fixed f unit s.action) (hr : ∀ body ∈ rest, ∀ s ∈ body, Fixed f unit s.action) :
    Fixed f unit (.conditional condition consequent rest) := by
  refine ⟨fun level => ?_, fun level line line' => ?_⟩
  · rw [Action.mapLines, actionText, actionText, hc, block_mapLines ht, alternate_mapLines hr]
  · rw [Action.mapLines, Printer.alternate, Printer.alternate, hc, block_mapLines ht, alternate_mapLines hr]

variable (f unit)

theorem fixed_cases : SyntaxCases (fun e => ∀ level, expr unit level (e.mapLines f) = expr unit level e)
    (fun d => ∀ level, tableField unit level (d.mapLines f) = tableField unit level d) (Fixed f unit)
    (fun s => Fixed f unit s.action) where
  identifier _ _ := rfl
  string _ _ _ := rfl
  number _ _ := rfl
  bool _ _ := rfl
  nil _ := rfl
  vararg _ := rfl
  binary op left right ihl ihr level := by simp [Expr.mapLines, expr, ihl, ihr]
  unary op operand ih level := by simp [Expr.mapLines, expr, ih]
  call callee args ihc iha level := by simp [Expr.mapLines, expr, ihc, exprs_mapLines iha]
  methodCall object method args iho iha level := by simp [Expr.mapLines, expr, iho, exprs_mapLines iha]
  member object property ih level := by simp [Expr.mapLines, expr, ih]
  index object key iho ihk level := by simp [Expr.mapLines, expr, iho, ihk]
  table fields ih level := by
    have hfields : fields.map (tableField unit level ∘ TableField.mapLines f) = fields.map (tableField unit level) :=
      List.map_congr_left fun d hd => ih d hd level
    rw [Expr.mapLines, expr, expr, tableFields_eq, tableFields_eq, TableField.mapLinesAll_eq, List.map_map, hfields]
  function names body ih level := by
    cases body with
    | nil => rfl
    | cons s ss =>
      have hblock := block_mapLines ih level
      rw [Stmt.mapLinesAll] at hblock
      rw [Expr.mapLines, Stmt.mapLinesAll, expr, expr, hblock] <;> simp
  named s value ih level := by simp [TableField.mapLines, tableField, ih]
  keyed key value ihk ihv level := by simp [TableField.mapLines, tableField, ihk, ihv]
  positional value ih level := by simp [TableField.mapLines, tableField, ih]
  declare s value ih := by
    refine .of_text (fun level => ?_) (by simp) (by simp [Action.mapLines])
    cases value with
    | none => rfl
    | some e => rw [Action.mapLines, Expr.mapLinesOption, actionText, actionText, ih e rfl]
  assign target op value iht ihv := by
    refine .of_text (fun level => ?_) (by simp) (by simp [Action.mapLines])
    rw [Action.mapLines, actionText, actionText, iht, ihv]
  define s names body isLocal isMethod ih := by
    refine .of_text (fun level => ?_) (by simp) (by simp [Action.mapLines])
    rw [Action.mapLines, actionText, actionText, block_mapLines ih]
  conditional _ _ _ ihc iht ihr := .conditional ihc iht ihr
  whileLoop condition body ihc ihb := by
    refine .of_text (fun level => ?_) (by simp) (by simp [Action.mapLines])
    rw [Action.mapLines, actionText, actionText, ihc, block_mapLines ihb]
  forLoop counter first last step body ihf ihl ihs ihb := by
    refine .of_text (fun level => ?_) (by simp) (by simp [Action.mapLines])
    cases step with
    | none => rw [Action.mapLines, Expr.mapLinesOption, actionText, actionText, ihf, ihl, block_mapLines ihb]
    | some e =>
      rw [Action.mapLines, Expr.mapLinesOption, actionText, actionText, ihf, ihl, ihs e rfl, block_mapLines ihb]
  forEach names iterable body ihi ihb := by
    refine .of_text (fun level => ?_) (by simp) (by simp [Action.mapLines])
    rw [Action.mapLines, actionText, actionText, ihi, block_mapLines ihb]
  giveBack values ih := by
    refine .of_text (fun level => ?_) (by simp) (by simp [Action.mapLines])
    cases values with
    | nil => rfl
    | cons e es =>
      have hexprs := exprs_mapLines ih level
      rw [Expr.mapLinesAll] at hexprs
      rw [Action.mapLines, Expr.mapLinesAll, actionText, actionText, hexprs] <;> simp
  leaveLoop := .of_text (fun _ => rfl) (by simp) (by simp [Action.mapLines])
  evaluate e ih := by
    refine .of_text (fun level => ?_) (by simp) (by simp [Action.mapLines])
    rw [Action.mapLines, actionText, actionText, ih]
  stmt _ _ ih := ih

end Printer

@[simp] theorem Expr.text_mapLines (e : Expr) :
    (e.mapLines f).text = e.text := (Printer.fixed_cases f defaultIndent).expr e 0

theorem Stmt.text_mapLines (line : Nat) (a : Action) : (Stmt.mk line (a.mapLines f)).text = (Stmt.mk line a).text := by
  rw [Stmt.text, Stmt.text, Printer.stmt, Printer.stmt]
  exact ((Printer.fixed_cases f defaultIndent).action a).text 0

theorem Expr.map_text_mapLinesAll (es : List Expr) : (Expr.mapLinesAll f es).map Expr.text = es.map Expr.text := by
  rw [Expr.mapLinesAll_eq, List.map_map]
  exact List.map_congr_left fun e _ => e.text_mapLines f

theorem Expr.any_isFunction_mapLinesAll (es : List Expr) :
    (Expr.mapLinesAll f es).any Expr.isFunction = es.any Expr.isFunction := by
  induction es with
  | nil => rfl
  | cons e es ih => rw [Expr.mapLinesAll, List.any_cons, List.any_cons, ih, Expr.isFunction_mapLines]

namespace CallMatch

def Progress.mapLines (p : Progress) : Progress :=
  ⟨p.fields, p.body.map (Stmt.mapLinesAll f), Expr.mapLinesAll f p.remaining⟩

def mapLines (m : CallMatch) : CallMatch := ⟨m.entry, m.fields, m.body.map (Stmt.mapLinesAll f)⟩

theorem Progress.take_mapLines (p : Progress) (arg : Arg) :
    (p.mapLines f).take arg = (p.take arg).map (Progress.mapLines f) := by
  obtain ⟨fields, body, remaining⟩ := p
  cases arg with
  | handler params optional =>
    cases remaining with
    | nil => cases optional <;> rfl
    | cons e es => cases e <;> rfl
  | field spec =>
    rw [take, take]
    cases spec.style with
    | quoted =>
      cases remaining with
      | nil => cases h : spec.optional <;> simp [takeQuoted, Progress.mapLines, Expr.mapLinesAll, h]
      | cons e es => cases h : e.literal? <;> simp [takeQuoted, Progress.mapLines, Expr.mapLinesAll, h]
    | raw =>
      cases remaining with
      | nil => cases h : spec.optional <;> simp [takeRaw, Progress.mapLines, Expr.mapLinesAll, h]
      | cons e es => cases h : e.isFunction <;> simp [takeRaw, Progress.mapLines, Expr.mapLinesAll, h]
    | rest =>
      cases h : remaining.any Expr.isFunction <;>
        simp [takeRest, Progress.mapLines, Expr.any_isFunction_mapLinesAll, Expr.map_text_mapLinesAll, Expr.mapLinesAll,
          h]

theorem Progress.foldlM_take_mapLines (args : List Arg) (p : Progress) :
    args.foldlM Progress.take (p.mapLines f) = (args.foldlM Progress.take p).map (Progress.mapLines f) := by
  induction args generalizing p with
  | nil => rfl
  | cons arg args ih =>
    rw [List.foldlM_cons, List.foldlM_cons, take_mapLines]
    cases p.take arg with
    | none => rfl
    | some q => exact ih q

theorem ofCall?_mapLines (callee : String) (args : List Expr) :
    ofCall? callee (Expr.mapLinesAll f args) = (ofCall? callee args).map (mapLines f) := by
  unfold ofCall?
  cases Catalogue.lookup? callee with
  | none => rfl
  | some entry =>
    have hfold := Progress.foldlM_take_mapLines f entry.args { remaining := args }
    simp only [Progress.mapLines, Option.map_none] at hfold
    simp only [Option.bind_eq_bind, Option.bind_some, hfold]
    cases entry.args.foldlM Progress.take { remaining := args } with
    | none => rfl
    | some p =>
      obtain ⟨fields, body, remaining⟩ := p
      cases remaining <;> rfl

end CallMatch

theorem Outline.ofCall_mapLines (callee : String) (args : List Expr) (text : String) (body : List Outline) :
    Outline.ofCall callee (Expr.mapLinesAll f args) text body = Outline.ofCall callee args text body := by
  rw [ofCall, ofCall, CallMatch.ofCall?_mapLines]
  cases CallMatch.ofCall? callee args with
  | none => rfl
  | some m => simp [CallMatch.mapLines]

theorem Expr.handler_mapLinesAll (args : List Expr) :
    Expr.handler (Expr.mapLinesAll f args) = Stmt.mapLinesAll f (Expr.handler args) := by
  induction args with
  | nil => rfl
  | cons e args ih => cases e <;> first | rfl | exact ih

/-- The nodes of a program are the same on any lines. -/
theorem Stmt.outlines_mapLinesAll (ss : List Stmt) : Stmt.outlines (Stmt.mapLinesAll f ss) = Stmt.outlines ss := by
  induction ss using Stmt.bodyInduction with
  | nil => rfl
  | cons line action ss hb hss =>
    rw [Stmt.mapLinesAll, Stmt.mapLines, Stmt.outlines, Stmt.outlines, hss, Stmt.outline, Stmt.outline]
    have htext : (Stmt.mk (f line) (action.mapLines f)).text = (Stmt.mk line action).text :=
      Stmt.text_mapLines f line action
    rw [htext]
    generalize (Stmt.mk line action).text = text
    congr 1
    cases action with
    | declare s value => cases value <;> simp [Action.mapLines, Action.outline, Expr.mapLinesOption]
    | assign target op value => simp [Action.mapLines, Action.outline]
    | define s names body isLocal isMethod =>
      simp [Action.mapLines, Action.outline, hb body (by simp [Action.bodies])]
    | conditional condition consequent alternate =>
      have helse : Stmt.alternateOutlines (Stmt.mapLinesOption f alternate) = Stmt.alternateOutlines alternate := by
        cases alternate with
        | none => rfl
        | some body => exact hb body (by simp [Action.bodies])
      simp [Action.mapLines, Action.outline, hb consequent (by simp [Action.bodies]), helse]
    | whileLoop condition body => simp [Action.mapLines, Action.outline, hb body (by simp [Action.bodies])]
    | forLoop counter first last step body =>
      cases step <;> simp [Action.mapLines, Action.outline, Expr.mapLinesOption, Builder.forData,
        hb body (by simp [Action.bodies])]
    | forEach names iterable body => simp [Action.mapLines, Action.outline, hb body (by simp [Action.bodies])]
    | giveBack values => rw [Action.mapLines, Action.outline, Action.outline, Expr.map_text_mapLinesAll]
    | leaveLoop => rfl
    | evaluate e =>
      have hcall {args : List Expr} (h : Expr.handler args ∈ (Action.evaluate e).bodies) (callee : String) :
          Outline.ofCall callee (Expr.mapLinesAll f args) text (Expr.handlerOutlines (Expr.mapLinesAll f args)) =
            Outline.ofCall callee args text (Expr.handlerOutlines args) := by
        rw [Outline.ofCall_mapLines, Expr.handlerOutlines_eq, Expr.handlerOutlines_eq, Expr.handler_mapLinesAll, hb _ h]
      rw [Action.mapLines, Action.outline, Action.outline]
      cases e with
      | call callee args =>
        rw [Expr.mapLines, Expr.outline, Expr.outline, Expr.text_mapLines, hcall (by simp [Action.bodies])]
      | methodCall object method args =>
        rw [Expr.mapLines, Expr.outline, Expr.outline, Expr.text_mapLines, hcall (by simp [Action.bodies])]
      | _ => rfl

end ScriptGraph
