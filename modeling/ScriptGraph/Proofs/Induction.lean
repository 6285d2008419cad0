import ScriptGraph.Program

namespace ScriptGraph

/-- One case for each way to build an expression, a table field, an action or a statement: if the
properties hold of the parts, they hold of the whole. -/
structure SyntaxCases (PE : Expr → Prop) (PF : TableField → Prop) (PA : Action → Prop)
    (PS : Stmt → Prop) : Prop where
  identifier : ∀ name, PE (.identifier name)
  string : ∀ value quote, PE (.string value quote)
  number : ∀ text, PE (.number text)
  bool : ∀ value, PE (.bool value)
  nil : PE .nil
  vararg : PE .vararg
  binary : ∀ op left right, PE left → PE right → PE (.binary op left right)
  unary : ∀ op operand, PE operand → PE (.unary op operand)
  call : ∀ callee args, PE callee → (∀ e ∈ args, PE e) → PE (.call callee args)
  methodCall : ∀ object method args, PE object → (∀ e ∈ args, PE e) →
    PE (.methodCall object method args)
  member : ∀ object property, PE object → PE (.member object property)
  index : ∀ object key, PE object → PE key → PE (.index object key)
  table : ∀ fields, (∀ f ∈ fields, PF f) → PE (.table fields)
  function : ∀ params body, (∀ s ∈ body, PS s) → PE (.function params body)
  named : ∀ name value, PE value → PF (.named name value)
  keyed : ∀ key value, PE key → PE value → PF (.keyed key value)
  positional : ∀ value, PE value → PF (.positional value)
  declare : ∀ name value, (∀ e ∈ value, PE e) → PA (.declare name value)
  assign : ∀ target op value, PE target → PE value → PA (.assign target op value)
  define : ∀ name params body isLocal isMethod, (∀ s ∈ body, PS s) →
    PA (.define name params body isLocal isMethod)
  conditional : ∀ condition consequent alternate, PE condition → (∀ s ∈ consequent, PS s) →
    (∀ body ∈ alternate, ∀ s ∈ body, PS s) → PA (.conditional condition consequent alternate)
  whileLoop : ∀ condition body, PE condition → (∀ s ∈ body, PS s) → PA (.whileLoop condition body)
  forLoop : ∀ counter first last step body, PE first → PE last → (∀ e ∈ step, PE e) →
    (∀ s ∈ body, PS s) → PA (.forLoop counter first last step body)
  forEach : ∀ names iterable body, PE iterable → (∀ s ∈ body, PS s) →
    PA (.forEach names iterable body)
  giveBack : ∀ values, (∀ e ∈ values, PE e) → PA (.giveBack values)
  leaveLoop : PA .leaveLoop
  evaluate : ∀ e, PE e → PA (.evaluate e)
  stmt : ∀ line action, PA action → PS (.mk line action)

namespace SyntaxCases

variable {PE : Expr → Prop} {PF : TableField → Prop} {PA : Action → Prop} {PS : Stmt → Prop}

mutual

theorem expr (h : SyntaxCases PE PF PA PS) : ∀ e, PE e
  | .identifier name => h.identifier name
  | .string value quote => h.string value quote
  | .number text => h.number text
  | .bool value => h.bool value
  | .nil => h.nil
  | .vararg => h.vararg
  | .binary op left right => h.binary op left right (h.expr left) (h.expr right)
  | .unary op operand => h.unary op operand (h.expr operand)
  | .call callee args => h.call callee args (h.expr callee) (h.exprs args)
  | .methodCall object method args => h.methodCall object method args (h.expr object) (h.exprs args)
  | .member object property => h.member object property (h.expr object)
  | .index object key => h.index object key (h.expr object) (h.expr key)
  | .table fields => h.table fields (h.fields fields)
  | .function params body => h.function params body (h.block body)

theorem exprs (h : SyntaxCases PE PF PA PS) : ∀ (es : List Expr), ∀ e ∈ es, PE e
  | [] => fun _ he => nomatch he
  | e :: es => List.forall_mem_cons.mpr ⟨h.expr e, h.exprs es⟩

theorem optional (h : SyntaxCases PE PF PA PS) : ∀ (o : Option Expr), ∀ e ∈ o, PE e
  | none => fun _ he => nomatch he
  | some e => fun _ he => Option.some.inj he ▸ h.expr e

theorem fields (h : SyntaxCases PE PF PA PS) : ∀ (fs : List TableField), ∀ f ∈ fs, PF f
  | [] => fun _ hf => nomatch hf
  | f :: fs => List.forall_mem_cons.mpr ⟨h.field f, h.fields fs⟩

theorem field (h : SyntaxCases PE PF PA PS) : ∀ f, PF f
  | .named name value => h.named name value (h.expr value)
  | .keyed key value => h.keyed key value (h.expr key) (h.expr value)
  | .positional value => h.positional value (h.expr value)

theorem block (h : SyntaxCases PE PF PA PS) : ∀ (ss : List Stmt), ∀ s ∈ ss, PS s
  | [] => fun _ hs => nomatch hs
  | s :: ss => List.forall_mem_cons.mpr ⟨h.statement s, h.block ss⟩

theorem alternate (h : SyntaxCases PE PF PA PS) :
    ∀ (o : Option (List Stmt)), ∀ body ∈ o, ∀ s ∈ body, PS s
  | none => fun _ hb => nomatch hb
  | some ss => fun _ hb => Option.some.inj hb ▸ h.block ss

theorem statement (h : SyntaxCases PE PF PA PS) : ∀ s, PS s
  | .mk line action => h.stmt line action (h.action action)

theorem action (h : SyntaxCases PE PF PA PS) : ∀ a, PA a
  | .declare name value => h.declare name value (h.optional value)
  | .assign target op value => h.assign target op value (h.expr target) (h.expr value)
  | .define name params body isLocal isMethod => h.define name params body isLocal isMethod (h.block body)
  | .conditional condition consequent rest =>
    h.conditional condition consequent rest (h.expr condition) (h.block consequent) (h.alternate rest)
  | .whileLoop condition body => h.whileLoop condition body (h.expr condition) (h.block body)
  | .forLoop counter first last step body =>
    h.forLoop counter first last step body (h.expr first) (h.expr last) (h.optional step) (h.block body)
  | .forEach names iterable body => h.forEach names iterable body (h.expr iterable) (h.block body)
  | .giveBack values => h.giveBack values (h.exprs values)
  | .leaveLoop => h.leaveLoop
  | .evaluate e => h.evaluate e (h.expr e)

end

end SyntaxCases

end ScriptGraph
