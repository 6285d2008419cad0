import ScriptGraph.Proofs.Doubles
import ScriptGraph.Proofs.PrinterRoundTrip
import ScriptGraph.Proofs.Rendering

namespace ScriptGraph

open Lexeme

theorem IsEscaped.of_isContent {cs : List Char} (h : IsContent '\'' cs) (hn : '\n' ∉ cs) (hd : dangles cs = false) :
    IsEscaped cs := by
  obtain ⟨-, h⟩ := h
  fun_induction stringBody '\'' cs with
  | case1 => exact .nil
  | case2 c cs ih =>
    simp only [List.mem_cons, not_or] at hn
    rw [dangles] at hd
    exact .escape c (ih hn.2.2 hd (by simpa using h))
  | case3 => cases h
  | case4 c cs hpair hc ih =>
    simp only [List.mem_cons, not_or] at hn
    simp only [Bool.or_eq_true, decide_eq_true_eq, not_or] at hc
    have hb : c ≠ '\\' := by
      rintro rfl
      cases cs with
      | nil => cases hd
      | cons d ds => exact hpair d ds rfl rfl
    have hrest : dangles cs = false := by
      rw [dangles] at hd
      · exact hd
      · exact fun h _ => hb h
      · exact fun _ _ h _ => hb h
    exact .plain hb hc.1 hc.2 (ih hn.2 hrest (by simpa using h))

theorem Text.requoted_eq_self {value : String} (h : IsEscaped value.toList) : Text.requoted value = value := by
  rw [Text.requoted_eq, h.quotedBody_eq, String.ofList_toList]

/-- A return comes last in its block, no alternate is empty, and no string goes over the end of a line or ends in an
unpaired backslash. -/
def orderly : Rules where
  expr
    | .string value _ => '\n' ∉ value.toList ∧ dangles value.toList = false
    | _ => True
  action
    | .conditional _ _ (some []) => False
    | _ => True
  block := ReturnLast

/-- The string literals that stand for quoted fields have single quotes. -/
def Arg.SingleQuoted (args : List Arg) (es : List Expr) : Prop :=
  ∀ arg ∈ args.zip es, arg.1.isQuoted = true → ∀ value quote, arg.2 = .string value quote → quote = '\''

/-- A call that fits an entry is written with the first callee of the entry, and with its quoted arguments in
single quotes. -/
def Action.IsCanonical : Action → Prop
  | .evaluate e => ∀ callee args m, e.call? = some (callee, args) → CallMatch.ofCall? callee args = some m →
    callee = m.entry.callee ∧ Arg.SingleQuoted m.entry.args args
  | _ => True

/-- The statement lists below a statement whose statements become nodes. -/
def Action.nodeBodies : Action → List (List Stmt)
  | .evaluate e => if e.fits then (Action.evaluate e).bodies else []
  | a => a.bodies

/-- `P` holds of each statement that becomes a node. -/
inductive Stmt.OnNodes (P : Action → Prop) : List Stmt → Prop
  | nil : OnNodes P []
  | cons (line : Nat) {action : Action} {ss : List Stmt} (h : P action)
      (hb : ∀ body ∈ action.nodeBodies, OnNodes P body) (hss : OnNodes P ss) : OnNodes P (.mk line action :: ss)

theorem Action.mem_bodies_of_mem_nodeBodies {a : Action} {body : List Stmt} (h : body ∈ a.nodeBodies) :
    body ∈ a.bodies := by
  cases a with
  | evaluate e =>
    rw [nodeBodies] at h
    split at h
    · exact h
    · cases h
  | _ => exact h

theorem Expr.requoted_eq_self {e : Expr} (hp : e.Every printable) (ho : e.Every orderly)
    (hq : ∀ value quote, e = .string value quote → quote = '\'') : e.requoted = e := by
  cases e with
  | string value quote =>
    obtain rfl := hq value quote rfl
    rw [requoted, Text.requoted_eq_self (.of_isContent hp.1 ho.1 ho.2)]
  | _ => rfl

theorem Arg.requote_eq_self {args : List Arg} {es : List Expr} (hp : Expr.EveryAll printable es)
    (ho : Expr.EveryAll orderly es) (hq : SingleQuoted args es) : requote args es = es := by
  have htail {arg : Arg} {args : List Arg} {e : Expr} {es : List Expr} (h : SingleQuoted (arg :: args) (e :: es)) :
      SingleQuoted args es := fun pair hm => h pair (List.mem_cons_of_mem _ hm)
  fun_induction requote args es with
  | case1 f args e es hf ih =>
    have he : e.requoted = e := by
      apply Expr.requoted_eq_self hp.1 ho.1
      exact hq (.field f, e) List.mem_cons_self (by rw [isQuoted, hf]; rfl)
    rw [he, ih hp.2 ho.2 (htail hq)]
  | case2 f args e es hf ih => rw [ih hp.2 ho.2 (htail hq)]
  | case3 => rfl
  | case4 params optional args e es ih => rw [ih hp.2 ho.2 (htail hq)]
  | case5 => rfl

/-- Is the lexeme one that the callees of entries are made of? -/
def Lexeme.inPath (l : Lexeme) : Bool :=
  match l.kind with
  | .identifier | .string => true
  | _ => [".", ":", "[", "]"].contains (String.ofList l.text)

/-- The callee of an entry is a name, or a path that starts with one. -/
theorem Catalogue.path_callee : ∀ e ∈ entries, (path e.callee).all Lexeme.inPath = true ∧
    (path e.callee).head?.map Lexeme.kind = some .identifier := by
  decide +kernel

theorem BinaryOp.inPath_lexeme (op : BinaryOp) : op.lexeme.inPath = false := by
  cases op <;> decide

theorem Expr.isBarePrefix_of_inPath {e : Expr} (h : e.lexemes.all Lexeme.inPath = true)
    (hhead : e.lexemes.head?.map Lexeme.kind = some .identifier) : e.isBarePrefix = true := by
  cases e with
  | identifier | call | methodCall | member | index => rfl
  | binary op left right =>
    rw [Expr.lexemes, List.all_append, List.all_cons, op.inPath_lexeme, Bool.false_and, Bool.and_false] at h
    cases h
  | unary op operand =>
    rw [Expr.lexemes] at hhead
    cases op <;> cases hhead
  | _ =>
    rw [Expr.lexemes] at hhead
    cases hhead

/-- A call that spells the callee of an entry is spelled as the entry's own call. -/
theorem Expr.lexemes_of_call? {e : Expr} {entry : Entry} {args : List Expr} (he : entry ∈ Catalogue.entries)
    (hc : e.call? = some (entry.callee, args)) (hp : e.Every printable) :
    e.lexemes = path entry.callee ++ mark "(" :: (commas (Expr.lexemesAll args) ++ [mark ")"]) := by
  obtain ⟨hall, hhead⟩ := Catalogue.path_callee entry he
  cases e with
  | call callee es =>
    obtain ⟨htext, rfl⟩ := Prod.mk.inj (Option.some.inj hc)
    have hspelled := (printable_cases (rfl : Text.isBlankText defaultIndent = true)).expr callee hp.2.1
    have hpath : path entry.callee = callee.lexemes := by
      rw [← htext]
      exact (hspelled.spells 0 none rfl).lexemesOf_pieces
    rw [hpath] at hall hhead ⊢
    rw [Expr.lexemes, Expr.isBarePrefix_of_inPath hall hhead]
    rfl
  | methodCall object method es =>
    obtain ⟨htext, rfl⟩ := Prod.mk.inj (Option.some.inj hc)
    have hspelled := (printable_cases (rfl : Text.isBlankText defaultIndent = true)).expr object hp.2.1
    have hpath : path entry.callee = object.lexemes ++ [mark ":", name method] := by
      rw [← htext]
      exact ((hspelled.spells 0 (some ':') rfl).colon hp.1 rfl).lexemesOf_pieces
    rw [hpath] at hall hhead ⊢
    have hfirst : object.lexemes.head?.map Lexeme.kind = some .identifier := by
      obtain ⟨l, ls, hls⟩ := List.exists_cons_of_ne_nil (Expr.lexemes_ne_nil object)
      rwa [hls] at hhead ⊢
    rw [List.all_append, Bool.and_eq_true] at hall
    rw [Expr.lexemes, Expr.isBarePrefix_of_inPath hall.1 hfirst]
    simp [enclosed]
  | _ => cases hc

theorem Expr.lexemesAll_canonicalHandler {args : List Expr}
    (h : Stmt.lexemesAll (Stmt.canonicalAll (Expr.handler args)) = Stmt.lexemesAll (Expr.handler args)) :
    Expr.lexemesAll (Expr.canonicalHandler args) = Expr.lexemesAll args := by
  induction args with
  | nil => rw [canonicalHandler]
  | cons e args ih =>
    rcases e.function_or with ⟨names, body, rfl⟩ | he
    · rw [handler] at h
      rw [canonicalHandler, lexemesAll, lexemesAll, lexemes, lexemes, h]
    · have hsame : handler (e :: args) = handler args := by
        cases e with
        | function => cases he
        | _ => rfl
      rw [hsame] at h
      rw [canonicalHandler_cons he, lexemesAll, lexemesAll, ih h]

theorem Expr.lexemes_canonical {e : Expr} (hp : e.Every printable) (ho : e.Every orderly)
    (hc : (Action.evaluate e).IsCanonical) (hb : ∀ body ∈ (Action.evaluate e).nodeBodies,
      Stmt.lexemesAll (Stmt.canonicalAll body) = Stmt.lexemesAll body) : e.canonical.lexemes = e.lexemes := by
  rcases e.canonical_cases with hsame | ⟨callee, args, m, hcall, hm, hcanonical⟩
  · rw [hsame]
  · obtain ⟨rfl, hquoted⟩ := hc callee args m hcall hm
    have hfits := fits_of_some hcall hm
    have hhandler := hb (handler args) (by rw [Action.nodeBodies, if_pos hfits]; exact handler_mem_bodies hcall)
    have he := CallMatch.mem_entries hm
    rw [hcanonical, Arg.requote_canonicalHandler, Arg.requote_eq_self (hp.arguments hcall) (ho.arguments hcall) hquoted,
      Entry.lexemes_call he, lexemes_of_call? he hcall hp, lexemesAll_canonicalHandler hhandler]

theorem Action.alternateLexemes_canonicalAll {body : List Stmt}
    (h : Stmt.lexemesAll (Stmt.canonicalAll body) = Stmt.lexemesAll body) :
    alternateLexemes (some (Stmt.canonicalAll body)) = alternateLexemes (some body) := by
  by_cases hc : ∃ line condition consequent rest, body = [.mk line (.conditional condition consequent rest)]
  · obtain ⟨line, condition, consequent, rest, rfl⟩ := hc
    have hlone : Stmt.canonicalAll [.mk line (.conditional condition consequent rest)] =
        [.mk line (.conditional condition (Stmt.canonicalAll consequent) (canonicalAlternate rest))] := by
      simp [Stmt.canonicalAll, Stmt.canonical, canonical]
    rw [hlone] at h ⊢
    simp only [Stmt.lexemesAll, Stmt.lexemes, Action.lexemes, List.append_nil] at h
    rw [alternateLexemes, alternateLexemes, (List.cons.inj h).2]
  · push Not at hc
    rw [alternateLexemes_of_ne hc, alternateLexemes_of_ne, h]
    intro line condition consequent rest heq
    obtain ⟨consequent, rest, hlone⟩ := Stmt.eq_conditional_of_canonicalAll heq
    exact hc _ _ _ _ hlone

/-- The statements that the nodes are written as have the lexemes of the program. -/
theorem Stmt.lexemesAll_canonicalAll (ss : List Stmt) : Stmt.EveryAll printable ss → Stmt.EveryAll orderly ss →
    (ss ≠ [] → ReturnLast ss) → Stmt.OnNodes Action.IsCanonical ss →
    Stmt.lexemesAll (Stmt.canonicalAll ss) = Stmt.lexemesAll ss := by
  induction ss using Stmt.bodyInduction with
  | nil =>
    intro _ _ _ _
    rw [Stmt.canonicalAll]
  | cons line action ss hb hss =>
    intro hp ho hr hc
    cases hc with
    | cons _ ha hbodies hrest =>
    have hreturn := hr (List.cons_ne_nil _ _)
    have hbody : ∀ body ∈ action.nodeBodies, Stmt.lexemesAll (Stmt.canonicalAll body) = Stmt.lexemesAll body := by
      intro body hm
      have hmem := Action.mem_bodies_of_mem_nodeBodies hm
      have hbelow := ho.1.bodies body hmem
      exact hb body hmem (hp.1.bodies body hmem).2 hbelow.2 hbelow.1 (hbodies body hm)
    suffices h : action.canonical.lexemes = action.lexemes by
      rw [hreturn.canonicalAll_cons, Stmt.canonical, Stmt.lexemesAll, Stmt.lexemesAll, Stmt.lexemes, Stmt.lexemes, h,
        hss hp.2 ho.2 (fun _ => hreturn.tail) hrest]
    cases action with
    | declare | assign | giveBack | leaveLoop => rw [Action.canonical]
    | define s names body isLocal isMethod =>
      rw [Action.canonical, Action.lexemes, Action.lexemes, hbody body (by simp [Action.nodeBodies, Action.bodies])]
    | conditional condition consequent alternate =>
      have halternate : Action.alternateLexemes (Action.canonicalAlternate alternate) =
          Action.alternateLexemes alternate := by
        rcases alternate with _ | _ | ⟨s, ss⟩
        · rw [Action.canonicalAlternate]
        · exact ho.1.1.elim
        · rw [Action.canonicalAlternate_cons]
          exact Action.alternateLexemes_canonicalAll (hbody _ (by simp [Action.nodeBodies, Action.bodies]))
      rw [Action.canonical, Action.lexemes, Action.lexemes, halternate,
        hbody consequent (by simp [Action.nodeBodies, Action.bodies])]
    | whileLoop condition body =>
      rw [Action.canonical, Action.lexemes, Action.lexemes, hbody body (by simp [Action.nodeBodies, Action.bodies])]
    | forLoop counter first last step body =>
      rw [Action.canonical]
      cases step <;>
        rw [Action.lexemes, Action.lexemes, hbody body (by simp [Action.nodeBodies, Action.bodies])]
    | forEach names iterable body =>
      rw [Action.canonical, Action.lexemes, Action.lexemes, hbody body (by simp [Action.nodeBodies, Action.bodies])]
    | evaluate e =>
      rw [Action.canonical, Action.lexemes, Action.lexemes]
      exact Expr.lexemes_canonical hp.1.2 ho.1.2 ha hbody

theorem orderly_imply_unbroken : Rules.Imply orderly orderly unbroken where
  expr e h _ := by
    cases e with
    | string => exact h.1
    | _ => trivial
  field _ _ _ := trivial
  action _ _ _ := trivial
  block _ _ _ := trivial

/-- A program in which the calls of entries are written as the entries write them has the same tokens in the text of
its graph as in print. -/
theorem Rendered.tokenize_text_eq_print {s mark : String} {firstLine : Nat} {p : Program}
    (h : Program.parse (tokenize s firstLine) = .ok p) (ho : Program.Every orderly p)
    (hc : Stmt.OnNodes Action.IsCanonical p) {unit : String} (hu : Text.isBlankText unit = true) :
    (tokenize (Rendered.ofGraph {} (Graph.ofProgram (.ofSpacing {}) p mark) "").text).map Token.unplaced =
      (tokenize (Printer.program unit p)).map Token.unplaced := by
  have hp : Program.Every printable p :=
    (@imply_printable orderly fun _ _ h => h.2).program (Program.every_legible h) ho
  have hwritable := Stmt.WritableAll.of_program hp (orderly_imply_unbroken.program ho ho)
  have hrendered := Rendered.spells_ofProgram Layout.descends_ofSpacing hwritable (Program.fits_of_parse h) mark
  rw [Stmt.lexemesAll_canonicalAll p hp.2 ho.2 (fun _ => ho.1) hc] at hrendered
  have hprinted := Program.spells hu hp
  rw [hrendered.map_unplaced_tokenize, hprinted.map_unplaced_tokenize]

theorem Rendered.tokenize_text_eq_print_quoted : ∃ p,
    Program.parse (tokenize "if a then print('b') end f(g())") = .ok p ∧ Program.Every orderly p ∧
    Stmt.OnNodes Action.IsCanonical p ∧ Text.isBlankText "\t" = true ∧
    (tokenize (Rendered.ofGraph {} (Graph.ofProgram (.ofSpacing {}) p "-5b20e8d4") "").text).map Token.unplaced =
      (tokenize (Printer.program "\t" p)).map Token.unplaced := by
  have h : Program.parse (tokenize "if a then print('b') end f(g())") = .ok [.mk 1 (.conditional (.identifier "a")
      [.mk 1 (.evaluate (.call (.identifier "print") [.string "b" '\'']))] none),
      .mk 1 (.evaluate (.call (.identifier "f") [.call (.identifier "g") []]))] := by decide +kernel
  have ho : Program.Every orderly [.mk 1 (.conditional (.identifier "a")
      [.mk 1 (.evaluate (.call (.identifier "print") [.string "b" '\'']))] none),
      .mk 1 (.evaluate (.call (.identifier "f") [.call (.identifier "g") []]))] := by
    simp only [Program.Every, Stmt.EveryAll, Stmt.Every, Stmt.EveryOption, Action.Every, Expr.Every, Expr.EveryAll,
      orderly, ReturnLast, List.dropLast_singleton, List.dropLast_cons_cons, List.mem_singleton, forall_eq, Stmt.action,
      List.not_mem_nil, false_implies, implies_true, and_true, true_and, ne_eq, reduceCtorEq, not_false_eq_true]
    decide
  have hc : Stmt.OnNodes Action.IsCanonical [.mk 1 (.conditional (.identifier "a")
      [.mk 1 (.evaluate (.call (.identifier "print") [.string "b" '\'']))] none),
      .mk 1 (.evaluate (.call (.identifier "f") [.call (.identifier "g") []]))] := by
    have hprint : (Action.evaluate (.call (.identifier "print") [.string "b" '\''])).IsCanonical := by
      intro callee args m hcall hm
      obtain ⟨rfl, rfl⟩ := Prod.mk.inj (Option.some.inj hcall)
      obtain ⟨hlookup, -⟩ := CallMatch.ofCall?_eq_some_iff.mp hm
      have hentry : Catalogue.lookup? (Expr.identifier "print").text =
          some { kind := "logic-print", title := "Print", callee := "print", args := [.quoted "message" "Hello"] } := by
        decide +kernel
      rw [← Option.some.inj (hentry.symm.trans hlookup)]
      refine ⟨rfl, ?_⟩
      rintro ⟨arg, e⟩ harg - value quote rfl
      cases harg with
      | head => rfl
      | tail _ harg => cases harg
    have hother : (Action.evaluate (.call (.identifier "f") [.call (.identifier "g") []])).IsCanonical := by
      intro callee args m hcall hm
      obtain ⟨rfl, rfl⟩ := Prod.mk.inj (Option.some.inj hcall)
      obtain ⟨hlookup, -⟩ := CallMatch.ofCall?_eq_some_iff.mp hm
      have hnone : Catalogue.lookup? (Expr.identifier "f").text = none := by decide +kernel
      cases hnone.symm.trans hlookup
    -- neither call has a handler
    have hbodies {e : Expr} (h : ∀ body ∈ (Action.evaluate e).bodies, body = []) :
        ∀ body ∈ (Action.evaluate e).nodeBodies, Stmt.OnNodes Action.IsCanonical body := by
      intro body hm
      rw [h body (Action.mem_bodies_of_mem_nodeBodies hm)]
      exact .nil
    refine .cons 1 trivial ?_ (.cons 1 hother (hbodies (by simp [Action.bodies, Expr.handler])) .nil)
    refine List.forall_mem_cons.mpr ⟨?_, List.forall_mem_singleton.mpr .nil⟩
    exact .cons 1 hprint (hbodies (by simp [Action.bodies, Expr.handler])) .nil
  exact ⟨_, h, ho, hc, rfl, Rendered.tokenize_text_eq_print h ho hc rfl⟩

end ScriptGraph
