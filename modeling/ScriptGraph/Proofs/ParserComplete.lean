import ScriptGraph.Proofs.Grammar

namespace ScriptGraph

/-- The outcome is `a`, read up to `t`. With `free` the nesting may also be too deep. -/
def Outcome.Reaches {α : Type} (free : Bool) (o : Outcome α) (a : α) (t : Cursor) : Prop :=
  o = .ok a t ∨ free = true ∧ ∃ line u, o = .error (.tooDeep maxDepth line) u

namespace Parser

variable {α β σ : Type} {free : Bool}

theorem bind_of_ok {p : Parser α} {f : α → Parser β} {s t : Cursor} {a : α} (h : p s = .ok a t) :
    (p >>= f) s = f a t := by
  change Parser.bind p f s = _
  rw [Parser.bind, h]

theorem bind_of_error {p : Parser α} {f : α → Parser β} {s t : Cursor} {e : ParseError}
    (h : p s = .error e t) : (p >>= f) s = .error e t := by
  change Parser.bind p f s = _
  rw [Parser.bind, h]

/-- From depth `d` on, `p` reads the tokens as `a` and stops before `next` at depth `d'`. -/
def Accepts (free : Bool) (p : Parser α) (d : Nat) (ts : List Token) (next : Token) (d' : Nat) (a : α) : Prop :=
  ∀ rest stop, rest.headD stop = next → (p ⟨ts ++ rest, stop, d⟩).Reaches free a ⟨rest, stop, d'⟩

namespace Accepts

variable {p : Parser α} {f : α → Parser β} {d d' d'' : Nat} {ts us : List Token} {t next : Token} {a : α} {b : β}

theorem bind (hp : Accepts free p d ts (us.headD next) d' a) (hf : Accepts free (f a) d' us next d'' b) :
    Accepts free (p >>= f) d (ts ++ us) next d'' b := by
  intro rest stop hn
  have hus : (us ++ rest).headD stop = us.headD next := by rw [List.headD_append, hn]
  rw [List.append_assoc]
  rcases hp (us ++ rest) stop hus with ha | ⟨hfree, line, u, ha⟩
  · rw [bind_of_ok ha]
    exact hf rest stop hn
  · exact .inr ⟨hfree, line, u, bind_of_error ha⟩

theorem pure : Accepts free (Pure.pure a) d [] next d a :=
  fun _ _ _ => .inl rfl

/-- The last parser of a row. -/
theorem map (hp : Accepts free p d ts next d' a) (g : α → β) :
    Accepts free (p >>= fun a => Pure.pure (g a)) d ts next d' (g a) := by
  intro rest stop hn
  rcases hp rest stop hn with ha | ⟨hfree, line, u, ha⟩
  · exact .inl (bind_of_ok ha)
  · exact .inr ⟨hfree, line, u, bind_of_error ha⟩

/-- The parser behind takes nothing. -/
theorem bind_end (hp : Accepts free p d ts next d' a) (hf : Accepts free (f a) d' [] next d'' b) :
    Accepts free (p >>= f) d ts next d'' b := by
  intro rest stop hn
  rcases hp rest stop hn with ha | ⟨hfree, line, u, ha⟩
  · rw [bind_of_ok ha]
    exact hf rest stop hn
  · exact .inr ⟨hfree, line, u, bind_of_error ha⟩

theorem look_bind {g : Token → α} (ha : g (ts.headD next) = a) (hf : Accepts free (f a) d ts next d' b) :
    Accepts free (look (fun s => g s.peek) >>= f) d ts next d' b := by
  intro rest stop hn
  have hpeek : Cursor.peek ⟨ts ++ rest, stop, d⟩ = ts.headD next := by
    unfold Cursor.peek
    rw [List.headD_append, hn]
  have hlook : look (fun s => g s.peek) ⟨ts ++ rest, stop, d⟩ = .ok a ⟨ts ++ rest, stop, d⟩ := by
    unfold look
    dsimp only
    rw [hpeek, ha]
  rw [bind_of_ok hlook]
  exact hf rest stop hn

theorem lookTwo_bind {g : Token → Token → α} (hne : ts ≠ [])
    (ha : g (ts.headD next) (ts.tail.headD next) = a) (hf : Accepts free (f a) d ts next d' b) :
    Accepts free (look (fun s => g s.peek s.peekNext) >>= f) d ts next d' b := by
  intro rest stop hn
  obtain ⟨v, vs, rfl⟩ := List.exists_cons_of_ne_nil hne
  have hnext : Cursor.peekNext ⟨v :: vs ++ rest, stop, d⟩ = vs.headD next := by
    unfold Cursor.peekNext
    rw [List.cons_append, List.tail_cons, List.headD_append, hn]
  have hlook : look (fun s => g s.peek s.peekNext) ⟨v :: vs ++ rest, stop, d⟩ =
      .ok a ⟨v :: vs ++ rest, stop, d⟩ := by
    unfold look
    dsimp only
    rw [hnext, ← ha]
    rfl
  rw [bind_of_ok hlook]
  exact hf rest stop hn

/-- A parser that takes just the token ahead. -/
theorem token_bind (hp : ∀ rest stop, p ⟨t :: rest, stop, d⟩ = .ok a ⟨rest, stop, d⟩)
    (hf : Accepts free (f a) d ts next d' b) : Accepts free (p >>= f) d (t :: ts) next d' b := by
  intro rest stop hn
  rw [List.cons_append, bind_of_ok (hp _ _)]
  exact hf rest stop hn

theorem next_eq_ok (ht : t.isEof = false) (rest : List Token) (stop : Token) :
    Parser.next ⟨t :: rest, stop, d⟩ = .ok t ⟨rest, stop, d⟩ := by
  simp [Parser.next, Cursor.peek, Cursor.advance, ht]

theorem expect_eq_ok {text : String} (ht : t.is text = true) (rest : List Token) (stop : Token) :
    Parser.expect text ⟨t :: rest, stop, d⟩ = .ok () ⟨rest, stop, d⟩ := by
  simp [Parser.expect, Cursor.check, Cursor.peek, Cursor.advance, ht, Token.isEof_of_is ht]

theorem eat_eq_ok {text : String} (ht : t.is text = true) (rest : List Token) (stop : Token) :
    Parser.eat text ⟨t :: rest, stop, d⟩ = .ok true ⟨rest, stop, d⟩ := by
  simp [Parser.eat, Cursor.check, Cursor.peek, Cursor.advance, ht, Token.isEof_of_is ht]

theorem identifier_eq_ok (ht : t.isName = true) (rest : List Token) (stop : Token) :
    Parser.identifier ⟨t :: rest, stop, d⟩ = .ok t.text ⟨rest, stop, d⟩ := by
  simp [Parser.identifier, Cursor.peek, Cursor.advance, Token.isName_iff.mp ht, Token.isEof_of_isName ht]

theorem next_bind {f : Token → Parser β} (ht : t.isEof = false) (hf : Accepts free (f t) d ts next d' b) :
    Accepts free (Parser.next >>= f) d (t :: ts) next d' b :=
  token_bind (next_eq_ok ht) hf

theorem expect_bind {text : String} {f : Unit → Parser β} (ht : t.is text = true)
    (hf : Accepts free (f ()) d ts next d' b) : Accepts free (expect text >>= f) d (t :: ts) next d' b :=
  token_bind (expect_eq_ok ht) hf

theorem eat_bind {text : String} {f : Bool → Parser β} (ht : t.is text = true)
    (hf : Accepts free (f true) d ts next d' b) : Accepts free (eat text >>= f) d (t :: ts) next d' b :=
  token_bind (eat_eq_ok ht) hf

theorem identifier_bind {f : String → Parser β} (ht : t.isName = true)
    (hf : Accepts free (f t.text) d ts next d' b) : Accepts free (identifier >>= f) d (t :: ts) next d' b :=
  token_bind (identifier_eq_ok ht) hf

theorem eat_bind_none {text : String} {f : Bool → Parser β} (ht : (ts.headD next).is text = false)
    (hf : Accepts free (f false) d ts next d' b) : Accepts free (eat text >>= f) d ts next d' b := by
  intro rest stop hn
  have hcheck : Cursor.check ⟨ts ++ rest, stop, d⟩ text = false := by
    unfold Cursor.check Cursor.peek
    rw [List.headD_append, hn]
    exact ht
  have heat : eat text ⟨ts ++ rest, stop, d⟩ = .ok false ⟨ts ++ rest, stop, d⟩ := by
    unfold eat
    rw [if_neg (by rw [hcheck]; decide)]
  rw [bind_of_ok heat]
  exact hf rest stop hn

theorem maybe_bind {text : String} {f : Bool → Parser β} (hm : Maybe text us (ts.headD next))
    (hf : ∀ c, Accepts free (f c) d ts next d' b) : Accepts free (eat text >>= f) d (us ++ ts) next d' b := by
  rcases hm with ⟨t, ht, rfl⟩ | ⟨rfl, hn⟩
  · exact eat_bind ht (hf true)
  · exact eat_bind_none hn (hf false)

theorem maybe_map {text : String} (hm : Maybe text us next) :
    Accepts free (eat text >>= fun _ => Pure.pure b) d us next d b := by
  rcases hm with ⟨t, ht, rfl⟩ | ⟨rfl, hn⟩
  · exact eat_bind ht pure
  · exact eat_bind_none hn pure

theorem enter_bind {f : Unit → Parser β} (hd : Fits free d) (hf : Accepts free (f ()) (d + 1) ts next d' b) :
    Accepts free (enter >>= f) d ts next d' b := by
  intro rest stop hn
  by_cases hmax : d < maxDepth
  · have henter : enter ⟨ts ++ rest, stop, d⟩ = .ok () ⟨ts ++ rest, stop, d + 1⟩ := by
      unfold enter
      dsimp only
      rw [if_neg (by omega)]
    rw [bind_of_ok henter]
    exact hf rest stop hn
  · have henter : enter ⟨ts ++ rest, stop, d⟩ =
        .error (.tooDeep maxDepth (Cursor.peek ⟨ts ++ rest, stop, d⟩).line) ⟨ts ++ rest, stop, d + 1⟩ := by
      unfold enter
      dsimp only
      rw [if_pos (by omega)]
    exact .inr ⟨hd.resolve_right hmax, _, _, bind_of_error henter⟩

theorem within (hd : Fits free d) (hp : Accepts free p (d + 1) ts next (d + 1) a) :
    Accepts free (Parser.within p) d ts next d a := by
  intro rest stop hn
  unfold Parser.within Parser.enter
  dsimp only
  by_cases hmax : d < maxDepth
  · rw [if_neg (by omega)]
    dsimp only
    rcases hp rest stop hn with ha | ⟨hfree, line, u, ha⟩
    · exact .inl (by rw [ha]; rfl)
    · exact .inr ⟨hfree, line, _, by rw [ha]⟩
  · rw [if_pos (by omega)]
    exact .inr ⟨hd.resolve_right hmax, _, _, rfl⟩

theorem chained (hp : Accepts free p d ts next d' a) : Accepts free (Parser.chained p) d ts next d a := by
  intro rest stop hn
  unfold Parser.chained
  rcases hp rest stop hn with ha | ⟨hfree, line, u, ha⟩
  · exact .inl (by rw [ha])
  · exact .inr ⟨hfree, line, _, by rw [ha]⟩

theorem map_bind {γ : Type} {g : γ → α} {q : Parser γ} (h : Accepts free (q >>= fun c => f (g c)) d ts next d' b) :
    Accepts free (g <$> q >>= f) d ts next d' b := by
  intro rest stop hn
  have heq : (g <$> q >>= f) ⟨ts ++ rest, stop, d⟩ = (q >>= fun c => f (g c)) ⟨ts ++ rest, stop, d⟩ := by
    cases hq : q ⟨ts ++ rest, stop, d⟩ with
    | ok c t =>
      have hm : (g <$> q) ⟨ts ++ rest, stop, d⟩ = .ok (g c) t := bind_of_ok hq
      rw [bind_of_ok hm, bind_of_ok hq]
    | error e t =>
      have hm : (g <$> q) ⟨ts ++ rest, stop, d⟩ = .error e t := bind_of_error hq
      rw [bind_of_error hm, bind_of_error hq]
  rw [heq]
  exact h rest stop hn

end Accepts

/-- From `a` on, the loop reads the tokens and comes to `c`. -/
def Loops (free : Bool) (step : α → Parser (Option α)) (a : α) (d : Nat) (ts : List Token) (next : Token)
    (d' : Nat) (c : α) : Prop :=
  ∀ rest stop budget, rest.headD stop = next → (ts ++ rest).length < budget.length →
    (iterateWithin step budget a ⟨ts ++ rest, stop, d⟩).Reaches free c ⟨rest, stop, d'⟩

/-- From `x` on, the loop reads the tokens and yields the items `as`. -/
def Unfolds (free : Bool) (step : σ → Parser (Option (α × σ))) (x : σ) (d : Nat) (ts : List Token)
    (next : Token) (d' : Nat) (as : List α) : Prop :=
  ∀ rest stop budget, rest.headD stop = next → (ts ++ rest).length < budget.length →
    (unfoldWithin step budget x ⟨ts ++ rest, stop, d⟩).Reaches free as ⟨rest, stop, d'⟩

section Loops

variable {step : α → Parser (Option α)} {a b c : α} {d d' d'' : Nat} {ts us : List Token} {next : Token}

theorem Loops.done (h : Accepts free (step a) d [] next d' none) : Loops free step a d [] next d' a := by
  intro rest stop budget hn hb
  cases budget with
  | nil => simp at hb
  | cons _ budget =>
    rcases h rest stop hn with ha | ⟨hfree, line, u, ha⟩
    · exact .inl (bind_of_ok ha)
    · exact .inr ⟨hfree, line, u, bind_of_error ha⟩

theorem Loops.more (h : Accepts free (step a) d ts (us.headD next) d' (some b)) (hne : ts ≠ [])
    (hr : Loops free step b d' us next d'' c) : Loops free step a d (ts ++ us) next d'' c := by
  intro rest stop budget hn hb
  cases budget with
  | nil => simp at hb
  | cons v budget =>
    have hus : (us ++ rest).headD stop = us.headD next := by rw [List.headD_append, hn]
    have hlen := List.length_pos_iff.mpr hne
    simp only [List.length_append, List.length_cons] at hb
    rw [List.append_assoc]
    rcases h (us ++ rest) stop hus with ha | ⟨hfree, line, u, ha⟩
    · have hrest := hr rest stop budget hn (by simp only [List.length_append]; omega)
      have hstep : iterateWithin step (v :: budget) a ⟨ts ++ (us ++ rest), stop, d⟩ =
          iterateWithin step budget b ⟨us ++ rest, stop, d'⟩ := bind_of_ok ha
      rwa [hstep]
    · exact .inr ⟨hfree, line, u, bind_of_error ha⟩

theorem Loops.iterate (h : Loops free step a d ts next d' c) :
    Accepts free (Parser.iterate a step) d ts next d' c :=
  fun rest stop hn => h rest stop _ hn (by simp [Cursor.budget])

end Loops

section Unfolds

variable {step : σ → Parser (Option (α × σ))} {x y : σ} {a : α} {as : List α} {d d' d'' : Nat}
  {ts us : List Token} {next : Token}

theorem Unfolds.done (h : Accepts free (step x) d [] next d' none) : Unfolds free step x d [] next d' [] := by
  intro rest stop budget hn hb
  cases budget with
  | nil => simp at hb
  | cons _ budget =>
    rcases h rest stop hn with ha | ⟨hfree, line, u, ha⟩
    · exact .inl (bind_of_ok ha)
    · exact .inr ⟨hfree, line, u, bind_of_error ha⟩

theorem Unfolds.more (h : Accepts free (step x) d ts (us.headD next) d' (some (a, y))) (hne : ts ≠ [])
    (hr : Unfolds free step y d' us next d'' as) : Unfolds free step x d (ts ++ us) next d'' (a :: as) := by
  intro rest stop budget hn hb
  cases budget with
  | nil => simp at hb
  | cons v budget =>
    have hus : (us ++ rest).headD stop = us.headD next := by rw [List.headD_append, hn]
    have hlen := List.length_pos_iff.mpr hne
    simp only [List.length_append, List.length_cons] at hb
    rw [List.append_assoc]
    rcases h (us ++ rest) stop hus with ha | ⟨hfree, line, u, ha⟩
    · have hrest := hr rest stop budget hn (by simp only [List.length_append]; omega)
      have hstep : unfoldWithin step (v :: budget) x ⟨ts ++ (us ++ rest), stop, d⟩ =
          (unfoldWithin step budget y >>= fun rest => Pure.pure (a :: rest)) ⟨us ++ rest, stop, d'⟩ :=
        bind_of_ok ha
      rw [hstep]
      rcases hrest with hu | ⟨hfree, line, u, hu⟩
      · exact .inl (bind_of_ok hu)
      · exact .inr ⟨hfree, line, u, bind_of_error hu⟩
    · exact .inr ⟨hfree, line, u, bind_of_error ha⟩

theorem Unfolds.unfold (h : Unfolds free step x d ts next d' as) :
    Accepts free (Parser.unfold x step) d ts next d' as :=
  fun rest stop hn => h rest stop _ hn (by simp [Cursor.budget])

end Unfolds

section Names

variable {d : Nat} {ts us : List Token} {t m next : Token}

theorem accepts_paramNames {names : List String} (h : ParamNames names ts next) :
    Unfolds free parameterStep true d ts next d names := by
  have hend {next : Token} : Unfolds free parameterStep false d [] next d [] := .done .pure
  have hstep {ts : List Token} {next : Token} {a : String × Bool} (h : Accepts free parameter d ts next d a) :
      Accepts free (parameterStep true) d ts next d (some a) := h.map some
  induction h with
  | @ellipsis t next ht =>
    have hname : Accepts free parameter d [t] next d ("...", false) := .eat_bind ht .pure
    exact .more (hstep hname) (List.cons_ne_nil _ _) hend
  | @last t next ht hn =>
    have hname : Accepts free parameter d [t] next d (t.text, false) :=
      .eat_bind_none (Token.is_eq_false_of_isName ht _) (.identifier_bind ht (.eat_bind_none hn .pure))
    exact .more (hstep hname) (List.cons_ne_nil _ _) hend
  | @cons t u next names ts ht hu _ ih =>
    have hname : Accepts free parameter d [t, u] (ts.headD next) d (t.text, true) :=
      .eat_bind_none (Token.is_eq_false_of_isName ht _) (.identifier_bind ht (.eat_bind hu .pure))
    exact .more (hstep hname) (List.cons_ne_nil _ _) ih

theorem accepts_parameters {names : List String} (h : Params names ts next) :
    Accepts free parameters d ts next d names := by
  cases h with
  | none ht hu => exact .expect_bind ht (.look_bind (g := fun t => t.is ")") hu (.expect_bind hu .pure))
  | @some t u next names ts ht hs h hu =>
    have hlook : ((ts ++ [u]).headD next).is ")" = false := by
      rw [List.headD_append]
      exact hs
    exact .expect_bind ht (.look_bind (g := fun t => t.is ")") hlook
      ((accepts_paramNames h).unfold.bind (.expect_bind hu .pure)))

theorem accepts_path {a b : String × Bool} (h : Path a b ts next) : Loops free pathStep a d ts next d b := by
  induction h with
  | @done s isMethod next h =>
    cases isMethod with
    | true => exact .done .pure
    | false =>
      have hn := h.resolve_left (by decide)
      exact .done (.eat_bind_none hn.1 (.eat_bind_none hn.2 .pure))
  | @dot s whole t m next ts ht hm _ ih =>
    have hstep : Accepts free (pathStep (s, false)) d [t, m] (ts.headD next) d
        (some (s ++ "." ++ m.text, false)) := .eat_bind ht (.identifier_bind hm .pure)
    exact .more hstep (List.cons_ne_nil _ _) ih
  | @colon s whole t m next ts ht hm _ ih =>
    have hdot : t.is "." = false := Token.is_eq_false ht (by decide)
    have hstep : Accepts free (pathStep (s, false)) d [t, m] (ts.headD next) d
        (some (s ++ ":" ++ m.text, true)) := .eat_bind_none hdot (.eat_bind ht (.identifier_bind hm .pure))
    exact .more hstep (List.cons_ne_nil _ _) ih

theorem accepts_functionName {a : String × Bool} (hm : m.isName = true) (h : Path (m.text, false) a ts next) :
    Accepts free functionName d (m :: ts) next d a :=
  .identifier_bind hm (accepts_path h).iterate

theorem accepts_moreNames {names : List String} (h : MoreNames names ts next) :
    Accepts free (many nameStep) d ts next d names := by
  have hloop : Unfolds free (manyStep nameStep) () d ts next d names := by
    induction h with
    | @done next h =>
      have hname : Accepts free nameStep d [] next d none := .eat_bind_none h .pure
      exact .done (hname.map _)
    | @cons t m next names ts ht hm _ ih =>
      have hname : Accepts free nameStep d [t, m] (ts.headD next) d (some m.text) :=
        .eat_bind ht (.identifier_bind hm .pure)
      exact .more (hname.map _) (List.cons_ne_nil _ _) ih
  exact hloop.unfold

end Names

section Expressions

variable {inner : Nested} {d d' : Nat} {ts us : List Token} {t u m next : Token} {a b e : Expr} {k : Level}

theorem accepts_chain (hk : k.isChain = true) (ha : Accepts free (ofLevel inner k.below) d ts (us.headD next) d a)
    (hl : Loops free (chainStep k.ops (ofLevel inner k.below)) a d us next d' e) :
    Accepts free (ofLevel inner k) d (ts ++ us) next d e := by
  rw [ofLevel_of_isChain inner hk, leftChain_eq]
  exact (ha.bind hl.iterate).chained

theorem loops_chainEnd {item : Parser Expr} {ops : List BinaryOp} (h : next.binaryOp? ops = none) :
    Loops free (chainStep ops item) a d [] next d a :=
  .done (.look_bind (g := fun t => t.binaryOp? ops) h .pure)

theorem loops_chainStep {item : Parser Expr} {ops : List BinaryOp} {op : BinaryOp}
    (ht : t.binaryOp? ops = some op) (hd : Fits free d)
    (hb : Accepts free item (d + 1) ts (us.headD next) (d + 1) b)
    (hl : Loops free (chainStep ops item) (.binary op a b) (d + 1) us next d' e) :
    Loops free (chainStep ops item) a d (t :: (ts ++ us)) next d' e := by
  have hne : t.isEof = false := Token.isEof_of_is (Token.is_of_binaryOp? ht).2
  have hstep : Accepts free (chainStep ops item a) d (t :: ts) (us.headD next) (d + 1) (some (.binary op a b)) :=
    .look_bind (g := fun t => t.binaryOp? ops) ht (.enter_bind hd (.next_bind hne (hb.map _)))
  exact .more hstep (List.cons_ne_nil _ _) hl

theorem accepts_access (ha : Accepts free (primary inner) d ts (us.headD next) d a)
    (hl : Loops free (trailer inner) a d us next d' e) : Accepts free (access inner) d (ts ++ us) next d e :=
  (ha.bind hl.iterate).chained

theorem opensTrailer_of_is {text : String} (h : t.is text = true) (hm : text ∈ ["(", ":", ".", "["]) :
    t.opensTrailer = true :=
  List.any_eq_true.mpr ⟨text, hm, h⟩

theorem loops_call {es : List Expr} (hd : Fits free d) (hs : (ts.headD (us.headD next)).is "(" = true)
    (hne : ts ≠ []) (h : Accepts free (arguments inner) (d + 1) ts (us.headD next) (d + 1) es)
    (hl : Loops free (trailer inner) (.call a es) (d + 1) us next d' e) :
    Loops free (trailer inner) a d (ts ++ us) next d' e := by
  have hstep : Accepts free (trailer inner a) d ts (us.headD next) (d + 1) (some (.call a es)) :=
    .look_bind (g := Token.opensTrailer) (opensTrailer_of_is hs (by simp))
      (.enter_bind hd (.look_bind (g := fun t => t.is "(") hs (h.map _)))
  exact .more hstep hne hl

theorem loops_methodCall {es : List Expr} (hd : Fits free d) (ht : t.is ":" = true) (hm : m.isName = true)
    (h : Accepts free (arguments inner) (d + 1) ts (us.headD next) (d + 1) es)
    (hl : Loops free (trailer inner) (.methodCall a m.text es) (d + 1) us next d' e) :
    Loops free (trailer inner) a d (t :: m :: (ts ++ us)) next d' e := by
  have hparen : t.is "(" = false := Token.is_eq_false ht (by decide)
  have hstep : Accepts free (trailer inner a) d (t :: m :: ts) (us.headD next) (d + 1)
      (some (.methodCall a m.text es)) :=
    .look_bind (g := Token.opensTrailer) (opensTrailer_of_is ht (by simp))
      (.enter_bind hd (.look_bind (g := fun t => t.is "(") hparen
        (.eat_bind ht (.identifier_bind hm (h.map _)))))
  exact .more hstep (List.cons_ne_nil _ _) hl

theorem loops_member (hd : Fits free d) (ht : t.is "." = true) (hm : m.isName = true)
    (hl : Loops free (trailer inner) (.member a m.text) (d + 1) us next d' e) :
    Loops free (trailer inner) a d (t :: m :: us) next d' e := by
  have hparen : t.is "(" = false := Token.is_eq_false ht (by decide)
  have hcolon : t.is ":" = false := Token.is_eq_false ht (by decide)
  have hstep : Accepts free (trailer inner a) d [t, m] (us.headD next) (d + 1) (some (.member a m.text)) :=
    .look_bind (g := Token.opensTrailer) (opensTrailer_of_is ht (by simp))
      (.enter_bind hd (.look_bind (g := fun t => t.is "(") hparen
        (.eat_bind_none hcolon (.eat_bind ht (.identifier_bind hm .pure)))))
  exact .more hstep (List.cons_ne_nil _ _) hl

theorem loops_index {key : Expr} (hd : Fits free d) (ht : t.is "[" = true) (hu : u.is "]" = true)
    (h : Accepts free inner.expression (d + 1) ts u (d + 1) key)
    (hl : Loops free (trailer inner) (.index a key) (d + 1) us next d' e) :
    Loops free (trailer inner) a d (t :: (ts ++ u :: us)) next d' e := by
  have hparen : t.is "(" = false := Token.is_eq_false ht (by decide)
  have hcolon : t.is ":" = false := Token.is_eq_false ht (by decide)
  have hdot : t.is "." = false := Token.is_eq_false ht (by decide)
  have hstep : Accepts free (trailer inner a) d (t :: (ts ++ [u])) (us.headD next) (d + 1) (some (.index a key)) :=
    .look_bind (g := Token.opensTrailer) (opensTrailer_of_is ht (by simp))
      (.enter_bind hd (.look_bind (g := fun t => t.is "(") hparen
        (.eat_bind_none hcolon (.eat_bind_none hdot (.expect_bind ht (h.bind (.expect_bind hu .pure)))))))
  have := Loops.more hstep (List.cons_ne_nil _ _) hl
  simpa using this

theorem accepts_concat (ha : Accepts free (sum inner) d ts t d a) (ht : t.is ".." = true)
    (hb : Accepts free inner.concat d us next d b) :
    Accepts free (concatenation inner) d (ts ++ t :: us) next d (.binary .concat a b) :=
  ha.bind (.eat_bind ht (hb.map _))

theorem accepts_concatEnd (ha : Accepts free (sum inner) d ts next d a) (hn : next.is ".." = false) :
    Accepts free (concatenation inner) d ts next d a :=
  ha.bind_end (.eat_bind_none hn .pure)

theorem accepts_power (ha : Accepts free (access inner) d ts t d a) (ht : t.is "^" = true)
    (hb : Accepts free inner.operand d us next d b) :
    Accepts free (power inner) d (ts ++ t :: us) next d (.binary .pow a b) :=
  ha.bind (.eat_bind ht (hb.map _))

theorem accepts_powerEnd (ha : Accepts free (access inner) d ts next d a) (hn : next.is "^" = false) :
    Accepts free (power inner) d ts next d a :=
  ha.bind_end (.eat_bind_none hn .pure)

theorem accepts_unary {op : UnaryOp} (ht : t.unaryOp? = some op) (ha : Accepts free inner.operand d ts next d a) :
    Accepts free (unary inner) d (t :: ts) next d (.unary op a) :=
  .look_bind (g := Token.unaryOp?) ht (.next_bind (Token.isEof_of_unaryOp? ht) (ha.map _))

theorem accepts_unaryEnd (hs : (ts.headD next).unaryOp? = none) (ha : Accepts free (power inner) d ts next d a) :
    Accepts free (unary inner) d ts next d a :=
  .look_bind (g := Token.unaryOp?) hs ha

theorem unfolds_one (hne : ts ≠ []) (h : Accepts free inner.expression d ts next d e)
    (hn : next.is "," = false) :
    Unfolds free (separatedStep inner.expression (eat ",")) true d ts next d [e] := by
  have hend : Unfolds free (separatedStep inner.expression (eat ",")) false d [] next d [] := .done .pure
  have hstep : Accepts free (separatedStep inner.expression (eat ",") true) d ts next d (some (e, false)) :=
    h.bind_end (.eat_bind_none hn .pure)
  have := Unfolds.more hstep hne hend
  simpa using this

theorem unfolds_cons {es : List Expr} (h : Accepts free inner.expression d ts t d e) (ht : t.is "," = true)
    (hr : Unfolds free (separatedStep inner.expression (eat ",")) true d us next d es) :
    Unfolds free (separatedStep inner.expression (eat ",")) true d (ts ++ t :: us) next d (e :: es) := by
  have hstep : Accepts free (separatedStep inner.expression (eat ",") true) d (ts ++ [t]) (us.headD next) d
      (some (e, true)) := h.bind (.eat_bind ht .pure)
  have := Unfolds.more hstep (by simp) hr
  simpa using this

theorem accepts_arguments {es : List Expr} (ht : t.is "(" = true) (hs : (ts.headD u).is ")" = false)
    (h : Unfolds free (separatedStep inner.expression (eat ",")) true d ts u d es) (hu : u.is ")" = true) :
    Accepts free (arguments inner) d (t :: (ts ++ [u])) next d es := by
  have hlook : ((ts ++ [u]).headD next).is ")" = false := by
    rw [List.headD_append]
    exact hs
  exact .expect_bind ht (.look_bind (g := fun t => t.is ")") hlook (h.unfold.bind (.expect_bind hu .pure)))

theorem accepts_keyed {key value : Expr} {v : Token} (ht : t.is "[" = true)
    (hk : Accepts free inner.expression d ts u d key) (hu : u.is "]" = true) (hv : v.is "=" = true)
    (h : Accepts free inner.expression d us next d value) :
    Accepts free (tableField inner) d (t :: (ts ++ u :: v :: us)) next d (.keyed key value) :=
  .eat_bind ht (hk.bind (.expect_bind hu (.expect_bind hv (h.map _))))

theorem accepts_named {value : Expr} (ht : t.isName = true) (hu : u.is "=" = true)
    (h : Accepts free inner.expression d ts next d value) :
    Accepts free (tableField inner) d (t :: u :: ts) next d (.named t.text value) := by
  have hlook : (t.kind = .identifier && u.is "=") = true := by
    simp [Token.isName_iff.mp ht, hu]
  exact .eat_bind_none (Token.is_eq_false_of_isName ht _)
    (.lookTwo_bind (g := fun t u => t.kind = .identifier && u.is "=") (List.cons_ne_nil _ _) hlook
      (.next_bind (Token.isEof_of_isName ht) (.next_bind (Token.isEof_of_is hu) (h.map _))))

theorem accepts_positional {value : Expr} (hne : ts ≠ []) (hs : (ts.headD next).is "[" = false)
    (hn : ((ts.headD next).isName && (ts.tail.headD next).is "=") = false)
    (h : Accepts free inner.expression d ts next d value) :
    Accepts free (tableField inner) d ts next d (.positional value) :=
  .eat_bind_none hs (.lookTwo_bind (g := fun t u => t.kind = .identifier && u.is "=") hne hn (h.map _))

theorem unfolds_fieldsLast {f : TableField} (hne : ts ≠ []) (hs : (ts.headD next).closesFields = false)
    (h : Accepts free (tableField inner) d ts next d f) (hc : next.is "," = false) (hn : next.is ";" = false) :
    Unfolds free (fieldStep inner) true d ts next d [f] := by
  have hend : Unfolds free (fieldStep inner) false d [] next d [] :=
    .done (.look_bind (g := Token.closesFields) rfl .pure)
  have hstep : Accepts free (fieldStep inner true) d ts next d (some (f, false)) :=
    .look_bind (g := Token.closesFields) hs (h.bind_end (.eat_bind_none hc (.eat_bind_none hn .pure)))
  have := Unfolds.more hstep hne hend
  simpa using this

theorem unfolds_fieldsCons {f : TableField} {fs : List TableField} (hs : (ts.headD t).closesFields = false)
    (h : Accepts free (tableField inner) d ts t d f) (ht : t.is "," = true ∨ t.is ";" = true)
    (hr : Unfolds free (fieldStep inner) true d us next d fs) :
    Unfolds free (fieldStep inner) true d (ts ++ t :: us) next d (f :: fs) := by
  have hlook : ((ts ++ [t]).headD (us.headD next)).closesFields = false := by
    rw [List.headD_append]
    exact hs
  have hstep : Accepts free (fieldStep inner true) d (ts ++ [t]) (us.headD next) d (some (f, true)) := by
    refine .look_bind (g := Token.closesFields) hlook (h.bind ?_)
    rcases ht with ht | ht
    · exact .eat_bind ht .pure
    · have hcomma : t.is "," = false := Token.is_eq_false ht (by decide)
      exact .eat_bind_none hcomma (.eat_bind ht .pure)
  have := Unfolds.more hstep (by simp) hr
  simpa using this

theorem accepts_string (hk : t.kind = .string) :
    Accepts free (primary inner) d [t] next d (.string t.text (t.quote.getD '"')) := by
  refine .look_bind (g := id) (a := t) rfl ?_
  simp only [hk]
  exact .next_bind (by simp [Token.isEof, hk]) .pure

theorem accepts_number (hk : t.kind = .number) : Accepts free (primary inner) d [t] next d (.number t.text) := by
  refine .look_bind (g := id) (a := t) rfl ?_
  simp only [hk]
  exact .next_bind (by simp [Token.isEof, hk]) .pure

theorem accepts_identifier (ht : t.isName = true) :
    Accepts free (primary inner) d [t] next d (.identifier t.text) := by
  refine .look_bind (g := id) (a := t) rfl ?_
  simp only [Token.isName_iff.mp ht]
  exact .next_bind (Token.isEof_of_isName ht) .pure

theorem accepts_vararg (hk : t.kind = .operator) (ht : t.text = "...") :
    Accepts free (primary inner) d [t] next d .vararg := by
  refine .look_bind (g := id) (a := t) rfl ?_
  simp only [hk, ht]
  exact .next_bind (by simp [Token.isEof, hk]) .pure

theorem accepts_true (ht : t.isWord "true" = true) : Accepts free (primary inner) d [t] next d (.bool true) := by
  refine .look_bind (g := id) (a := t) rfl ?_
  simp only [(Token.isWord_iff.mp ht).1, (Token.isWord_iff.mp ht).2]
  exact .next_bind (Token.isEof_of_is (Token.is_of_isWord ht)) .pure

theorem accepts_false (ht : t.isWord "false" = true) :
    Accepts free (primary inner) d [t] next d (.bool false) := by
  refine .look_bind (g := id) (a := t) rfl ?_
  simp only [(Token.isWord_iff.mp ht).1, (Token.isWord_iff.mp ht).2]
  exact .next_bind (Token.isEof_of_is (Token.is_of_isWord ht)) .pure

theorem accepts_nil (ht : t.isWord "nil" = true) : Accepts free (primary inner) d [t] next d .nil := by
  refine .look_bind (g := id) (a := t) rfl ?_
  simp only [(Token.isWord_iff.mp ht).1, (Token.isWord_iff.mp ht).2]
  exact .next_bind (Token.isEof_of_is (Token.is_of_isWord ht)) .pure

theorem accepts_parens (hk : t.kind = .punctuation) (ht : t.text = "(")
    (h : Accepts free inner.expression d ts u d e) (hu : u.is ")" = true) :
    Accepts free (primary inner) d (t :: (ts ++ [u])) next d e := by
  refine .look_bind (g := id) (a := t) rfl ?_
  simp only [hk, ht]
  exact .next_bind (by simp [Token.isEof, hk]) (h.bind (.expect_bind hu .pure))

theorem accepts_table {fs : List TableField} (hk : t.kind = .punctuation) (ht : t.text = "\x7b")
    (h : Unfolds free (fieldStep inner) true d ts u d fs) (hu : u.is "\x7d" = true) :
    Accepts free (primary inner) d (t :: (ts ++ [u])) next d (.table fs) := by
  refine .look_bind (g := id) (a := t) rfl ?_
  simp only [hk, ht]
  exact .next_bind (by simp [Token.isEof, hk]) (h.unfold.bind (.expect_bind hu .pure))

theorem accepts_function {names : List String} {ss : List Stmt} (ht : t.isWord "function" = true)
    (hp : Params names ts (us.headD next)) (hb : Accepts free (body inner) d us next d ss) :
    Accepts free (primary inner) d (t :: (ts ++ us)) next d (.function names ss) := by
  refine .look_bind (g := id) (a := t) rfl ?_
  simp only [(Token.isWord_iff.mp ht).1, (Token.isWord_iff.mp ht).2]
  exact .next_bind (Token.isEof_of_is (Token.is_of_isWord ht)) ((accepts_parameters hp).bind (hb.map _))

end Expressions

section Statements

variable {inner : Nested} {d : Nat} {ts us vs ws : List Token} {t m u next : Token} {e : Expr} {ss : List Stmt}

theorem accepts_body (h : Accepts free (inner.block ["end"]) d ts (us.headD next) d ss) (he : Maybe "end" us next) :
    Accepts free (body inner) d (ts ++ us) next d ss :=
  h.bind (.maybe_map he)

/-- A statement is read by the parser that its keyword announces. -/
theorem accepts_behind {w : String} {p : Parser Action} {a : Action}
    (hw : (w, p) ∈ [("local", localDeclaration inner), ("function", definition inner false),
      ("while", whileLoop inner), ("for", forLoop inner)])
    (ht : t.isWord w = true) (h : Accepts free p d ts next d a) :
    Accepts free (statement inner) d (t :: ts) next d (some (.mk t.line a)) := by
  have hne : t.isEof = false := Token.isEof_of_is (Token.is_of_isWord ht)
  refine .look_bind (g := id) (a := t) rfl
    (.look_bind (g := Token.keyword?) (a := some w) (Token.keyword?_eq_some.mpr ht) ?_)
  simp only [List.mem_cons, Prod.mk.injEq, List.not_mem_nil, or_false] at hw
  rcases hw with ⟨rfl, rfl⟩ | ⟨rfl, rfl⟩ | ⟨rfl, rfl⟩ | ⟨rfl, rfl⟩ <;> exact .next_bind hne (h.map _)

theorem accepts_declare (hm : m.isName = true) (hn : next.is "=" = false) :
    Accepts free (localDeclaration inner) d [m] next d (.declare m.text none) :=
  .eat_bind_none (Token.is_eq_false_of_isName hm _) (.identifier_bind hm (.eat_bind_none hn .pure))

theorem accepts_declareAs (hm : m.isName = true) (hu : u.is "=" = true)
    (h : Accepts free inner.expression d ts next d e) :
    Accepts free (localDeclaration inner) d (m :: u :: ts) next d (.declare m.text (some e)) :=
  .eat_bind_none (Token.is_eq_false_of_isName hm _) (.identifier_bind hm (.eat_bind hu (h.map _)))

theorem accepts_localFunction {f : Token} {names : List String} (hf : f.is "function" = true)
    (hm : m.isName = true) (hp : Params names ts (us.headD next)) (hb : Accepts free (body inner) d us next d ss) :
    Accepts free (localDeclaration inner) d (f :: m :: (ts ++ us)) next d (.define m.text names ss true false) :=
  .eat_bind hf (.map_bind (.identifier_bind hm ((accepts_parameters hp).bind (hb.map _))))

theorem accepts_define {s : String} {isMethod : Bool} {ps : List Token} {names : List String} (hm : m.isName = true)
    (hs : Path (m.text, false) (s, isMethod) ps ((ts ++ us).headD next)) (hp : Params names ts (us.headD next))
    (hb : Accepts free (body inner) d us next d ss) :
    Accepts free (definition inner false) d (m :: (ps ++ (ts ++ us))) next d
      (.define s names ss false isMethod) :=
  (accepts_functionName hm hs).bind ((accepts_parameters hp).bind (hb.map _))

theorem accepts_whileLoop {c : Expr} (hc : Accepts free inner.expression d ts ((us ++ vs).headD next) d c)
    (hm : Maybe "do" us (vs.headD next)) (hb : Accepts free (body inner) d vs next d ss) :
    Accepts free (whileLoop inner) d (ts ++ (us ++ vs)) next d (.whileLoop c ss) :=
  hc.bind (.maybe_bind hm fun _ => hb.map _)

/-- The optional step of a counting loop, and what the loop goes on with. -/
def AcceptsStep (free : Bool) (inner : Nested) (d : Nat) (ts : List Token) (next : Token) (o : Option Expr) : Prop :=
  ∀ (f : Option Expr → Parser Action) (us : List Token) (last : Token) (a : Action), next = us.headD last →
    Accepts free (f o) d us last d a →
    Accepts free (eat "," >>= fun b => if b = true then some <$> inner.expression >>= f else Parser.pure none >>= f)
      d (ts ++ us) last d a

theorem acceptsStep_none (h : next.is "," = false) : AcceptsStep free inner d [] next none := by
  intro f us last a hnext hf
  subst hnext
  exact .eat_bind_none h hf

theorem acceptsStep_some (ht : t.is "," = true) (h : Accepts free inner.expression d ts next d e) :
    AcceptsStep free inner d (t :: ts) next (some e) := by
  intro f us last a hnext hf
  subst hnext
  exact .eat_bind ht (.map_bind (h.bind hf))

theorem accepts_forLoop {first last : Expr} {o : Option Expr} {v : Token} {xs : List Token} (hm : m.isName = true)
    (hu : u.is "=" = true) (hf : Accepts free inner.expression d ts v d first) (hv : v.is "," = true)
    (hl : Accepts free inner.expression d us ((vs ++ (ws ++ xs)).headD next) d last)
    (hs : AcceptsStep free inner d vs ((ws ++ xs).headD next) o) (hw : Maybe "do" ws (xs.headD next))
    (hb : Accepts free (body inner) d xs next d ss) :
    Accepts free (forLoop inner) d (m :: u :: (ts ++ v :: (us ++ (vs ++ (ws ++ xs))))) next d
      (.forLoop m.text first last o ss) :=
  .identifier_bind hm (.eat_bind hu (hf.bind (.expect_bind hv (hl.bind
    (hs _ _ _ _ rfl (.maybe_bind hw fun _ => hb.map _))))))

theorem accepts_forEach {names : List String} (hm : m.isName = true) (he : (ts.headD u).is "=" = false)
    (hn : MoreNames names ts u) (hu : u.is "in" = true)
    (h : Accepts free inner.expression d us ((vs ++ ws).headD next) d e) (hw : Maybe "do" vs (ws.headD next))
    (hb : Accepts free (body inner) d ws next d ss) :
    Accepts free (forLoop inner) d (m :: (ts ++ u :: (us ++ (vs ++ ws)))) next d
      (.forEach (m.text :: names) e ss) := by
  have hequals : ((ts ++ u :: (us ++ (vs ++ ws))).headD next).is "=" = false := by
    rw [List.headD_append]
    exact he
  exact .identifier_bind hm (.eat_bind_none hequals ((accepts_moreNames hn).bind
    (.expect_bind hu (h.bind (.maybe_bind hw fun _ => hb.map _)))))

theorem accepts_return {es : List Expr} (ht : t.isWord "return" = true)
    (h : Accepts free (returnValues inner) d ts next d es) :
    Accepts free (statement inner) d (t :: ts) next d (some (.mk t.line (.giveBack es))) := by
  have hne : t.isEof = false := Token.isEof_of_is (Token.is_of_isWord ht)
  refine .look_bind (g := id) (a := t) rfl
    (.look_bind (g := Token.keyword?) (a := some "return") (Token.keyword?_eq_some.mpr ht) ?_)
  exact .next_bind hne (h.map fun es => some (Stmt.mk t.line (.giveBack es)))

theorem accepts_giveNothing (hn : (us.headD next).closesReturn = true) (hu : Maybe ";" us next) :
    Accepts free (returnValues inner) d us next d [] :=
  .look_bind (g := Token.closesReturn) hn (.maybe_map hu)

theorem accepts_giveBack {es : List Expr} (hs : (ts.headD (us.headD next)).closesReturn = false)
    (h : Unfolds free (separatedStep inner.expression (eat ",")) true d ts (us.headD next) d es)
    (hu : Maybe ";" us next) : Accepts free (returnValues inner) d (ts ++ us) next d es := by
  have hlook : ((ts ++ us).headD next).closesReturn = false := by
    rw [List.headD_append]
    exact hs
  exact .look_bind (g := Token.closesReturn) hlook (h.unfold.bind (.maybe_map hu))

theorem accepts_break (ht : t.isWord "break" = true) :
    Accepts free (statement inner) d [t] next d (some (.mk t.line .leaveLoop)) := by
  refine .look_bind (g := id) (a := t) rfl
    (.look_bind (g := Token.keyword?) (a := some "break") (Token.keyword?_eq_some.mpr ht) ?_)
  exact .next_bind (Token.isEof_of_is (Token.is_of_isWord ht)) .pure

theorem accepts_plain {o : Option Stmt} (hs : (ts.headD next).opensStatement = false)
    (h : Accepts free (eat ";" >>= fun b => if b = true then Pure.pure none
      else expressionStatement inner >>= fun a => Pure.pure (some (Stmt.mk (ts.headD next).line a))) d ts next d o) :
    Accepts free (statement inner) d ts next d o := by
  refine .look_bind (g := id) (a := ts.headD next) rfl
    (.look_bind (g := Token.keyword?) (a := (ts.headD next).keyword?) rfl ?_)
  unfold Token.opensStatement at hs
  split
  case h_8 => exact h
  all_goals
    rename_i hw
    rw [hw] at hs
    exact absurd hs (by decide)

theorem accepts_skip (ht : t.is ";" = true) : Accepts free (statement inner) d [t] next d none := by
  have hs : t.opensStatement = false := by
    unfold Token.opensStatement Token.keyword?
    rw [(Token.is_iff.mp ht).2]
    split <;> rfl
  exact accepts_plain hs (.eat_bind ht .pure)

theorem accepts_evaluate (hs : (ts.headD next).opensStatement = false) (hc : (ts.headD next).is ";" = false)
    (h : Accepts free inner.expression d ts next d e) (hn : next.assignOp? = none) :
    Accepts free (statement inner) d ts next d (some (.mk (ts.headD next).line (.evaluate e))) := by
  have hexpr : Accepts free (expressionStatement inner) d ts next d (.evaluate e) :=
    h.bind_end (.look_bind (g := Token.assignOp?) hn .pure)
  exact accepts_plain hs (.eat_bind_none hc (hexpr.map _))

theorem accepts_assign {value : Expr} {op : AssignOp} (hs : (ts.headD u).opensStatement = false)
    (hc : (ts.headD u).is ";" = false) (h : Accepts free inner.expression d ts u d e)
    (hu : u.assignOp? = some op) (ha : e.isAssignable = true)
    (hv : Accepts free inner.expression d us next d value) :
    Accepts free (statement inner) d (ts ++ u :: us) next d (some (.mk (ts.headD u).line (.assign e op value))) := by
  have hhead : (ts ++ u :: us).headD next = ts.headD u := by rw [List.headD_append]; rfl
  have hexpr : Accepts free (expressionStatement inner) d (ts ++ u :: us) next d (.assign e op value) := by
    refine h.bind (.look_bind (g := Token.assignOp?) (a := some op) hu ?_)
    simp only [ha]
    exact .next_bind (Token.isEof_of_is (Token.is_of_assignOp? hu)) (hv.map _)
  rw [← hhead] at hs hc ⊢
  exact accepts_plain hs (.eat_bind_none hc (hexpr.map _))

/-- A conditional from its keyword on, with room for all its branches. -/
def AcceptsTail (free : Bool) (inner : Nested) (d : Nat) (ts : List Token) (next : Token) (line : Nat) (s : Stmt) :
    Prop :=
  ∀ t budget, t.isEof = false → t.line = line → ts.length < budget.length →
    Accepts free (conditionalWithin inner budget) d (t :: ts) next d s

theorem acceptsTail_elseif {c : Expr} {s : Stmt} {line : Nat}
    (hc : Accepts free inner.expression d ts ((us ++ vs).headD t) d c) (hu : Maybe "then" us (vs.headD t))
    (hb : Accepts free (inner.block ["else", "elseif", "end"]) d vs t d ss) (ht : t.is "elseif" = true)
    (hr : AcceptsTail free inner d ws next t.line s) :
    AcceptsTail free inner d (ts ++ (us ++ (vs ++ t :: ws))) next line
      (.mk line (.conditional c ss (some [s]))) := by
  intro k budget hk hline hlen
  subst hline
  cases budget with
  | nil => simp at hlen
  | cons _ budget =>
    simp only [List.length_append, List.length_cons] at hlen
    have hrest := hr t budget (Token.isEof_of_is ht) rfl (by omega)
    have hc' : Accepts free inner.expression d ts ((us ++ (vs ++ t :: ws)).headD next) d c := by
      simpa only [List.headD_append, List.headD_cons] using hc
    have hu' : Maybe "then" us ((vs ++ t :: ws).headD next) := by
      simpa only [List.headD_append, List.headD_cons] using hu
    exact .next_bind hk (hc'.bind (.maybe_bind hu' fun _ => hb.bind
      (.look_bind (g := fun t => t.is "elseif") ht (hrest.map _))))

theorem acceptsTail_else {c : Expr} {rs : List Stmt} {line : Nat}
    (hc : Accepts free inner.expression d ts ((us ++ vs).headD t) d c) (hu : Maybe "then" us (vs.headD t))
    (hb : Accepts free (inner.block ["else", "elseif", "end"]) d vs t d ss) (ht : t.is "else" = true)
    (hr : Accepts free (body inner) d ws next d rs) :
    AcceptsTail free inner d (ts ++ (us ++ (vs ++ t :: ws))) next line
      (.mk line (.conditional c ss (some rs))) := by
  intro k budget hk hline hlen
  subst hline
  cases budget with
  | nil => simp at hlen
  | cons _ budget =>
    have helse : t.is "elseif" = false := Token.is_eq_false ht (by decide)
    have hc' : Accepts free inner.expression d ts ((us ++ (vs ++ t :: ws)).headD next) d c := by
      simpa only [List.headD_append, List.headD_cons] using hc
    have hu' : Maybe "then" us ((vs ++ t :: ws).headD next) := by
      simpa only [List.headD_append, List.headD_cons] using hu
    exact .next_bind hk (hc'.bind (.maybe_bind hu' fun _ => hb.bind
      (.look_bind (g := fun t => t.is "elseif") helse (.eat_bind ht (hr.map _)))))

theorem acceptsTail_end {c : Expr} {line : Nat}
    (hc : Accepts free inner.expression d ts ((us ++ (vs ++ ws)).headD next) d c)
    (hu : Maybe "then" us ((vs ++ ws).headD next))
    (hb : Accepts free (inner.block ["else", "elseif", "end"]) d vs (ws.headD next) d ss)
    (hi : (ws.headD next).is "elseif" = false) (he : (ws.headD next).is "else" = false)
    (hw : Maybe "end" ws next) :
    AcceptsTail free inner d (ts ++ (us ++ (vs ++ ws))) next line (.mk line (.conditional c ss none)) := by
  intro k budget hk hline hlen
  subst hline
  cases budget with
  | nil => simp at hlen
  | cons _ budget =>
    exact .next_bind hk (hc.bind (.maybe_bind hu fun _ => hb.bind
      (.look_bind (g := fun t => t.is "elseif") hi (.eat_bind_none he (.maybe_map hw)))))

theorem accepts_conditional {s : Stmt} (ht : t.isWord "if" = true) (h : AcceptsTail free inner d ts next t.line s) :
    Accepts free (statement inner) d (t :: ts) next d (some s) := by
  have hne : t.isEof = false := Token.isEof_of_is (Token.is_of_isWord ht)
  have hcond : Accepts free (conditional inner) d (t :: ts) next d s := by
    intro rest stop hn
    refine h t _ hne rfl ?_ rest stop hn
    simp only [Cursor.budget, List.length_cons, List.length_append]
    omega
  refine .look_bind (g := id) (a := t) rfl
    (.look_bind (g := Token.keyword?) (a := some "if") (Token.keyword?_eq_some.mpr ht) ?_)
  exact hcond.map some

/-- The statements of a block; a semicolon on its own yields none. -/
def AcceptsStmts (free : Bool) (inner : Nested) (stops : List String) (d : Nat) (ts : List Token) (next : Token)
    (ss : List Stmt) : Prop :=
  ∃ os : List (Option Stmt), os.filterMap id = ss ∧
    Unfolds free (manyStep (blockStep inner stops)) () d ts next d os

theorem acceptsStmts_end {stops : List String} (h : next.closesBlock stops = true) :
    AcceptsStmts free inner stops d [] next [] := by
  have hstep : Accepts free (blockStep inner stops) d [] next d none :=
    .look_bind (g := fun t => t.closesBlock stops) h .pure
  exact ⟨[], rfl, .done (hstep.map _)⟩

theorem acceptsStmts_cons {stops : List String} {o : Option Stmt} (hne : ts ≠ [])
    (hs : (ts.headD (us.headD next)).closesBlock stops = false)
    (h : Accepts free (statement inner) d ts (us.headD next) d o)
    (hr : AcceptsStmts free inner stops d us next ss) :
    AcceptsStmts free inner stops d (ts ++ us) next (o.toList ++ ss) := by
  obtain ⟨os, hos, hr⟩ := hr
  have hstep : Accepts free (blockStep inner stops) d ts (us.headD next) d (some o) :=
    .look_bind (g := fun t => t.closesBlock stops) hs (h.map some)
  refine ⟨o :: os, ?_, .more (hstep.map _) hne hr⟩
  rw [← hos]
  cases o <;> rfl

theorem accepts_statements {stops : List String} (h : AcceptsStmts free inner stops d ts next ss) :
    Accepts free (statements inner stops) d ts next d ss := by
  obtain ⟨os, rfl, h⟩ := h
  exact h.unfold.map _

theorem accepts_block {stops : List String} (hd : Fits free d)
    (h : AcceptsStmts free inner stops (d + 1) ts next ss) :
    Accepts free (block inner stops) d ts next d ss := by
  refine .enter_bind hd ((accepts_statements h).bind_end ?_)
  intro rest stop hn
  exact .inl rfl

end Statements

/-- What it means that the parsers of a level accept a phrase. -/
def Accepted (free : Bool) (inner : Nested) (d : Nat) (ts : List Token) (next : Token) : Phrase → Prop
  | .nested e => Accepts free inner.expression d ts next d e
  | .expr k e => Accepts free (ofLevel inner k) d ts next d e
  | .chain k a e => ∃ d', Loops free (chainStep k.ops (ofLevel inner k.below)) a d ts next d' e
  | .trail a e => ∃ d', Loops free (trailer inner) a d ts next d' e
  | .exprs es => Unfolds free (separatedStep inner.expression (eat ",")) true d ts next d es
  | .arguments es => Accepts free (arguments inner) d ts next d es
  | .fields fs => Unfolds free (fieldStep inner) true d ts next d fs
  | .field f => Accepts free (tableField inner) d ts next d f
  | .stmts stops ss => AcceptsStmts free inner stops d ts next ss
  | .block stops ss => Accepts free (inner.block stops) d ts next d ss
  | .body ss => Accepts free (body inner) d ts next d ss
  | .stmt o => Accepts free (statement inner) d ts next d o
  | .step o => AcceptsStep free inner d ts next o
  | .tail line s => AcceptsTail free inner d ts next line s

/-- One level down: either a level is left, or the nesting is too deep. -/
theorem accepts_inside {p q : Nested → Parser α} (hp : p .full = tooDeep)
    (hq : ∀ m, p (Nested.ofRoom (m + 1)) = within (q (Nested.ofRoom m))) {d n : Nat} {ts : List Token}
    {next : Token} {a : α} (hd : Fits free d) (hn : maxDepth ≤ d + n)
    (ih : ∀ {m}, maxDepth ≤ d + 1 + m → Accepts free (q (Nested.ofRoom m)) (d + 1) ts next (d + 1) a) :
    Accepts free (p (Nested.ofRoom n)) d ts next d a := by
  cases n with
  | zero =>
    have hf : free = true := hd.resolve_right (by omega)
    intro rest stop _
    change Outcome.Reaches free (p .full _) _ _
    rw [hp]
    exact .inr ⟨hf, _, _, rfl⟩
  | succ m =>
    rw [hq]
    exact (ih (by omega)).within hd

end Parser

open ScriptGraph.Parser

/-- Whatever derives at some depth is accepted there by the parsers that have room for the rest. -/
theorem Derives.accepted {free : Bool} {d : Nat} {ph : Phrase} {ts : List Token} {next : Token}
    (h : Derives free d ph ts next) {n : Nat} (hn : maxDepth ≤ d + n) :
    Accepted free (Nested.ofRoom n) d ts next ph := by
  induction h generalizing n with
  | nested hd _ ih => exact accepts_inside (q := disjunction) rfl (fun _ => rfl) hd hn fun hm => ih hm
  | chained hk _ _ ih ihc =>
    obtain ⟨d', hl⟩ := ihc hn
    exact accepts_chain hk (ih hn) hl
  | chainEnd h => exact ⟨_, loops_chainEnd h⟩
  | chainStep ht hd _ _ ih ihc =>
    obtain ⟨d', hl⟩ := ihc (n := n) (by omega)
    exact ⟨d', loops_chainStep ht hd (ih (by omega)) hl⟩
  | concatEnd _ hnext ih => exact accepts_concatEnd (ih hn) hnext
  | concat _ ht hd _ ih ihr =>
    exact accepts_concat (ih hn) ht
      (accepts_inside (p := Nested.concat) (q := concatenation) rfl (fun _ => rfl) hd hn fun hm => ihr hm)
  | unary ht hd _ ih =>
    exact accepts_unary ht
      (accepts_inside (p := Nested.operand) (q := Parser.unary) rfl (fun _ => rfl) hd hn fun hm => ih hm)
  | unaryEnd hs _ ih => exact accepts_unaryEnd hs (ih hn)
  | powerEnd _ hnext ih => exact accepts_powerEnd (ih hn) hnext
  | power _ ht hd _ ih ihr =>
    exact accepts_power (ih hn) ht
      (accepts_inside (p := Nested.operand) (q := Parser.unary) rfl (fun _ => rfl) hd hn fun hm => ihr hm)
  | access _ _ ih iht =>
    obtain ⟨d', hl⟩ := iht hn
    exact accepts_access (ih hn) hl
  | trailEnd h => exact ⟨_, .done (.look_bind (g := Token.opensTrailer) h .pure)⟩
  | call hd h _ ih ihr =>
    obtain ⟨d', hl⟩ := ihr (n := n) (by omega)
    exact ⟨d', loops_call hd (h.head_arguments _) (h.ne_nil rfl) (ih (by omega)) hl⟩
  | methodCall hd ht hm _ _ ih ihr =>
    obtain ⟨d', hl⟩ := ihr (n := n) (by omega)
    exact ⟨d', loops_methodCall hd ht hm (ih (by omega)) hl⟩
  | member hd ht hm _ ihr =>
    obtain ⟨d', hl⟩ := ihr (n := n) (by omega)
    exact ⟨d', loops_member hd ht hm hl⟩
  | index hd ht _ hu _ ih ihr =>
    obtain ⟨d', hl⟩ := ihr (n := n) (by omega)
    exact ⟨d', loops_index hd ht hu (ih (by omega)) hl⟩
  | string ht => exact accepts_string ht
  | number ht => exact accepts_number ht
  | identifier ht => exact accepts_identifier ht
  | trueWord ht => exact accepts_true ht
  | falseWord ht => exact accepts_false ht
  | nilWord ht => exact accepts_nil ht
  | vararg hk ht => exact accepts_vararg hk ht
  | parens hk ht _ hu ih => exact accepts_parens hk ht (ih hn) hu
  | table hk ht _ hu ih => exact accepts_table hk ht (ih hn) hu
  | function ht hp _ ih => exact accepts_function ht hp (ih hn)
  | one h hnext ih => exact unfolds_one (h.ne_nil rfl) (ih hn) hnext
  | cons _ ht _ ih ihr => exact unfolds_cons (ih hn) ht (ihr hn)
  | noArguments ht hu =>
    exact .expect_bind ht (.look_bind (g := fun t => t.is ")") hu (.expect_bind hu .pure))
  | arguments ht hs _ hu ih => exact accepts_arguments ht hs (ih hn) hu
  | keyed ht _ hu hv _ ihk ih => exact accepts_keyed ht (ihk hn) hu hv (ih hn)
  | named ht hu _ ih => exact accepts_named ht hu (ih hn)
  | positional hs hname h ih => exact accepts_positional (h.ne_nil rfl) hs hname (ih hn)
  | fieldsEnd h => exact .done (.look_bind (g := Token.closesFields) h .pure)
  | fieldsLast hs h hc hnext ih => exact unfolds_fieldsLast (h.ne_nil rfl) hs (ih hn) hc hnext
  | fieldsCons hs _ ht _ ih ihr => exact unfolds_fieldsCons hs (ih hn) ht (ihr hn)
  | stmtsEnd h => exact acceptsStmts_end h
  | stmtsSkip hs h _ ih ihr => exact acceptsStmts_cons (h.ne_nil rfl) hs (ih hn) (ihr hn)
  | stmtsCons hs h _ ih ihr => exact acceptsStmts_cons (h.ne_nil rfl) hs (ih hn) (ihr hn)
  | block hd _ ih =>
    cases n with
    | zero =>
      have hf : free = true := hd.resolve_right (by omega)
      intro rest stop _
      exact .inr ⟨hf, _, _, rfl⟩
    | succ m => exact accepts_block hd (ih (by omega))
  | body _ he ih => exact accepts_body (ih hn) he
  | skip ht => exact accepts_skip ht
  | declare ht hm hnext => exact accepts_behind List.mem_cons_self ht (accepts_declare hm hnext)
  | declareAs ht hm hu _ ih => exact accepts_behind (by simp) ht (accepts_declareAs hm hu (ih hn))
  | localFunction ht hf hm hp _ ih =>
    exact accepts_behind (by simp) ht (accepts_localFunction hf hm hp (ih hn))
  | define ht hm hs hp _ ih => exact accepts_behind (by simp) ht (accepts_define hm hs hp (ih hn))
  | conditional ht _ ih => exact accepts_conditional ht (ih hn)
  | whileLoop ht _ hm _ ihc ih => exact accepts_behind (by simp) ht (accepts_whileLoop (ihc hn) hm (ih hn))
  | noStep h => exact acceptsStep_none h
  | step ht _ ih => exact acceptsStep_some ht (ih hn)
  | forLoop ht hm hu _ hv _ _ hw _ ihf ihl ihs ih =>
    exact accepts_behind (by simp) ht (accepts_forLoop hm hu (ihf hn) hv (ihl hn) (ihs hn) hw (ih hn))
  | forEach ht hm he hnames hu _ hw _ ihe ih =>
    exact accepts_behind (by simp) ht (accepts_forEach hm he hnames hu (ihe hn) hw (ih hn))
  | giveNothing ht hnext hu => exact accepts_return ht (accepts_giveNothing hnext hu)
  | giveBack ht hs _ hu ih => exact accepts_return ht (accepts_giveBack hs (ih hn) hu)
  | leaveLoop ht => exact accepts_break ht
  | evaluate hs hc _ hnext ih => exact accepts_evaluate hs hc (ih hn) hnext
  | assign hs hc _ hu ha _ ih ihv => exact accepts_assign hs hc (ih hn) hu ha (ihv hn)
  | tailElseif _ hu _ ht _ ihc ihb ihr => exact acceptsTail_elseif (ihc hn) hu (ihb hn) ht (ihr hn)
  | tailElse _ hu _ ht _ ihc ihb ihr => exact acceptsTail_else (ihc hn) hu (ihb hn) ht (ihr hn)
  | tailEnd _ hu _ hi he hw ihc ihb => exact acceptsTail_end (ihc hn) hu (ihb hn) hi he hw

/-- A program that derives from the tokens before the end of input is the one that is read, unless
the nesting is too deep. -/
theorem Derives.parse {free : Bool} {p : Program} {ts : List Token} {stop : Token} (hstop : stop.isEof = true)
    (h : Derives free 0 (.stmts [] p) ts stop) :
    Program.parse (ts ++ [stop]) = .ok p ∨
      free = true ∧ ∃ line, Program.parse (ts ++ [stop]) = .error (.tooDeep maxDepth line) := by
  have hcursor : Cursor.ofTokens (ts ++ [stop]) = ⟨ts ++ [], stop, 0⟩ := by
    simp [Cursor.ofTokens, hstop]
  have hstmts := accepts_statements (h.accepted (n := maxDepth) (by omega)) [] stop rfl
  unfold Program.parse
  rw [hcursor]
  rcases hstmts with hok | ⟨hf, line, u, herror⟩
  · exact .inl (by rw [Nested.top, hok])
  · exact .inr ⟨hf, line, by rw [Nested.top, herror]⟩

end ScriptGraph
