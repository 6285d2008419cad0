import ScriptGraph.Proofs.Seams

/-!
A row of statements that is cut outside all blocks and brackets: it is cut between two statements, or
what stands before the cut is a statement that goes on with what stands behind it.
-/

namespace ScriptGraph

/-- Does the row end where a statement has to go on, behind a word or mark that needs more or behind the name of a
method? -/
def breaksOff (ts : List Token) : Bool := ts.getLast?.any Token.awaits || ts.dropLast.getLast?.any (·.is ":")

theorem breaksOff_of_append {ts us : List Token} (h : breaksOff (ts ++ us) = false) : breaksOff us = false := by
  rcases List.eq_nil_or_concat us with rfl | ⟨us, u, rfl⟩
  · rfl
  · rw [List.concat_eq_append] at h ⊢
    rw [breaksOff, ← List.append_assoc] at h
    rw [breaksOff]
    simp only [List.getLast?_concat, List.dropLast_concat, Option.any_some, Bool.or_eq_false_iff] at h ⊢
    refine ⟨h.1, ?_⟩
    cases us with
    | nil => rfl
    | cons u us =>
      have hlast := h.2
      rwa [List.getLast?_append_of_ne_nil _ (List.cons_ne_nil u us)] at hlast

/-- Does the statement go on with the token? -/
def Action.goesOn (t : Token) : Action → Bool
  | .declare _ none => t.is "="
  | .declare _ (some _) | .assign .. | .evaluate _ | .giveBack (_ :: _) => t.joins
  | _ => false

/-- Wherever the row is cut outside its brackets and blocks, and does not break off there, `P` holds of what stands
before the cut and of the token behind it. -/
def Cuts (P : List Token → Token → Prop) (ts : List Token) : Prop :=
  ∀ as b bs, ts = as ++ b :: bs → as ≠ [] → height as = 0 → breaksOff as = false → P as b

namespace Cuts

variable {P Q : List Token → Token → Prop} {ts us : List Token} {t next : Token} {s : String}

theorem nil : Cuts P [] := by
  intro as b bs heq
  simp at heq

theorem single (t : Token) : Cuts P [t] := by
  intro as b bs heq hne
  cases as with
  | nil => exact absurd rfl hne
  | cons a as => simp at heq

/-- What stands before the cut starts as the row does. -/
theorem mono (h : Cuts P ts) (next : Token)
    (hPQ : ∀ as b, (∀ t, as.headD t = ts.headD next) → P as b → Q as b) : Cuts Q ts := by
  intro as b bs heq hne hh hb
  refine hPQ as b ?_ (h as b bs heq hne hh hb)
  obtain ⟨a, as, rfl⟩ := List.exists_cons_of_ne_nil hne
  rw [heq]
  exact fun _ => rfl

theorem imp (h : Cuts P ts) (hPQ : ∀ as b, P as b → Q as b) : Cuts Q ts :=
  fun as b bs heq hne hh hb => hPQ as b (h as b bs heq hne hh hb)

/-- Behind an opener everything is inside. -/
theorem inside (ht : t.is s = true) (h : Poised 1 ts next) (hs : Token.weight s = 1 := by decide) :
    Cuts P (t :: ts) := by
  have hr : t.rise = 1 := (Token.rise_of_is ht).trans hs
  intro as b bs heq hne hh
  obtain ⟨a, as, rfl⟩ := List.exists_cons_of_ne_nil hne
  obtain ⟨rfl, htail⟩ := List.cons.inj heq
  have habove := h.above as b bs htail
  rw [height_cons] at hh
  omega

theorem cons (hr : t.rise = 0) (hfirst : t.awaits = false → ∀ b ∈ ts.head?, P [t] b)
    (h : Cuts (fun as => P (t :: as)) ts) : Cuts P (t :: ts) := by
  intro as b bs heq hne hh hb
  obtain ⟨a, as, rfl⟩ := List.exists_cons_of_ne_nil hne
  obtain ⟨rfl, rfl⟩ := List.cons.inj heq
  cases as with
  | nil => exact hfirst (by simpa [breaksOff] using hb) b rfl
  | cons a as =>
    rw [height_cons, hr, zero_add] at hh
    exact h (a :: as) b bs rfl (List.cons_ne_nil a as) hh (@breaksOff_of_append [t] _ hb)

/-- There is no cut behind a sign that needs more. -/
theorem waiting (ht : t.is s = true) (h : Cuts (fun as => P (t :: as)) ts) (hs : Token.weight s = 0 := by decide)
    (hw : s ∈ Token.waiters := by decide) : Cuts P (t :: ts) := by
  refine h.cons ((Token.rise_of_is ht).trans hs) fun hawaits => ?_
  rw [Token.awaits_of_is ht hw] at hawaits
  cases hawaits

/-- There is no cut behind the name of a method. -/
theorem method {m : Token} (ht : t.is ":" = true) (hm : m.isName = true) (h : Cuts (fun as => P (t :: m :: as)) ts) :
    Cuts P (t :: m :: ts) := by
  intro as b bs heq hne hh hb
  have hcolon : breaksOff [t, m] = true := by simp [breaksOff, ht]
  obtain ⟨a, as, rfl⟩ := List.exists_cons_of_ne_nil hne
  obtain ⟨rfl, hrest⟩ := List.cons.inj heq
  cases as with
  | nil =>
    rw [breaksOff, List.getLast?_singleton, Option.any_some, Token.awaits_of_is ht] at hb
    cases hb
  | cons a as =>
    obtain ⟨rfl, rfl⟩ := List.cons.inj hrest
    cases as with
    | nil =>
      rw [hcolon] at hb
      cases hb
    | cons a as =>
      rw [height_cons, height_cons, Token.rise_of_is ht, Token.rise_of_isName hm] at hh
      have hweight : Token.weight ":" = 0 := by decide
      exact h (a :: as) b bs rfl (List.cons_ne_nil a as) (by omega) (@breaksOff_of_append [t, m] _ hb)

theorem append (hp : Poised 0 ts (us.headD next)) (hus : ∀ u ∈ us, u.isEof = false) (h : Cuts P ts)
    (hmiddle : ∀ b ∈ us.head?, P ts b) (h' : Cuts Q us)
    (hQ : ∀ as b, (∀ t, as.headD t = us.headD next) → Q as b → P (ts ++ as) b) : Cuts P (ts ++ us) := by
  intro as b bs heq hne hh hb
  rcases List.append_eq_append_iff.mp heq with ⟨cs, rfl, rfl⟩ | ⟨cs, rfl, hcs⟩
  · cases cs with
    | nil =>
      rw [List.append_nil]
      exact hmiddle b rfl
    | cons c cs =>
      have hts := hp.height_eq hus (by simp)
      rw [height_append, hts, zero_add] at hh
      exact h'.mono next hQ (c :: cs) b bs rfl (List.cons_ne_nil c cs) hh (breaksOff_of_append hb)
  · cases cs with
    | nil =>
      have hhead : us = b :: bs := hcs.symm
      rw [List.append_nil] at hmiddle
      exact hmiddle b (by simp [hhead])
    | cons c cs =>
      obtain ⟨rfl, -⟩ := List.cons.inj hcs
      exact h as b cs rfl hne hh hb

/-- Two parts with a sign between them that needs the second. -/
theorem linked (hp : Poised 0 ts t) (hus : ∀ u ∈ us, u.isEof = false) (ht : t.is s = true) (h : Cuts P ts)
    (hmiddle : P ts t) (h' : Cuts (fun as => P (ts ++ t :: as)) us) (hs : Token.weight s = 0 := by decide)
    (hw : s ∈ Token.waiters := by decide) : Cuts P (ts ++ t :: us) := by
  have htail : Cuts (fun as => P (ts ++ as)) (t :: us) := h'.waiting ht hs hw
  have hhead : Poised 0 ts ((t :: us).headD t) := hp
  refine append hhead (List.forall_mem_cons.mpr ⟨Token.isEof_of_is ht, hus⟩) h ?_ htail fun _ _ _ h => h
  simpa using hmiddle

end Cuts

section

variable {free : Bool} {d : Nat} {ph : Phrase} {ts us : List Token} {next stop : Token}

/-- What is left of a phrase when it is cut short. -/
def Phrase.Left (free : Bool) (d : Nat) (stop : Token) (as : List Token) : Phrase → Prop
  | nested _ => ∃ e, Derives free d (.nested e) as stop
  | expr k _ => ∃ e, Derives free d (.expr k e) as stop
  | chain k a _ => ∃ e, Derives free d (.chain k a e) as stop
  | trail a _ => ∃ e, Derives free d (.trail a e) as stop
  | exprs _ => ∃ es, Derives free d (.exprs es) as stop
  | arguments _ => False
  | _ => True

/-- An expression that is cut short is one. -/
theorem Derives.cuts (hstop : stop.isEof = true) (h : Derives free d ph ts next) :
    Cuts (fun as _ => ph.Left free d stop as) ts := by
  have his := Token.is_of_isEof hstop
  have hchain {d : Nat} {k : Level} {a : Expr} : Derives free d (.chain k a a) [] stop :=
    .chainEnd (Token.binaryOp?_of_isEof hstop _)
  have htrail {d : Nat} {a : Expr} : Derives free d (.trail a a) [] stop :=
    .trailEnd (by simp [Token.opensTrailer, his])
  have hchained {d : Nat} {k : Level} {a : Expr} {ts : List Token} (hk : k.isChain = true)
      (h : Derives free d (.expr k.below a) ts stop) : Derives free d (.expr k a) ts stop := by
    rw [← List.append_nil ts]
    exact .chained hk h hchain
  have haccess {d : Nat} {a : Expr} {ts : List Token} (h : Derives free d (.expr .primary a) ts stop) :
      Derives free d (.expr .access a) ts stop := by
    rw [← List.append_nil ts]
    exact .access h htrail
  induction h with
  | nested hd _ ih => exact ih.imp fun _ _ => .imp fun _ he => .nested hd he
  | chained hk h hc ih ihc =>
    refine .append h.shape.poised hc.shape.poised.solid (ih.imp fun _ _ => .imp fun _ he => hchained hk he)
      (fun _ _ => ⟨_, hchained hk (h.before_eof hstop)⟩) ihc fun as b hhead => .imp fun e he => ?_
    exact .chained hk (by rwa [hhead stop]) he
  | chainEnd _ => exact .nil
  | @chainStep d k a _ _ op _ _ t _ ht hd h hc ih ihc =>
    have hend {b : Expr} {ts : List Token} (h : Derives free (d + 1) (.expr k.below b) ts stop) :
        Derives free d (.chain k a (.binary op a b)) (t :: ts) stop := by
      rw [← List.append_nil ts]
      exact .chainStep ht hd h hchain
    refine .waiting (Token.is_of_binaryOp? ht).2 ?_ op.weight_symbol op.symbol_mem.2
    refine .append h.shape.poised hc.shape.poised.solid (ih.imp fun _ _ => .imp' _ fun _ he => hend he)
      (fun _ _ => ⟨_, hend (h.before_eof hstop)⟩) ihc fun as b hhead => .imp fun e he => ?_
    exact .chainStep ht hd (by rwa [hhead stop]) he
  | concatEnd _ _ ih => exact ih.imp fun _ _ => .imp fun _ he => .concatEnd he (his _)
  | concat h ht hd hr ih ihr =>
    exact .linked h.shape.poised hr.shape.poised.solid ht (ih.imp fun _ _ => .imp fun _ he => .concatEnd he (his _))
      ⟨_, .concatEnd (h.before_eof hstop) (his _)⟩ (ihr.imp fun _ _ => .imp' _ fun _ he => .concat h ht hd he)
  | @unary _ op _ _ _ _ ht hd _ ih =>
    exact .waiting (Token.is_of_unaryOp? ht) (ih.imp fun _ _ => .imp' _ fun _ he => .unary ht hd he) op.weight_symbol
      op.symbol_mem
  | unaryEnd hs _ ih => exact ih.mono _ fun _ _ hhead => .imp fun _ he => .unaryEnd (by rwa [hhead stop]) he
  | powerEnd _ _ ih => exact ih.imp fun _ _ => .imp fun _ he => .powerEnd he (his _)
  | power h ht hd hr ih ihr =>
    exact .linked h.shape.poised hr.shape.poised.solid ht (ih.imp fun _ _ => .imp fun _ he => .powerEnd he (his _))
      ⟨_, .powerEnd (h.before_eof hstop) (his _)⟩ (ihr.imp fun _ _ => .imp' _ fun _ he => .power h ht hd he)
  | access h ht ih iht =>
    refine .append h.shape.poised ht.shape.poised.solid (ih.imp fun _ _ => .imp fun _ he => haccess he)
      (fun _ _ => ⟨_, haccess (h.before_eof hstop)⟩) iht fun as b hhead => .imp fun e he => ?_
    exact .access (by rwa [hhead stop]) he
  | trailEnd _ => exact .nil
  | @call d a _ es ts _ _ hd h hr ih ihr =>
    have hend : Derives free d (.trail a (.call a es)) (ts ++ []) stop := .call hd (h.before_eof hstop) htrail
    rw [List.append_nil] at hend
    refine .append h.shape.poised hr.shape.poised.solid (ih.imp fun _ _ => False.elim) (fun _ _ => ⟨_, hend⟩) ihr
      fun as b hhead => .imp fun e he => ?_
    exact .call hd (by rwa [hhead stop]) he
  | @methodCall d a _ es ts _ t m _ hd ht hm h hr ih ihr =>
    have hend : Derives free d (.trail a (.methodCall a m.text es)) (t :: m :: (ts ++ [])) stop :=
      .methodCall hd ht hm (h.before_eof hstop) htrail
    rw [List.append_nil] at hend
    refine .method ht hm (.append h.shape.poised hr.shape.poised.solid (ih.imp fun _ _ => False.elim)
      (fun _ _ => ⟨_, hend⟩) ihr fun as b hhead => .imp fun e he => ?_)
    exact .methodCall hd ht hm (by rwa [hhead stop]) he
  | member hd ht hm _ ihr =>
    refine .waiting ht (.cons (Token.rise_of_isName hm) (fun _ _ _ => ⟨_, .member hd ht hm htrail⟩) ?_)
    exact ihr.imp fun _ _ => .imp fun _ he => .member hd ht hm he
  | @index _ _ _ _ ts us t u next hd ht h hu hr _ ihr =>
    have hkey : Poised 0 (t :: (ts ++ [u])) (us.headD next) := .brackets ht hu h.shape.poised
    rw [← List.singleton_append (x := u), ← List.append_assoc, ← List.cons_append]
    refine .append hkey hr.shape.poised.solid (.inside ht (h.shape.poised.closed hu : Poised 1 _ next))
      (fun _ _ => ⟨_, .index hd ht h hu htrail⟩) ihr fun as b _ => .imp fun e he => ?_
    rw [List.cons_append, List.append_assoc, List.singleton_append]
    exact .index hd ht h hu he
  | string _ | number _ | identifier _ | trueWord _ | falseWord _ | nilWord _ | vararg _ _ => exact .single _
  | parens hk ht h hu _ =>
    exact .inside (Token.is_iff.mpr ⟨.inr (.inr hk), ht⟩) (h.shape.poised.closed hu : Poised 1 _ stop)
  | table hk ht h hu _ =>
    exact .inside (Token.is_iff.mpr ⟨.inr (.inr hk), ht⟩) (h.shape.poised.closed hu : Poised 1 _ stop)
  | function ht hp hb _ => exact .inside (Token.is_of_isWord ht) (hp.poised.append hb.shape.poised)
  | one _ _ ih => exact ih.imp fun _ _ => .imp' _ fun _ he => .one he (his _)
  | cons h ht hr ih ihr =>
    exact .linked h.shape.poised hr.shape.poised.solid ht (ih.imp fun _ _ => .imp' _ fun _ he => .one he (his _))
      ⟨_, .one (h.before_eof hstop) (his _)⟩ (ihr.imp fun _ _ => .imp' _ fun _ he => .cons h ht he)
  | noArguments ht hu => exact .inside ht (.closer hu : Poised 1 _ stop)
  | arguments ht _ h hu _ => exact .inside ht (h.shape.poised.closed hu : Poised 1 _ stop)
  | _ => exact fun _ _ _ _ _ _ _ => trivial

/-- What is left of a statement that is cut short, other than before the `;` of a return: a statement that goes on
behind the cut. -/
def Stmt.Left (free : Bool) (d : Nat) (stop : Token) (as : List Token) (b : Token) : Prop :=
  b.is ";" = true ∨ ∃ s : Stmt, Derives free d (.stmt (some s)) as stop ∧ (b.joins = true → s.action.goesOn b = true)

theorem Derives.cuts_stmt (hstop : stop.isEof = true) {o : Option Stmt} (h : Derives free d (.stmt o) ts next) :
    Cuts (Stmt.Left free d stop) ts := by
  have his := Token.is_of_isEof hstop
  have hassign := Token.assignOp?_of_isEof hstop
  cases h with
  | skip _ | leaveLoop _ => exact .single _
  | @declare _ t m _ ht hm _ => exact .waiting (Token.is_of_isWord ht) (.single m)
  | declareAs ht hm hu h =>
    refine .waiting (Token.is_of_isWord ht) (.cons (Token.rise_of_isName hm) (fun _ b hb => ?_) (.waiting hu ?_))
    · obtain rfl := Option.some.inj hb
      exact .inr ⟨_, .declare ht hm (his _), fun _ => hu⟩
    · exact (h.cuts hstop).imp fun _ _ he => .inr (he.imp' _ fun _ he => ⟨.declareAs ht hm hu he, id⟩)
  | localFunction ht hf hm hp hb =>
    exact .waiting (Token.is_of_isWord ht) (.inside hf (.name hm (hp.poised.append hb.shape.poised)))
  | define ht hm hs hp hb =>
    exact .inside (Token.is_of_isWord ht) (.name hm (hs.poised.append (hp.poised.append hb.shape.poised)))
  | conditional ht h => exact .inside (Token.is_of_isWord ht) h.shape.poised
  | whileLoop ht hc hm hb =>
    exact .inside (Token.is_of_isWord ht) (hc.shape.poised.append (.append (.maybe hm) hb.shape.poised))
  | forLoop ht hm hu hf hv hl hs hw hb =>
    have hrest := hl.shape.poised.append (hs.shape.poised.append (.append (.maybe hw) hb.shape.poised))
    have hrange := Poised.symbol (r := 0) hu (hf.shape.poised.linked hv hrest)
    exact .inside (Token.is_of_isWord ht) (.name hm hrange)
  | forEach ht hm _ hn hu he hw hb =>
    have hrest := he.shape.poised.append (.append (.maybe hw) hb.shape.poised)
    exact .inside (Token.is_of_isWord ht) (.name hm (hn.poised.linked hu hrest))
  | giveNothing ht _ hu =>
    rcases hu with ⟨u, -, rfl⟩ | ⟨rfl, -⟩
    · exact .waiting (Token.is_of_isWord ht) (.single u)
    · exact .single _
  | @giveBack _ es ts us t _ ht hs h hu =>
    -- The values are not empty, and stay so.
    have hleft {as : List Token} {b : Token} (hhead : ∀ v, as.headD v = ts.headD (us.headD next)) {es : List Expr}
        (hes : Derives free d (.exprs es) as stop) : Stmt.Left free d stop (t :: as) b := by
      refine .inr ⟨.mk t.line (.giveBack es), ?_, fun hb => ?_⟩
      · have hgive : Derives free d (.stmt (some (.mk t.line (.giveBack es)))) (t :: (as ++ [])) stop :=
          .giveBack ht (by rwa [hhead]) hes (.inr ⟨rfl, his _⟩)
        rwa [List.append_nil] at hgive
      · cases hes <;> exact hb
    refine .waiting (Token.is_of_isWord ht) ?_
    rcases hu with ⟨u, hu, rfl⟩ | ⟨rfl, -⟩
    · refine .append h.shape.poised (by simp [Token.isEof_of_is hu]) ((h.cuts hstop).mono u fun as b hhead hes => ?_)
        (fun b hb => ?_) (.single u) fun _ _ _ => False.elim
      · obtain ⟨es, hes⟩ := hes
        exact hleft hhead hes
      · obtain rfl := Option.some.inj hb
        exact .inl hu
    · rw [List.append_nil]
      refine (h.cuts hstop).mono next fun as b hhead hes => ?_
      obtain ⟨es, hes⟩ := hes
      exact hleft hhead hes
  | evaluate hs hc h _ =>
    refine (h.cuts hstop).mono next fun as b hhead he => .inr ?_
    obtain ⟨e, he⟩ := he
    exact ⟨_, .evaluate (by rwa [hhead stop]) (by rwa [hhead stop]) he hassign, id⟩
  | @assign _ e _ op ts us u _ hs hc h hu ha hv =>
    have hleft {as : List Token} {b : Token} (hhead : ∀ v, as.headD v = ts.headD u) {e : Expr}
        (he : Derives free d (.nested e) as stop) : Stmt.Left free d stop as b :=
      .inr ⟨_, .evaluate (by rwa [hhead stop]) (by rwa [hhead stop]) he hassign, id⟩
    refine .linked h.shape.poised hv.shape.poised.solid (Token.is_of_assignOp? hu)
      ((h.cuts hstop).mono u fun as b hhead he => ?_) ?_ ?_ op.weight_symbol op.symbol_mem.2
    · obtain ⟨e, he⟩ := he
      exact hleft hhead he
    · refine hleft (fun v => ?_) (h.before_eof hstop)
      obtain ⟨t, ts, rfl⟩ := List.exists_cons_of_ne_nil (h.ne_nil rfl)
      rfl
    · exact (hv.cuts hstop).imp fun _ _ he => .inr (he.imp' _ fun _ he => ⟨.assign hs hc h hu ha he, id⟩)

/-- Can the row end before the token: no statement goes over the cut? -/
def Ended (free : Bool) (d : Nat) (stop : Token) (as : List Token) (b : Token) : Prop :=
  b.is ";" = true ∨ breaksOff as = false ∧ (as.getLast?.any (·.is ";") = true ∨
    ∀ (q : List Stmt) (s : Stmt), Derives free d (.stmts [] (q ++ [s])) as stop → s.action.goesOn b = false)

variable {as bs : List Token}

/-- A statement alone is a block. -/
theorem Derives.stmts_singleton (hstop : stop.isEof = true) {s : Stmt}
    (h : Derives free d (.stmt (some s)) as stop) : Derives free d (.stmts [] [s]) as stop := by
  have hfirst : (as.headD stop).closesBlock [] = false := by
    obtain ⟨t, ts, rfl⟩ := List.exists_cons_of_ne_nil (h.ne_nil rfl)
    simpa [Token.closesBlock] using h.shape.poised.solid t List.mem_cons_self
  rw [← List.append_nil as]
  exact .stmtsCons hfirst h (.stmtsEnd (by simp [Token.closesBlock, hstop]))

/-- A statement cannot end where its tokens hold together. -/
theorem Derives.not_ended (hstop : stop.isEof = true) {o : Option Stmt} {c : Token} {cs ws : List Token}
    (h : Derives free d (.stmt o) (as ++ c :: cs) next) (ht : Tight (as ++ c :: ws)) (ha : as ≠ [])
    (hh : height as = 0) : ¬Ended free d stop as c := by
  intro hends
  obtain ⟨hc, hjoins⟩ := ht as c ws rfl hh
  obtain ⟨hwhole, hended⟩ := hends.resolve_left (by simp [hc])
  have hawaits : as.getLast?.any Token.awaits = false := (Bool.or_eq_false_iff.mp hwhole).1
  have hsign : as.getLast?.any (·.is ";") = false := by
    obtain ⟨as', a, rfl⟩ := (List.eq_nil_or_concat as).resolve_left ha
    rw [List.concat_eq_append, List.getLast?_concat, Option.any_some, Bool.eq_false_iff]
    intro hsign
    have hflat : a.rise = 0 := Token.rise_of_is hsign
    have hbefore := ht as' a (c :: ws) (by simp) (by simpa [hflat] using hh)
    rw [hbefore.1] at hsign
    cases hsign
  have hgoes : c.joins = true := by
    rcases hjoins ha with hgoes | ⟨a, ha, hwaits⟩
    · exact hgoes
    · rw [Option.mem_def.mp ha, Option.any_some, hwaits] at hawaits
      cases hawaits
  rcases h.cuts_stmt hstop as c cs rfl ha hh hwhole with hleft | ⟨s, hs, hleft⟩
  · rw [hc] at hleft
    cases hleft
  · have hover := hended.resolve_left (by simp [hsign]) [] s (hs.stmts_singleton hstop)
    rw [hleft hgoes] at hover
    cases hover

/-- A cut outside the brackets and blocks of a statement, where it can end, is a cut behind the statement, or before
the `;` of a return. -/
theorem Derives.cut_stmt (hstop : stop.isEof = true) {o : Option Stmt} (h : Derives free d (.stmt o) ts (us.headD next))
    (hus : ∀ u ∈ us, u.isEof = false) (heq : as ++ bs = ts ++ us) (ha : as ≠ []) (hb : bs ≠ []) (hh : height as = 0)
    (hcut : ∀ b ∈ bs.head?, Ended free d stop as b) :
    (∃ cs, as = ts ++ cs ∧ us = cs ++ bs ∧ height cs = 0) ∨
      ∃ u, ts = as ++ [u] ∧ bs = u :: us ∧ u.is ";" = true ∧ Derives free d (.stmt o) as stop := by
  rcases List.append_eq_append_iff.mp heq with ⟨cs, rfl, rfl⟩ | ⟨cs, rfl, rfl⟩
  · cases cs with
    | nil => exact .inl ⟨[], by simp, rfl, rfl⟩
    | cons c cs =>
      have hended := hcut c rfl
      rcases h.tight_stmt hstop with ht | ⟨vs, u, hvs, hu, ht, hreturn⟩
      · exact absurd hended (h.not_ended hstop ht ha hh)
      · -- only the `;` of a return is not held, so the cut is before it
        rcases List.eq_nil_or_concat cs with rfl | ⟨ws, w, rfl⟩
        · obtain ⟨rfl, hcu⟩ := List.append_inj' hvs rfl
          obtain rfl := List.singleton_inj.mp hcu
          exact .inr ⟨c, rfl, rfl, hu, hreturn ha⟩
        · have hvs' : as ++ c :: ws ++ [w] = vs ++ [u] := by simpa using hvs
          obtain ⟨rfl, -⟩ := List.append_inj' hvs' rfl
          exact absurd hended (h.not_ended hstop ht ha hh)
  · have hts : height ts = 0 := h.shape.poised.height_eq hus (by simp [hb])
    exact .inl ⟨cs, rfl, rfl, by simpa [hts] using hh⟩

theorem Derives.eq_nil_of_stmts {stops : List String} {p : List Stmt} (h : Derives free d (.stmts stops p) [] next) :
    p = [] := by
  generalize hts : ([] : List Token) = ts at h
  cases h with
  | stmtsEnd _ => rfl
  | stmtsSkip _ h _ | stmtsCons _ h _ => exact absurd (List.append_eq_nil_iff.mp hts.symm).1 (h.ne_nil rfl)

/-- What can end behind a statement can end without it. -/
theorem Ended.of_append {cs : List Token} {b : Token} (h : Ended free d stop (ts ++ cs) b)
    (hts : ∀ p : List Stmt, Derives free d (.stmts [] p) cs stop →
      ∃ q, Derives free d (.stmts [] (q ++ p)) (ts ++ cs) stop) : Ended free d stop cs b := by
  refine h.imp_right fun h => ⟨breaksOff_of_append h.1, ?_⟩
  by_cases hcs : cs = []
  · subst hcs
    refine .inr fun q s hs => ?_
    simpa using hs.eq_nil_of_stmts
  · have hends := h.2
    rw [List.getLast?_append_of_ne_nil _ hcs] at hends
    refine hends.imp_right fun hends q s hs => ?_
    obtain ⟨q', hs'⟩ := hts _ hs
    rw [← List.append_assoc] at hs'
    exact hends _ s hs'

/-- A row of statements is cut between two of them, where no block or bracket is open and no statement goes over the
cut. -/
theorem Derives.cut {p : List Stmt} (hstop : stop.isEof = true) (h : Derives free d (.stmts [] p) (as ++ bs) next)
    (hb : bs ≠ []) (hh : height as = 0) (hcut : ∀ b ∈ bs.head?, Ended free d stop as b) :
    ∃ q r, p = q ++ r ∧ Derives free d (.stmts [] q) as stop ∧ Derives free d (.stmts [] r) bs next := by
  have hdone (d : Nat) : Derives free d (.stmts [] []) [] stop := .stmtsEnd (by simp [Token.closesBlock, hstop])
  have hopen {d : Nat} {o : Option Stmt} {ts : List Token} {next next' : Token} (h : Derives free d (.stmt o) ts next) :
      (ts.headD next').closesBlock [] = false := by
    obtain ⟨t, ts, rfl⟩ := List.exists_cons_of_ne_nil (h.ne_nil rfl)
    simpa [Token.closesBlock] using h.shape.poised.solid t List.mem_cons_self
  -- The head of what follows a statement is the same before the cut, and at the cut it is the end of input.
  have hbefore {d : Nat} {o : Option Stmt} {ts cs : List Token} {next : Token}
      (h : Derives free d (.stmt o) ts ((cs ++ bs).headD next)) : Derives free d (.stmt o) ts (cs.headD stop) := by
    rw [List.headD_append] at h
    exact headD_or (P := Derives free d (.stmt o) ts) cs h (h.before_eof hstop)
  generalize hph : Phrase.stmts [] p = ph at h
  generalize hts : as ++ bs = ts at h
  induction h generalizing p as with
  | stmtsEnd _ => simp [hb] at hts
  | @stmtsSkip d _ ss ts us next hs h hr _ ihr =>
    cases hph
    by_cases ha : as = []
    · subst ha
      refine ⟨[], ss, rfl, hdone d, ?_⟩
      rw [← List.nil_append bs, hts]
      exact .stmtsSkip hs h hr
    · have hseam := h.cut_stmt hstop hr.shape.poised.solid hts ha hb hh hcut
      obtain ⟨cs, rfl, rfl, hcs⟩ | ⟨u, htwo, -, -, hsign⟩ := hseam
      · have hfront {p : List Stmt} (hp : Derives free d (.stmts [] p) cs stop) :
            Derives free d (.stmts [] p) (ts ++ cs) stop := .stmtsSkip (hopen h) (hbefore h) hp
        have hcut' := fun b hb => (hcut b hb).of_append fun p hp => ⟨[], hfront hp⟩
        obtain ⟨q, r, rfl, hq, hr'⟩ := ihr hcs hcut' rfl rfl
        exact ⟨q, r, rfl, hfront hq, hr'⟩
      · cases hsign
        cases h
        cases htwo
  | @stmtsCons d _ s ss ts us next hs h hr _ ihr =>
    cases hph
    by_cases ha : as = []
    · subst ha
      refine ⟨[], s :: ss, rfl, hdone d, ?_⟩
      rw [← List.nil_append bs, hts]
      exact .stmtsCons hs h hr
    · have hseam := h.cut_stmt hstop hr.shape.poised.solid hts ha hb hh hcut
      obtain ⟨cs, rfl, rfl, hcs⟩ | ⟨u, rfl, rfl, hu, hreturn⟩ := hseam
      · have hfront {p : List Stmt} (hp : Derives free d (.stmts [] p) cs stop) :
            Derives free d (.stmts [] (s :: p)) (ts ++ cs) stop := .stmtsCons (hopen h) (hbefore h) hp
        have hcut' := fun b hb => (hcut b hb).of_append fun p hp => ⟨[s], hfront hp⟩
        obtain ⟨q, r, rfl, hq, hr'⟩ := ihr hcs hcut' rfl rfl
        exact ⟨s :: q, r, rfl, hfront hq, hr'⟩
      · have hlast : Derives free d (.stmts [] [s]) (as ++ []) stop := .stmtsCons (hopen hreturn) hreturn (hdone d)
        rw [List.append_nil] at hlast
        have hsign : Derives free d (.stmt none) [u] (us.headD next) := .skip hu
        exact ⟨[s], ss, rfl, hlast, .stmtsSkip (hopen hsign) hsign hr⟩
  | _ => cases hph

end

end ScriptGraph
