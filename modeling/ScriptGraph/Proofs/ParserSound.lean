import ScriptGraph.Proofs.Grammar

namespace ScriptGraph

namespace Cursor

/-- `t` is `s` behind the tokens `ts`. -/
structure Behind (s : Cursor) (ts : List Token) (t : Cursor) : Prop where
  pending : s.pending = ts ++ t.pending
  stop : t.stop = s.stop

variable {s t u : Cursor} {ts us : List Token}

theorem Behind.refl (s : Cursor) : s.Behind [] s := ⟨rfl, rfl⟩

theorem Behind.trans (h : s.Behind ts t) (h' : t.Behind us u) : s.Behind (ts ++ us) u :=
  ⟨by rw [h.pending, h'.pending, List.append_assoc], h'.stop.trans h.stop⟩

theorem Behind.peek (h : s.Behind ts t) : s.peek = ts.headD t.peek := by
  unfold Cursor.peek
  rw [h.pending, h.stop]
  cases ts <;> rfl

theorem behind_advance (hs : s.stop.isEof = true) (h : s.peek.isEof = false) :
    s.Behind [s.peek] s.advance ∧ s.advance.depth = s.depth := by
  obtain ⟨pending, stop, depth⟩ := s
  cases pending with
  | nil =>
    have : stop.isEof = false := h
    simp [this] at hs
  | cons v vs =>
    have hv : v.isEof = false := h
    refine ⟨⟨?_, ?_⟩, ?_⟩ <;> simp [Cursor.advance, Cursor.peek, hv]

theorem advance_of_isEof (h : s.peek.isEof = true) : s.advance = s := by
  obtain ⟨pending, stop, depth⟩ := s
  cases pending with
  | nil => rfl
  | cons v vs =>
    have hv : v.isEof = true := h
    simp [Cursor.advance, hv]

end Cursor

namespace Parser

variable {α β σ : Type}

theorem bind_eq_ok {p : Parser α} {f : α → Parser β} {s u : Cursor} {b : β} (h : (p >>= f) s = .ok b u) :
    ∃ a t, p s = .ok a t ∧ f a t = .ok b u := by
  change Parser.bind p f s = .ok b u at h
  rw [Parser.bind] at h
  cases hp : p s with
  | ok a t =>
    rw [hp] at h
    exact ⟨a, t, rfl, h⟩
  | error e t =>
    rw [hp] at h
    cases h

/-- All values of `p` meet `R`, which says how the value belongs to the depth before, the tokens
taken, the token behind them and the depth after. -/
def Sound (p : Parser α) (R : Nat → List Token → Token → Nat → α → Prop) : Prop :=
  ∀ s a t, s.stop.isEof = true → p s = .ok a t → ∃ ts, s.Behind ts t ∧ R s.depth ts t.peek t.depth a

namespace Sound

variable {p : Parser α} {f : α → Parser β} {R R' : Nat → List Token → Token → Nat → α → Prop}
  {Q : Nat → List Token → Token → Nat → β → Prop}

theorem mono (hp : Sound p R) (h : ∀ d ts next d' a, R d ts next d' a → R' d ts next d' a) : Sound p R' := by
  intro s a t hs ha
  obtain ⟨ts, ht, hr⟩ := hp s a t hs ha
  exact ⟨ts, ht, h _ _ _ _ _ hr⟩

theorem bind (hp : Sound p R)
    (hf : ∀ a, Sound (f a) fun d' us next d'' b =>
      ∀ d ts, R d ts (us.headD next) d' a → Q d (ts ++ us) next d'' b) : Sound (p >>= f) Q := by
  intro s b u hs hb
  obtain ⟨a, t, ha, hb⟩ := bind_eq_ok hb
  obtain ⟨ts, ht, hr⟩ := hp s a t hs ha
  obtain ⟨us, hu, hq⟩ := hf a t b u (ht.stop ▸ hs) hb
  rw [hu.peek] at hr
  exact ⟨ts ++ us, ht.trans hu, hq _ _ hr⟩

/-- The last parser of a row. -/
theorem map (hp : Sound p R) {g : α → β} (h : ∀ d ts next d' a, R d ts next d' a → Q d ts next d' (g a)) :
    Sound (p >>= fun a => Pure.pure (g a)) Q := by
  intro s b u hs hb
  obtain ⟨a, t, ha, hb⟩ := bind_eq_ok hb
  cases hb
  obtain ⟨ts, ht, hr⟩ := hp s a _ hs ha
  exact ⟨ts, ht, h _ _ _ _ _ hr⟩

theorem pure {a : α} (h : ∀ d next, R d [] next d a) : Sound (Pure.pure a) R := by
  intro s b t _ hb
  cases hb
  exact ⟨[], .refl s, h _ _⟩

theorem pure_bind {a : α} (h : Sound (f a) Q) : Sound (Parser.pure a >>= f) Q := h

theorem map_bind {γ : Type} {g : γ → α} {q : Parser γ} (h : Sound (q >>= fun c => f (g c)) Q) :
    Sound (g <$> q >>= f) Q := by
  intro s b u hs hb
  obtain ⟨a, t, ha, hb⟩ := bind_eq_ok hb
  obtain ⟨c, v, hc, hv⟩ := bind_eq_ok ha
  cases hv
  refine h s b u hs ?_
  change Parser.bind q (fun c => f (g c)) s = _
  rw [Parser.bind, hc]
  exact hb

theorem refuse : Sound (Parser.refuse (α := α)) R := by
  intro s a t _ ha
  cases ha

theorem refuse_bind : Sound (Parser.refuse >>= f) Q := by
  intro s a t _ ha
  cases ha

/-- A look at the token ahead: the first one taken from there on, or the one behind. -/
theorem look_bind {g : Token → α}
    (hf : ∀ a, Sound (f a) fun d us next d' b => a = g (us.headD next) → Q d us next d' b) :
    Sound (Parser.look (fun s => g s.peek) >>= f) Q := by
  intro s b u hs hb
  obtain ⟨ts, ht, hq⟩ := hf _ s b u hs hb
  exact ⟨ts, ht, hq (congrArg g ht.peek)⟩

/-- A look at two tokens. -/
theorem lookTwo_bind {g : Token → Token → α}
    (hf : ∀ a, Sound (f a) fun d us next d' b =>
      (us ≠ [] → a = g (us.headD next) (us.tail.headD next)) → Q d us next d' b) :
    Sound (Parser.look (fun s => g s.peek s.peekNext) >>= f) Q := by
  intro s b u hs hb
  obtain ⟨ts, ht, hq⟩ := hf _ s b u hs hb
  refine ⟨ts, ht, hq fun hne => ?_⟩
  obtain ⟨v, vs, rfl⟩ := List.exists_cons_of_ne_nil hne
  have hnext : s.peekNext = vs.headD u.peek := by
    unfold Cursor.peekNext Cursor.peek
    rw [ht.pending, ht.stop, List.cons_append, List.tail_cons, List.headD_append]
  change g s.peek s.peekNext = _
  rw [ht.peek, hnext]
  rfl

theorem next : Sound Parser.next fun d ts next d' t =>
    d' = d ∧ t = ts.headD next ∧ (t.isEof = false → ts = [t]) := by
  intro s a t hs ha
  cases ha
  cases he : s.peek.isEof with
  | false =>
    obtain ⟨h, hd⟩ := Cursor.behind_advance hs he
    exact ⟨_, h, hd, rfl, fun _ => rfl⟩
  | true =>
    rw [Cursor.advance_of_isEof he]
    exact ⟨[], .refl s, rfl, rfl, fun h => by simp [he] at h⟩

/-- Takes the token ahead after a look at it, which saw that the input goes on. -/
theorem next_bind {f : Token → Parser β} {g : Token → α} {a : α} (hg : ∀ t, a = g t → t.isEof = false)
    (hf : ∀ t, Sound (f t) fun d us next d' b => a = g t → Q d (t :: us) next d' b) :
    Sound (Parser.next >>= f) fun d us next d' b => a = g (us.headD next) → Q d us next d' b := by
  intro s b u hs hb
  obtain ⟨t, v, hv, hb⟩ := bind_eq_ok hb
  cases hv
  cases ht : s.peek.isEof with
  | false =>
    obtain ⟨hadv, hd⟩ := Cursor.behind_advance hs ht
    obtain ⟨us, hu, hq⟩ := hf _ s.advance b u (hadv.stop ▸ hs) hb
    rw [hd] at hq
    exact ⟨s.peek :: us, hadv.trans hu, hq⟩
  | true =>
    rw [Cursor.advance_of_isEof ht] at hb
    obtain ⟨us, hu, -⟩ := hf _ s b u hs hb
    refine ⟨us, hu, fun ha => ?_⟩
    rw [← hu.peek] at ha
    simp [hg _ ha] at ht

theorem expect_bind {text : String} {f : Unit → Parser β}
    (hf : ∀ t, t.is text = true → Sound (f ()) fun d us next d' b => Q d (t :: us) next d' b) :
    Sound (Parser.expect text >>= f) Q := by
  intro s b u hs hb
  obtain ⟨_, t, ht, hb⟩ := bind_eq_ok hb
  unfold Parser.expect at ht
  split at ht
  · rename_i hc
    cases ht
    obtain ⟨hadv, hd⟩ := Cursor.behind_advance hs (Token.isEof_of_is hc)
    obtain ⟨us, hu, hq⟩ := hf s.peek hc s.advance b u (hadv.stop ▸ hs) hb
    rw [hd] at hq
    exact ⟨s.peek :: us, hadv.trans hu, hq⟩
  · cases ht

theorem eat_bind {text : String} {f : Bool → Parser β}
    (ht : ∀ t, t.is text = true → Sound (f true) fun d us next d' b => Q d (t :: us) next d' b)
    (hf : Sound (f false) fun d us next d' b => (us.headD next).is text = false → Q d us next d' b) :
    Sound (Parser.eat text >>= f) Q := by
  intro s b u hs hb
  obtain ⟨c, t, hc, hb⟩ := bind_eq_ok hb
  unfold Parser.eat at hc
  split at hc
  · rename_i hcheck
    cases hc
    obtain ⟨hadv, hd⟩ := Cursor.behind_advance hs (Token.isEof_of_is hcheck)
    obtain ⟨us, hu, hq⟩ := ht s.peek hcheck s.advance b u (hadv.stop ▸ hs) hb
    rw [hd] at hq
    exact ⟨s.peek :: us, hadv.trans hu, hq⟩
  · rename_i hcheck
    cases hc
    obtain ⟨us, hu, hq⟩ := hf _ b u hs hb
    refine ⟨us, hu, hq ?_⟩
    rw [← hu.peek]
    exact Bool.eq_false_iff.mpr hcheck

theorem maybe_bind {text : String} {f : Bool → Parser β}
    (hf : ∀ c, Sound (f c) fun d us next d' b => ∀ ts, Maybe text ts (us.headD next) → Q d (ts ++ us) next d' b) :
    Sound (Parser.eat text >>= f) Q := by
  refine eat_bind (fun t ht => (hf true).mono ?_) ((hf false).mono ?_)
  · intro d us next d' b hq
    exact hq [t] (.inl ⟨t, ht, rfl⟩)
  · intro d us next d' b hq hn
    exact hq [] (.inr ⟨rfl, hn⟩)

theorem maybe_map {text : String} {b : β} (h : ∀ d ts next, Maybe text ts next → Q d ts next d b) :
    Sound (Parser.eat text >>= fun _ => Pure.pure b) Q := by
  refine eat_bind (fun t ht => pure ?_) (pure ?_)
  · intro d next
    exact h d [t] next (.inl ⟨t, ht, rfl⟩)
  · intro d next hn
    exact h d [] next (.inr ⟨rfl, hn⟩)

theorem identifier_bind {f : String → Parser β}
    (hf : ∀ t, t.isName = true → Sound (f t.text) fun d us next d' b => Q d (t :: us) next d' b) :
    Sound (Parser.identifier >>= f) Q := by
  intro s b u hs hb
  obtain ⟨a, t, ha, hb⟩ := bind_eq_ok hb
  unfold Parser.identifier at ha
  split at ha
  · rename_i hc
    cases ha
    have hn := Token.isName_iff.mpr hc
    obtain ⟨hadv, hd⟩ := Cursor.behind_advance hs (Token.isEof_of_isName hn)
    obtain ⟨us, hu, hq⟩ := hf s.peek hn s.advance b u (hadv.stop ▸ hs) hb
    rw [hd] at hq
    exact ⟨s.peek :: us, hadv.trans hu, hq⟩
  · cases ha

theorem enter_bind {f : Unit → Parser β}
    (hf : Sound (f ()) fun d us next d' b => ∀ c, d = c + 1 → c < maxDepth → Q c us next d' b) :
    Sound (Parser.enter >>= f) Q := by
  intro s b u hs hb
  obtain ⟨_, t, ht, hb⟩ := bind_eq_ok hb
  unfold Parser.enter at ht
  dsimp only at ht
  split at ht
  · cases ht
  · rename_i hd
    cases ht
    obtain ⟨us, hu, hq⟩ := hf { s with depth := s.depth + 1 } b u hs hb
    exact ⟨us, ⟨hu.pending, hu.stop⟩, hq _ rfl (by omega)⟩

theorem chained (hp : Sound p R) : Sound (Parser.chained p) fun d ts next d' a =>
    d' = d ∧ ∃ d'', R d ts next d'' a := by
  intro s a t hs ha
  unfold Parser.chained at ha
  split at ha
  · rename_i b u hu
    cases ha
    obtain ⟨ts, ht, hr⟩ := hp s _ u hs hu
    exact ⟨ts, ⟨ht.pending, ht.stop⟩, rfl, _, hr⟩
  · cases ha

/-- One step of a loop with the meaning `L`: it ends the loop, or extends what the rest of it means. -/
def LoopStep (L : α → Nat → List Token → Token → Nat → α → Prop) (a : α) (d : Nat) (ts : List Token)
    (next : Token) (d' : Nat) : Option α → Prop
  | none => ts = [] ∧ L a d [] next d' a
  | some b => ts ≠ [] ∧ ∀ us next' d'' c, next = us.headD next' → L b d' us next' d'' c →
    L a d (ts ++ us) next' d'' c

def UnfoldStep (L : σ → Nat → List Token → Token → Nat → List α → Prop) (x : σ) (d : Nat) (ts : List Token)
    (next : Token) (d' : Nat) : Option (α × σ) → Prop
  | none => ts = [] ∧ L x d [] next d' []
  | some (a, y) => ts ≠ [] ∧ ∀ us next' d'' as, next = us.headD next' → L y d' us next' d'' as →
    L x d (ts ++ us) next' d'' (a :: as)

theorem iterate {step : α → Parser (Option α)} {L : α → Nat → List Token → Token → Nat → α → Prop}
    (hstep : ∀ a, Sound (step a) (LoopStep L a)) (a : α) : Sound (Parser.iterate a step) (L a) := by
  -- each step takes a token, so the budget outlasts the tokens
  have hwithin : ∀ budget a s c t, s.stop.isEof = true → s.pending.length < budget.length →
      iterateWithin step budget a s = .ok c t →
      ∃ ts, s.Behind ts t ∧ L a s.depth ts t.peek t.depth c := by
    intro budget
    induction budget with
    | nil => intro a s c t _ hb; simp at hb
    | cons v budget ih =>
      intro a s c t hs hb h
      obtain ⟨o, u, ho, hu⟩ := bind_eq_ok h
      obtain ⟨ts, hts, hr⟩ := hstep a s o u hs ho
      cases o with
      | none =>
        obtain ⟨rfl, hr⟩ := hr
        cases hu
        exact ⟨[], hts, hr⟩
      | some b =>
        obtain ⟨hne, hr⟩ := hr
        have hlen : u.pending.length < budget.length := by
          have := congrArg List.length hts.pending
          have := List.length_pos_iff.mpr hne
          simp only [List.length_append, List.length_cons] at *
          omega
        obtain ⟨us, hus, hl⟩ := ih b u c t (hts.stop ▸ hs) hlen hu
        exact ⟨ts ++ us, hts.trans hus, hr us _ _ _ hus.peek hl⟩
  intro s c t hs h
  exact hwithin s.budget a s c t hs (by simp [Cursor.budget]) h

theorem unfold {step : σ → Parser (Option (α × σ))} {L : σ → Nat → List Token → Token → Nat → List α → Prop}
    (hstep : ∀ x, Sound (step x) (UnfoldStep L x)) (x : σ) : Sound (Parser.unfold x step) (L x) := by
  have hwithin : ∀ budget x s as t, s.stop.isEof = true → s.pending.length < budget.length →
      unfoldWithin step budget x s = .ok as t →
      ∃ ts, s.Behind ts t ∧ L x s.depth ts t.peek t.depth as := by
    intro budget
    induction budget with
    | nil => intro x s as t _ hb; simp at hb
    | cons v budget ih =>
      intro x s as t hs hb h
      obtain ⟨o, u, ho, hu⟩ := bind_eq_ok h
      obtain ⟨ts, hts, hr⟩ := hstep x s o u hs ho
      cases o with
      | none =>
        obtain ⟨rfl, hr⟩ := hr
        cases hu
        exact ⟨[], hts, hr⟩
      | some ay =>
        obtain ⟨a, y⟩ := ay
        obtain ⟨hne, hr⟩ := hr
        have hlen : u.pending.length < budget.length := by
          have := congrArg List.length hts.pending
          have := List.length_pos_iff.mpr hne
          simp only [List.length_append, List.length_cons] at *
          omega
        obtain ⟨rest, w, hw, hrest⟩ := bind_eq_ok hu
        cases hrest
        obtain ⟨us, hus, hl⟩ := ih y u rest _ (hts.stop ▸ hs) hlen hw
        exact ⟨ts ++ us, hts.trans hus, hr us _ _ _ hus.peek hl⟩
  intro s as t hs h
  exact hwithin s.budget x s as t hs (by simp [Cursor.budget]) h

end Sound

/-- The value as a phrase derives from the tokens, at a depth that is left again. -/
def reading (phrase : α → Phrase) (d : Nat) (ts : List Token) (next : Token) (d' : Nat) (a : α) : Prop :=
  d' = d ∧ Derives false d (phrase a) ts next

/-- The same one level down. -/
def readingIn (phrase : α → Phrase) (d : Nat) (ts : List Token) (next : Token) (d' : Nat) (a : α) : Prop :=
  d' = d ∧ Fits false d ∧ Derives false (d + 1) (phrase a) ts next

namespace Sound

variable {p : Parser α} {f : α → Parser β} {phrase : α → Phrase}
  {Q : Nat → List Token → Token → Nat → β → Prop}

theorem reading_bind (hp : Sound p (reading phrase))
    (hf : ∀ a, Sound (f a) fun d us next d' b =>
      ∀ ts, Derives false d (phrase a) ts (us.headD next) → Q d (ts ++ us) next d' b) :
    Sound (p >>= f) Q := by
  refine bind hp fun a => (hf a).mono ?_
  intro d us next d' b hq c ts ha
  obtain ⟨rfl, ha⟩ := ha
  exact hq ts ha

theorem reading_map (hp : Sound p (reading phrase)) {g : α → β}
    (h : ∀ d ts next a, Derives false d (phrase a) ts next → Q d ts next d (g a)) :
    Sound (p >>= fun a => Pure.pure (g a)) Q := by
  refine map hp ?_
  intro d ts next d' a ha
  obtain ⟨rfl, ha⟩ := ha
  exact h _ ts next a ha

theorem readingIn_map (hp : Sound p (readingIn phrase)) {g : α → β}
    (h : ∀ d ts next a, Fits false d → Derives false (d + 1) (phrase a) ts next → Q d ts next d (g a)) :
    Sound (p >>= fun a => Pure.pure (g a)) Q := by
  refine map hp ?_
  intro d ts next d' a ha
  obtain ⟨rfl, hd, ha⟩ := ha
  exact h _ ts next a hd ha

theorem within (hp : Sound p (reading phrase)) : Sound (Parser.within p) (readingIn phrase) := by
  intro s a t hs ha
  unfold Parser.within at ha
  split at ha
  · cases ha
  · rename_i u hu
    unfold Parser.enter at hu
    dsimp only at hu
    split at hu
    · cases hu
    · rename_i hd
      cases hu
      split at ha
      · rename_i hw
        cases ha
        obtain ⟨ts, ht, hdepth, hr⟩ := hp { s with depth := s.depth + 1 } _ _ hs hw
        exact ⟨ts, ⟨ht.pending, ht.stop⟩, by simp [hdepth], .inr (by omega), hr⟩
      · cases ha

end Sound

/-- What is assumed of the parsers of the level inside. -/
structure SoundInside (inner : Nested) : Prop where
  expression : Sound inner.expression (reading .nested)
  concat : Sound inner.concat (readingIn (.expr .concat))
  operand : Sound inner.operand (readingIn (.expr .unary))
  block : ∀ stops, Sound (inner.block stops) (reading (.block stops))

theorem sound_leftChain {k : Level} (hk : k.isChain = true) {item : Parser Expr}
    (hi : Sound item (reading (.expr k.below))) : Sound (leftChain k.ops item) (reading (.expr k)) := by
  let L (a : Expr) (d : Nat) (ts : List Token) (next : Token) (_ : Nat) (e : Expr) : Prop :=
    Derives false d (.chain k a e) ts next
  have hloop : ∀ a, Sound (iterate a (chainStep k.ops item)) (L a) := by
    refine Sound.iterate fun a => Sound.look_bind (g := fun t => t.binaryOp? k.ops) fun o => ?_
    cases o with
    | none =>
      refine Sound.pure ?_
      intro d next ho
      exact ⟨rfl, .chainEnd ho.symm⟩
    | some op =>
      have hop (t : Token) (ho : some op = t.binaryOp? k.ops) : t.isEof = false :=
        Token.isEof_of_is (Token.is_of_binaryOp? ho.symm).2
      have htake : Sound (next >>= fun _ => item >>= fun b => Pure.pure (some (Expr.binary op a b)))
          fun d us next d' o => some op = (us.headD next).binaryOp? k.ops →
            ∀ c, d = c + 1 → c < maxDepth → Sound.LoopStep L a c us next d' o := by
        refine Sound.next_bind hop fun t => Sound.reading_map hi ?_
        intro d ts next b hb ho c hd hc
        subst hd
        refine ⟨by simp, ?_⟩
        intro us next' d'' e hnext he
        subst hnext
        exact Derives.chainStep ho.symm (.inr hc) hb he
      refine Sound.enter_bind (htake.mono ?_)
      intro d us next d' o h c hd hc ho
      exact h ho c hd hc
  have hchain : Sound (item >>= fun a => iterate a (chainStep k.ops item)) fun d ts next _ e =>
      Derives false d (.expr k e) ts next := by
    refine Sound.reading_bind hi fun a => (hloop a).mono ?_
    intro d us next d' e he ts ha
    exact .chained hk ha he
  refine (Sound.chained hchain).mono ?_
  intro d ts next d' e h
  obtain ⟨hd, _, he⟩ := h
  exact ⟨hd, he⟩

/-- The items to come, if one is due. -/
def due (phrase : List α → Phrase) (more : Bool) (d : Nat) (ts : List Token) (next : Token) (d' : Nat)
    (as : List α) : Prop :=
  d' = d ∧ if more then Derives false d (phrase as) ts next else ts = [] ∧ as = []

theorem sound_separated {inner : Nested} (hi : Sound inner.expression (reading .nested)) :
    Sound (separated inner.expression (eat ",")) (reading .exprs) := by
  have hstep (more : Bool) : Sound (if more then do return some (← inner.expression, ← eat ",")
      else Parser.pure none) (Sound.UnfoldStep (due .exprs) more) := by
    cases more with
    | false =>
      refine Sound.pure ?_
      intro d next
      exact ⟨rfl, rfl, rfl, rfl⟩
    | true =>
      refine Sound.reading_bind hi fun e => Sound.eat_bind (fun t ht => Sound.pure ?_) (Sound.pure ?_)
      · intro d next ts he
        refine ⟨by simp, ?_⟩
        intro us next' d' es hnext hes
        obtain ⟨rfl, hes⟩ := hes
        have := Derives.cons he ht hes
        exact ⟨rfl, by simpa using this⟩
      · intro d next hn ts he
        refine ⟨by simp [he.ne_nil rfl], ?_⟩
        intro us next' d' es hnext hes
        obtain ⟨rfl, rfl, rfl⟩ := hes
        subst hnext
        have := Derives.one he hn
        exact ⟨rfl, by simpa using this⟩
  exact Sound.unfold hstep true

theorem sound_arguments {inner : Nested} (hi : Sound inner.expression (reading .nested)) :
    Sound (arguments inner) (reading .arguments) := by
  refine Sound.expect_bind fun t ht => Sound.look_bind (g := fun t => t.is ")") fun b => ?_
  cases b with
  | true =>
    refine Sound.pure_bind (Sound.expect_bind fun u hu => Sound.pure ?_)
    intro d next _
    exact ⟨rfl, .noArguments ht hu⟩
  | false =>
    refine Sound.reading_bind (sound_separated hi) fun es => Sound.expect_bind fun u hu => Sound.pure ?_
    intro d next ts hes hs
    rw [List.headD_append] at hs
    exact ⟨rfl, .arguments ht hs.symm hes hu⟩

/-- The parameters to come, if one is due. -/
def dueNames (more : Bool) (d : Nat) (ts : List Token) (next : Token) (d' : Nat) (names : List String) : Prop :=
  d' = d ∧ if more then ParamNames names ts next else ts = [] ∧ names = []

theorem sound_parameter : Sound parameter fun d ts next d' a =>
    Sound.UnfoldStep dueNames true d ts next d' (some a) := by
  refine Sound.eat_bind (fun t ht => Sound.pure ?_)
    (Sound.identifier_bind fun t ht => Sound.eat_bind (fun u hu => Sound.pure ?_) (Sound.pure ?_))
  · intro d next
    refine ⟨by simp, ?_⟩
    intro us next' d' names _ hnames
    obtain ⟨rfl, rfl, rfl⟩ := hnames
    exact ⟨rfl, .ellipsis ht⟩
  · intro d next _
    refine ⟨by simp, ?_⟩
    intro us next' d' names _ hnames
    obtain ⟨rfl, hnames⟩ := hnames
    exact ⟨rfl, .cons ht hu hnames⟩
  · intro d next hn _
    refine ⟨by simp, ?_⟩
    intro us next' d' names hnext hnames
    obtain ⟨rfl, rfl, rfl⟩ := hnames
    subst hnext
    exact ⟨rfl, .last ht hn⟩

theorem sound_parameters : Sound parameters fun d ts next d' names => d' = d ∧ Params names ts next := by
  have hstep (more : Bool) : Sound (if more then some <$> parameter else Parser.pure none)
      (Sound.UnfoldStep dueNames more) := by
    cases more with
    | false =>
      refine Sound.pure ?_
      intro d next
      exact ⟨rfl, rfl, rfl, rfl⟩
    | true => exact Sound.map sound_parameter fun _ _ _ _ _ h => h
  refine Sound.expect_bind fun t ht => Sound.look_bind (g := fun t => t.is ")") fun b => ?_
  cases b with
  | true =>
    refine Sound.pure_bind (Sound.expect_bind fun u hu => Sound.pure ?_)
    intro d next _
    exact ⟨rfl, .none ht hu⟩
  | false =>
    refine Sound.bind (Sound.unfold hstep true) fun names => Sound.expect_bind fun u hu => Sound.pure ?_
    intro d next d' ts h hs
    obtain ⟨rfl, h⟩ := h
    rw [List.headD_append] at hs
    exact ⟨rfl, .some ht hs.symm h hu⟩

theorem sound_body {inner : Nested} (hi : SoundInside inner) : Sound (body inner) (reading .body) := by
  refine Sound.reading_bind (hi.block ["end"]) fun ss => Sound.maybe_map ?_
  intro d us next he ts hb
  exact ⟨rfl, .body hb he⟩

theorem sound_tableField {inner : Nested} (hi : SoundInside inner) :
    Sound (tableField inner) (reading .field) := by
  refine Sound.eat_bind (fun t ht => ?_) ?_
  · refine Sound.reading_bind hi.expression fun key => Sound.expect_bind fun u hu =>
      Sound.expect_bind fun v hv => Sound.reading_map hi.expression ?_
    intro d us next value hvalue ts hkey
    exact ⟨rfl, .keyed ht hkey hu hv hvalue⟩
  · refine Sound.lookTwo_bind (g := fun t u => t.kind = .identifier && u.is "=") fun b => ?_
    cases b with
    | true =>
      refine Sound.bind Sound.next fun t => Sound.bind Sound.next fun u => Sound.reading_map hi.expression ?_
      intro d ts next value hvalue d₁ us hu d₂ vs ht hlook _
      obtain ⟨rfl, hu, hutake⟩ := hu
      obtain ⟨rfl, ht, httake⟩ := ht
      have hl := (hlook (by simp [hvalue.ne_nil rfl])).symm
      rw [List.headD_append, ← ht, Bool.and_eq_true, decide_eq_true_eq] at hl
      have hname := Token.isName_iff.mpr hl.1
      obtain rfl := httake (Token.isEof_of_isName hname)
      have hequals : u.is "=" = true := by
        rw [hu, ← List.headD_append]
        exact hl.2
      obtain rfl := hutake (Token.isEof_of_is hequals)
      exact ⟨rfl, .named hname hequals hvalue⟩
    | false =>
      refine Sound.reading_map hi.expression ?_
      intro d ts next value h hlook hs
      have hn := hlook (h.ne_nil rfl)
      exact ⟨rfl, .positional hs (by simpa [Token.isName] using hn.symm) h⟩

theorem sound_tableFields {inner : Nested} (hi : SoundInside inner) :
    Sound (tableFields inner) (reading .fields) := by
  have hstep (more : Bool) : Sound (fieldStep inner more) (Sound.UnfoldStep (due .fields) more) := by
    refine Sound.look_bind (g := Token.closesFields) fun b => ?_
    cases more with
    | false =>
      refine Sound.pure ?_
      intro d next _
      exact ⟨rfl, rfl, rfl, rfl⟩
    | true =>
      cases b with
      | true =>
        refine Sound.pure ?_
        intro d next hb
        exact ⟨rfl, rfl, .fieldsEnd hb.symm⟩
      | false =>
        refine Sound.reading_bind (sound_tableField hi) fun field => Sound.eat_bind
          (fun t ht => Sound.pure ?_) (Sound.eat_bind (fun t ht => Sound.pure ?_) (Sound.pure ?_))
        · intro d next ts hf hs
          refine ⟨by simp, ?_⟩
          intro us next' d' fs hnext hfs
          obtain ⟨rfl, hfs⟩ := hfs
          rw [List.headD_append] at hs
          have := Derives.fieldsCons hs.symm hf (.inl ht) hfs
          exact ⟨rfl, by simpa using this⟩
        · intro d next _ ts hf hs
          refine ⟨by simp, ?_⟩
          intro us next' d' fs hnext hfs
          obtain ⟨rfl, hfs⟩ := hfs
          rw [List.headD_append] at hs
          have := Derives.fieldsCons hs.symm hf (.inr ht) hfs
          exact ⟨rfl, by simpa using this⟩
        · intro d next hc hn ts hf hs
          refine ⟨by simp [hf.ne_nil rfl], ?_⟩
          intro us next' d' fs hnext hfs
          obtain ⟨rfl, rfl, rfl⟩ := hfs
          subst hnext
          rw [List.append_nil] at hs
          have := Derives.fieldsLast hs.symm hf hn hc
          exact ⟨rfl, by simpa using this⟩
  exact Sound.unfold hstep true

theorem sound_primary {inner : Nested} (hi : SoundInside inner) :
    Sound (primary inner) (reading (.expr .primary)) := by
  refine Sound.look_bind (g := id) fun t => ?_
  have hsame (ht : t.isEof = false) (u : Token) (hu : t = id u) : u.isEof = false := by
    subst hu
    exact ht
  have hpure {e : Expr} (ht : t.isEof = false) (h : ∀ d next, Derives false d (.expr .primary e) [t] next) :
      Sound (Parser.next >>= fun _ => Pure.pure e) fun d us next d' b =>
        t = id (us.headD next) → reading (.expr .primary) d us next d' b := by
    refine Sound.next_bind (hsame ht) fun u => Sound.pure ?_
    intro d next hu
    subst hu
    exact ⟨rfl, h d next⟩
  split
  next hk => exact hpure (by simp [Token.isEof, hk]) fun d next => .string hk
  next hk => exact hpure (by simp [Token.isEof, hk]) fun d next => .number hk
  next hk => exact hpure (by simp [Token.isEof, hk]) fun d next => .identifier (Token.isName_iff.mpr hk)
  next hk =>
    have ht : t.isEof = false := by simp [Token.isEof, hk]
    split
    next hw => exact hpure ht fun d next => .trueWord (Token.isWord_iff.mpr ⟨hk, hw⟩)
    next hw => exact hpure ht fun d next => .falseWord (Token.isWord_iff.mpr ⟨hk, hw⟩)
    next hw => exact hpure ht fun d next => .nilWord (Token.isWord_iff.mpr ⟨hk, hw⟩)
    next hw =>
      refine Sound.next_bind (hsame ht) fun u => Sound.bind sound_parameters fun names =>
        Sound.reading_map (sound_body hi) ?_
      intro d us next ss hb d' ts hp hu
      subst hu
      obtain ⟨rfl, hp⟩ := hp
      exact ⟨rfl, .function (Token.isWord_iff.mpr ⟨hk, hw⟩) hp hb⟩
    next => exact Sound.refuse
  next hk =>
    split
    next hw => exact hpure (by simp [Token.isEof, hk]) fun d next => .vararg hk hw
    next => exact Sound.refuse
  next hk =>
    have ht : t.isEof = false := by simp [Token.isEof, hk]
    split
    next hw =>
      refine Sound.next_bind (hsame ht) fun u => Sound.reading_bind hi.expression fun e =>
        Sound.expect_bind fun v hv => Sound.pure ?_
      intro d next ts h hu
      subst hu
      exact ⟨rfl, .parens hk hw h hv⟩
    next hw =>
      refine Sound.next_bind (hsame ht) fun u => Sound.reading_bind (sound_tableFields hi) fun fs =>
        Sound.expect_bind fun v hv => Sound.pure ?_
      intro d next ts h hu
      subst hu
      exact ⟨rfl, .table hk hw h hv⟩
    next => exact Sound.refuse
  next => exact Sound.refuse
  next => exact Sound.refuse

theorem sound_trailer {inner : Nested} (hi : Sound inner.expression (reading .nested)) (a : Expr) :
    Sound (trailer inner a) (Sound.LoopStep (fun a d ts next _ e => Derives false d (.trail a e) ts next) a) := by
  refine Sound.look_bind (g := Token.opensTrailer) fun b => ?_
  cases b with
  | false =>
    refine Sound.pure ?_
    intro d next hb
    exact ⟨rfl, .trailEnd hb.symm⟩
  | true =>
    refine Sound.enter_bind (Sound.look_bind (g := fun t => t.is "(") fun b => ?_)
    cases b with
    | true =>
      refine Sound.reading_map (sound_arguments hi) ?_
      intro d ts next es hes _ c hd hc _
      subst hd
      refine ⟨hes.ne_nil rfl, ?_⟩
      intro us next' d' e hnext he
      subst hnext
      exact .call (.inr hc) hes he
    | false =>
      refine Sound.eat_bind (fun t ht => Sound.identifier_bind fun m hm =>
          Sound.reading_map (sound_arguments hi) ?_)
        (Sound.eat_bind (fun t ht => Sound.identifier_bind fun m hm => Sound.pure ?_)
          (Sound.expect_bind fun t ht => Sound.reading_bind hi fun key =>
            Sound.expect_bind fun u hu => Sound.pure ?_))
      · intro d ts next es hes _ c hd hc _
        subst hd
        refine ⟨by simp, ?_⟩
        intro us next' d' e hnext he
        subst hnext
        exact .methodCall (.inr hc) ht hm hes he
      · intro d next _ _ c hd hc _
        subst hd
        refine ⟨by simp, ?_⟩
        intro us next' d' e _ he
        exact .member (.inr hc) ht hm he
      · intro d next ts hkey _ _ _ c hd hc _
        subst hd
        refine ⟨by simp, ?_⟩
        intro us next' d' e _ he
        have := Derives.index (.inr hc) ht hkey hu he
        simpa using this

theorem sound_access {inner : Nested} (hi : SoundInside inner) :
    Sound (access inner) (reading (.expr .access)) := by
  have hchain : Sound (primary inner >>= fun a => iterate a (trailer inner)) fun d ts next _ e =>
      Derives false d (.expr .access e) ts next := by
    refine Sound.reading_bind (sound_primary hi) fun a =>
      (Sound.iterate (sound_trailer hi.expression) a).mono ?_
    intro d us next d' e he ts ha
    exact .access ha he
  refine (Sound.chained hchain).mono ?_
  intro d ts next d' e h
  obtain ⟨hd, _, he⟩ := h
  exact ⟨hd, he⟩

theorem sound_power {inner : Nested} (hi : SoundInside inner) :
    Sound (power inner) (reading (.expr .power)) := by
  refine Sound.reading_bind (sound_access hi) fun base => Sound.eat_bind
    (fun t ht => Sound.readingIn_map hi.operand ?_) (Sound.pure ?_)
  · intro d us next e hd he ts hbase
    exact ⟨rfl, .power hbase ht hd he⟩
  · intro d next hn ts hbase
    have := Derives.powerEnd hbase hn
    exact ⟨rfl, by simpa using this⟩

theorem sound_unary {inner : Nested} (hi : SoundInside inner) :
    Sound (unary inner) (reading (.expr .unary)) := by
  refine Sound.look_bind (g := Token.unaryOp?) fun o => ?_
  cases o with
  | none =>
    refine (sound_power hi).mono ?_
    intro d ts next d' e h ho
    exact ⟨h.1, .unaryEnd ho.symm h.2⟩
  | some op =>
    refine Sound.next_bind (fun t ht => Token.isEof_of_unaryOp? ht.symm) fun t =>
      Sound.readingIn_map hi.operand ?_
    intro d ts next e hd he ho
    exact ⟨rfl, .unary ho.symm hd he⟩

theorem sound_concatenation {inner : Nested} (hi : SoundInside inner)
    (hs : Sound (sum inner) (reading (.expr .sum))) :
    Sound (concatenation inner) (reading (.expr .concat)) := by
  refine Sound.reading_bind hs fun left => Sound.eat_bind
    (fun t ht => Sound.readingIn_map hi.concat ?_) (Sound.pure ?_)
  · intro d us next e hd he ts hleft
    exact ⟨rfl, .concat hleft ht hd he⟩
  · intro d next hn ts hleft
    have := Derives.concatEnd hleft hn
    exact ⟨rfl, by simpa using this⟩

theorem sound_disjunction {inner : Nested} (hi : SoundInside inner) :
    Sound (disjunction inner) (reading (.expr .or)) := by
  have hproduct := sound_leftChain (k := .product) rfl (sound_unary hi)
  have hsum := sound_leftChain (k := .sum) rfl hproduct
  have hcomparison := sound_leftChain (k := .comparison) rfl (sound_concatenation hi hsum)
  exact sound_leftChain (k := .or) rfl (sound_leftChain (k := .and) rfl hcomparison)

theorem sound_pathStep (a : String × Bool) :
    Sound (pathStep a) (Sound.LoopStep (fun a d ts next d' b => d' = d ∧ Path a b ts next) a) := by
  obtain ⟨s, isMethod⟩ := a
  cases isMethod with
  | true =>
    refine Sound.pure ?_
    intro d next
    exact ⟨rfl, rfl, .done (.inl rfl)⟩
  | false =>
    refine Sound.eat_bind (fun t ht => Sound.identifier_bind fun m hm => Sound.pure ?_)
      (Sound.eat_bind (fun t ht => Sound.identifier_bind fun m hm => Sound.pure ?_) (Sound.pure ?_))
    · intro d next
      refine ⟨by simp, ?_⟩
      intro us next' d' b _ hb
      exact ⟨hb.1, .dot ht hm hb.2⟩
    · intro d next _
      refine ⟨by simp, ?_⟩
      intro us next' d' b _ hb
      exact ⟨hb.1, .colon ht hm hb.2⟩
    · intro d next hcolon hdot
      exact ⟨rfl, rfl, .done (.inr ⟨hdot, hcolon⟩)⟩

/-- A statement behind its keyword. -/
def behind (word : String) (d : Nat) (ts : List Token) (next : Token) (d' : Nat) (a : Action) : Prop :=
  d' = d ∧ ∀ t, t.isWord word = true → Derives false d (.stmt (some (.mk t.line a))) (t :: ts) next

theorem sound_localFunction {inner : Nested} (hi : SoundInside inner) :
    Sound (definition inner true) fun d ts next d' a => d' = d ∧ ∀ t f, t.isWord "local" = true →
      f.is "function" = true → Derives false d (.stmt (some (.mk t.line a))) (t :: f :: ts) next := by
  refine Sound.map_bind (Sound.identifier_bind fun m hm => Sound.bind sound_parameters fun names =>
    Sound.reading_map (sound_body hi) ?_)
  intro d us next ss hb d' ts hp
  obtain ⟨rfl, hp⟩ := hp
  refine ⟨rfl, fun t f ht hf => ?_⟩
  exact .localFunction ht hf hm hp hb

theorem sound_define {inner : Nested} (hi : SoundInside inner) :
    Sound (definition inner false) (behind "function") := by
  have hpath : Sound functionName fun d ts next d' a => d' = d ∧
      ∃ m us, m.isName = true ∧ ts = m :: us ∧ Path (m.text, false) a us next := by
    refine Sound.identifier_bind fun m hm => (Sound.iterate sound_pathStep (m.text, false)).mono ?_
    intro d us next d' a h
    exact ⟨h.1, m, us, hm, rfl, h.2⟩
  refine Sound.bind hpath fun a => ?_
  obtain ⟨s, isMethod⟩ := a
  refine Sound.bind sound_parameters fun names => Sound.reading_map (sound_body hi) ?_
  intro d us next ss hb d₁ ts hp d₂ _ hs
  obtain ⟨rfl, hp⟩ := hp
  obtain ⟨rfl, m, ps, hm, rfl, hs⟩ := hs
  refine ⟨rfl, fun t ht => ?_⟩
  exact .define ht hm hs hp hb

theorem sound_localDeclaration {inner : Nested} (hi : SoundInside inner) :
    Sound (localDeclaration inner) (behind "local") := by
  refine Sound.eat_bind (fun f hf => (sound_localFunction hi).mono ?_)
    (Sound.identifier_bind fun m hm => Sound.eat_bind
      (fun u hu => Sound.reading_map hi.expression ?_) (Sound.pure ?_))
  · intro d ts next d' a h
    exact ⟨h.1, fun t ht => h.2 t f ht hf⟩
  · intro d ts next e he _
    exact ⟨rfl, fun t ht => .declareAs ht hm hu he⟩
  · intro d next hn _
    exact ⟨rfl, fun t ht => .declare ht hm hn⟩

theorem sound_conditionalWithin {inner : Nested} (hi : SoundInside inner) (budget : List Token) :
    Sound (conditionalWithin inner budget) fun d ts next d' s => d' = d ∧
      ((ts.headD next).isEof = false → ∃ t us, ts = t :: us ∧ Derives false d (.tail t.line s) us next) := by
  induction budget with
  | nil => exact Sound.refuse
  | cons _ budget ih =>
    -- the keyword was seen ahead, so it is taken
    refine Sound.bind (R := fun d ts next d' t => d' = d ∧ t = ts.headD next ∧ (t.isEof = false → ts = [t]))
      Sound.next fun t => Sound.mono (R := fun d us next d' s => d' = d ∧ Derives false d (.tail t.line s) us next)
        ?_ ?_
    · refine Sound.reading_bind hi.expression fun c => Sound.maybe_bind fun _ =>
        Sound.reading_bind (hi.block _) fun ss => Sound.look_bind (g := fun t => t.is "elseif") fun b => ?_
      cases b with
      | true =>
        refine Sound.map ih ?_
        intro d xs next d' s hs hb vs hv us hu ts hc
        obtain ⟨rfl, hs⟩ := hs
        obtain ⟨u, ws, rfl, hr⟩ := hs (Token.isEof_of_is hb.symm)
        simp only [List.headD_append, List.headD_cons] at hc hu hv
        refine ⟨rfl, .tailElseif ?_ hu hv hb.symm hr⟩
        rwa [List.headD_append]
      | false =>
        refine Sound.eat_bind (fun u hu => Sound.reading_map (sound_body hi) ?_) (Sound.maybe_map ?_)
        · intro d ws next rs hr _ vs hv us hm ts hc
          simp only [List.headD_append, List.headD_cons] at hc hm hv
          refine ⟨rfl, .tailElse ?_ hm hv hu hr⟩
          rwa [List.headD_append]
        · intro d ws next hw he hb vs hv us hm ts hc
          exact ⟨rfl, .tailEnd hc hm hv hb.symm he hw⟩
    · intro d us next d' s hs c ts ht
      obtain ⟨rfl, hs⟩ := hs
      obtain ⟨rfl, ht, htake⟩ := ht
      refine ⟨rfl, fun he => ?_⟩
      rw [List.headD_append, ← ht] at he
      obtain rfl := htake he
      exact ⟨t, us, rfl, hs⟩

theorem sound_conditional {inner : Nested} (hi : SoundInside inner) :
    Sound (conditional inner) fun d ts next d' s => d' = d ∧
      ((ts.headD next).isEof = false → ∃ t us, ts = t :: us ∧ Derives false d (.tail t.line s) us next) :=
  fun s => sound_conditionalWithin hi s.budget s

theorem sound_whileLoop {inner : Nested} (hi : SoundInside inner) :
    Sound (whileLoop inner) (behind "while") := by
  refine Sound.reading_bind hi.expression fun c => Sound.maybe_bind fun _ => Sound.reading_map (sound_body hi) ?_
  intro d vs next ss hb us hm ts hc
  exact ⟨rfl, fun t ht => .whileLoop ht hc hm hb⟩

theorem sound_moreNames : Sound (many do if ← eat "," then some <$> identifier else Parser.pure none)
    fun d ts next d' names => d' = d ∧ MoreNames names ts next := by
  let L (_ : Unit) (d : Nat) (ts : List Token) (next : Token) (d' : Nat) (names : List String) : Prop :=
    d' = d ∧ MoreNames names ts next
  have hname : Sound (do if ← eat "," then some <$> identifier else Parser.pure none)
      fun d ts next d' o => Sound.UnfoldStep L () d ts next d' (o.map fun a => (a, ())) := by
    refine Sound.eat_bind (fun t ht => Sound.identifier_bind fun m hm => Sound.pure ?_) (Sound.pure ?_)
    · intro d next
      refine ⟨by simp, ?_⟩
      intro us next' d' names _ h
      exact ⟨h.1, .cons ht hm h.2⟩
    · intro d next hn
      exact ⟨rfl, rfl, .done hn⟩
  exact Sound.unfold (L := L) (fun _ => Sound.map hname fun _ _ _ _ _ h => h) ()

theorem sound_forLoop {inner : Nested} (hi : SoundInside inner) :
    Sound (forLoop inner) (behind "for") := by
  refine Sound.identifier_bind fun m hm => Sound.eat_bind (fun u hu => ?_) ?_
  · refine Sound.reading_bind hi.expression fun first => Sound.expect_bind fun v hv =>
      Sound.reading_bind hi.expression fun last => Sound.eat_bind (fun w hw => ?_) ?_
    · refine Sound.map_bind (Sound.reading_bind hi.expression fun e => Sound.maybe_bind fun _ =>
        Sound.reading_map (sound_body hi) ?_)
      intro d xs next ss hb ws hd vs he us hl ts hf
      exact ⟨rfl, fun t ht => .forLoop ht hm hu hf hv hl (.step hw he) hd hb⟩
    · refine Sound.pure_bind (Sound.maybe_bind fun _ => Sound.reading_map (sound_body hi) ?_)
      intro d xs next ss hb ws hd hn us hl ts hf
      exact ⟨rfl, fun t ht => .forLoop ht hm hu hf hv hl (.noStep hn) hd hb⟩
  · refine Sound.bind sound_moreNames fun names => Sound.expect_bind fun u hu =>
      Sound.reading_bind hi.expression fun e => Sound.maybe_bind fun _ => Sound.reading_map (sound_body hi) ?_
    intro d ws next ss hb vs hd us he d₁ ts hn hequals
    obtain ⟨rfl, hn⟩ := hn
    rw [List.headD_append] at hequals
    exact ⟨rfl, fun t ht => .forEach ht hm hequals hn hu he hd hb⟩

theorem sound_returnValues {inner : Nested} (hi : SoundInside inner) :
    Sound (returnValues inner) fun d ts next d' es => behind "return" d ts next d' (.giveBack es) := by
  refine Sound.look_bind (g := Token.closesReturn) fun b => ?_
  cases b with
  | true =>
    refine Sound.pure_bind (Sound.maybe_map ?_)
    intro d us next hu hb
    exact ⟨rfl, fun t ht => .giveNothing ht hb.symm hu⟩
  | false =>
    refine Sound.reading_bind (sound_separated hi.expression) fun es => Sound.maybe_map ?_
    intro d us next hu ts hes hb
    rw [List.headD_append] at hb
    exact ⟨rfl, fun t ht => .giveBack ht hb.symm hes hu⟩

theorem sound_expressionStatement {inner : Nested} (hi : SoundInside inner) :
    Sound (expressionStatement inner) fun d ts next d' a => d' = d ∧
      ((ts.headD next).opensStatement = false → (ts.headD next).is ";" = false →
        Derives false d (.stmt (some (.mk (ts.headD next).line a))) ts next) := by
  refine Sound.reading_bind hi.expression fun e => Sound.look_bind (g := Token.assignOp?) fun o => ?_
  cases o with
  | none =>
    refine Sound.pure ?_
    intro d next ho ts he
    rw [List.append_nil]
    exact ⟨rfl, fun hs hc => .evaluate hs hc he ho.symm⟩
  | some op =>
    have htake : Sound (next >>= fun _ => inner.expression >>= fun value =>
        Pure.pure (Action.assign e op value)) fun d us next d' a =>
          some op = (us.headD next).assignOp? → ∀ ts, Derives false d (.nested e) ts (us.headD next) →
            e.isAssignable = true → d' = d ∧ (((ts ++ us).headD next).opensStatement = false →
              ((ts ++ us).headD next).is ";" = false →
              Derives false d (.stmt (some (.mk ((ts ++ us).headD next).line a))) (ts ++ us) next) := by
      refine Sound.next_bind (fun t ht => Token.isEof_of_is (Token.is_of_assignOp? ht.symm)) fun t =>
        Sound.reading_map hi.expression ?_
      intro d us next value hv ho ts he ha
      rw [List.headD_append]
      exact ⟨rfl, fun hs hc => .assign hs hc he ho.symm ha hv⟩
    cases ha : e.isAssignable with
    | false => exact Sound.refuse_bind
    | true =>
      refine htake.mono ?_
      intro d us next d' a h ho ts he
      exact h ho ts he ha

theorem sound_statement {inner : Nested} (hi : SoundInside inner) :
    Sound (statement inner) (reading .stmt) := by
  refine Sound.look_bind (g := id) fun t => Sound.look_bind (g := Token.keyword?) fun o => ?_
  have hword {w : String} {u : Token} (hu : some w = u.keyword?) : u.isWord w = true :=
    Token.keyword?_eq_some.mp hu.symm
  have heof (w : String) (u : Token) (hu : some w = u.keyword?) : u.isEof = false :=
    Token.isEof_of_is (Token.is_of_isWord (hword hu))
  have hbehind {w : String} {p : Parser Action} (hp : Sound p (behind w)) :
      Sound (Parser.next >>= fun _ => p >>= fun a => Pure.pure (some (Stmt.mk t.line a)))
        fun d us next d' b => some w = (us.headD next).keyword? → t = id (us.headD next) →
          reading .stmt d us next d' b := by
    refine Sound.next_bind (heof w) fun u => Sound.map hp ?_
    intro d us next d' a ha hu ht
    obtain rfl : t = u := ht
    exact ⟨ha.1, ha.2 t (hword hu)⟩
  split
  · exact hbehind (sound_localDeclaration hi)
  · exact hbehind (sound_define hi)
  · refine Sound.map (sound_conditional hi) ?_
    intro d ts next d' s hs ho ht
    obtain ⟨rfl, hs⟩ := hs
    obtain ⟨u, us, rfl, htail⟩ := hs (heof _ _ ho)
    exact ⟨rfl, .conditional (hword ho) htail⟩
  · exact hbehind (sound_whileLoop hi)
  · exact hbehind (sound_forLoop hi)
  · refine Sound.next_bind (heof "return") fun u => Sound.map (sound_returnValues hi) ?_
    intro d us next d' a ha hu ht
    obtain rfl : t = u := ht
    exact ⟨ha.1, ha.2 t (hword hu)⟩
  · refine Sound.next_bind (heof "break") fun u => Sound.pure ?_
    intro d next hu ht
    obtain rfl : t = u := ht
    exact ⟨rfl, .leaveLoop (hword hu)⟩
  · rename_i hlocal hfunction hif hwhile hfor hreturn hbreak
    refine Sound.eat_bind (fun u hu => Sound.pure ?_) (Sound.map (sound_expressionStatement hi) ?_)
    · intro d next _ _
      exact ⟨rfl, .skip hu⟩
    · intro d ts next d' a ha hc ho ht
      obtain rfl : t = ts.headD next := ht
      have hopens : (ts.headD next).opensStatement = false := by
        unfold Token.opensStatement
        rw [← ho]
        clear hbehind ho ha hc
        cases o with
        | none => rfl
        | some w => simp_all
      exact ⟨ha.1, ha.2 hopens hc⟩

theorem sound_statements {inner : Nested} (hi : SoundInside inner) (stops : List String) :
    Sound (statements inner stops) (reading (.stmts stops)) := by
  let L (_ : Unit) (d : Nat) (ts : List Token) (next : Token) (d' : Nat) (os : List (Option Stmt)) : Prop :=
    d' = d ∧ Derives false d (.stmts stops (os.filterMap id)) ts next
  have hstep : Sound (blockStep inner stops) fun d ts next d' o =>
      Sound.UnfoldStep L () d ts next d' (o.map fun a => (a, ())) := by
    refine Sound.look_bind (g := fun t => t.closesBlock stops) fun b => ?_
    cases b with
    | true =>
      refine Sound.pure ?_
      intro d next hb
      exact ⟨rfl, rfl, .stmtsEnd hb.symm⟩
    | false =>
      refine Sound.reading_map (sound_statement hi) ?_
      intro d ts next o ho hb
      refine ⟨ho.ne_nil rfl, ?_⟩
      intro us next' d' os hnext hos
      obtain ⟨rfl, hos⟩ := hos
      subst hnext
      cases o with
      | none => exact ⟨rfl, .stmtsSkip hb.symm ho hos⟩
      | some s => exact ⟨rfl, .stmtsCons hb.symm ho hos⟩
  exact Sound.map (Sound.unfold (L := L) (fun _ => Sound.map hstep fun _ _ _ _ _ h => h) ())
    fun _ _ _ _ _ h => h

theorem sound_block {inner : Nested} (hi : SoundInside inner) (stops : List String) :
    Sound (block inner stops) (reading (.block stops)) := by
  refine Sound.enter_bind (Sound.reading_bind (sound_statements hi stops) fun ss => ?_)
  intro s a t hs ha
  cases ha
  refine ⟨[], ⟨rfl, rfl⟩, ?_⟩
  intro ts hss c hd hc
  rw [List.append_nil]
  refine ⟨by simp [hd], .block (.inr hc) ?_⟩
  rw [← hd]
  exact hss

theorem soundInside_ofRoom (n : Nat) : SoundInside (Nested.ofRoom n) := by
  induction n with
  | zero =>
    refine ⟨?_, ?_, ?_, fun stops => ?_⟩ <;>
    · intro s a t _ ha
      cases ha
  | succ n ih =>
    refine ⟨(Sound.within (sound_disjunction ih)).mono ?_, ?_, Sound.within (sound_unary ih), sound_block ih⟩
    · intro d ts next d' e h
      exact ⟨h.1, .nested h.2.1 h.2.2⟩
    · have hproduct := sound_leftChain (k := .product) rfl (sound_unary ih)
      exact Sound.within (sound_concatenation ih (sound_leftChain (k := .sum) rfl hproduct))

end Parser

/-- The cursor at the start of a token list has an end of input behind it. -/
theorem Cursor.isEof_ofTokens (tokens : List Token) : (Cursor.ofTokens tokens).stop.isEof = true := by
  unfold Cursor.ofTokens
  split
  · rfl
  · split
    · assumption
    · rfl

theorem Cursor.depth_ofTokens (tokens : List Token) : (Cursor.ofTokens tokens).depth = 0 := by
  unfold Cursor.ofTokens
  split
  · rfl
  · split <;> rfl

/-- An accepted program derives from the tokens before the first end of input. -/
theorem Program.derives_of_parse {tokens : List Token} {p : Program} (h : Program.parse tokens = .ok p) :
    ∃ ts t, (Cursor.ofTokens tokens).Behind ts t ∧ t.peek.isEof = true ∧
      Derives false 0 (.stmts [] p) ts t.peek := by
  unfold Program.parse at h
  split at h
  · rename_i ss t ht
    cases h
    have hsound := Parser.sound_statements (Parser.soundInside_ofRoom maxDepth) []
    obtain ⟨ts, hts, -, hd⟩ := hsound _ _ _ (Cursor.isEof_ofTokens tokens) ht
    rw [Cursor.depth_ofTokens] at hd
    exact ⟨ts, t, hts, by simpa [Token.closesBlock] using hd.closesBlock, hd⟩
  · cases h

end ScriptGraph
