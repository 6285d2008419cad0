import ScriptGraph.Proofs.Grammar

namespace ScriptGraph

namespace Level

/-- The levels in order; the tighter one has the greater rank. -/
def rank : Level → Nat
  | or => 1 | and => 2 | comparison => 3 | concat => 4 | sum => 5 | product => 6 | unary => 7 | power => 8
  | access => 9 | primary => 10

/-- The symbols that carry on an expression of the level, or one inside it. -/
def continuers : Level → List String
  | or => ["or", "and", "==", "~=", "<", ">", "<=", ">=", "..", "+", "-", "*", "/", "//", "%", "^", "(", ":", ".", "["]
  | and => ["and", "==", "~=", "<", ">", "<=", ">=", "..", "+", "-", "*", "/", "//", "%", "^", "(", ":", ".", "["]
  | comparison => ["==", "~=", "<", ">", "<=", ">=", "..", "+", "-", "*", "/", "//", "%", "^", "(", ":", ".", "["]
  | concat => ["..", "+", "-", "*", "/", "//", "%", "^", "(", ":", ".", "["]
  | sum => ["+", "-", "*", "/", "//", "%", "^", "(", ":", ".", "["]
  | product => ["*", "/", "//", "%", "^", "(", ":", ".", "["]
  | unary => ["^", "(", ":", ".", "["]
  | power => ["^", "(", ":", ".", "["]
  | access => ["(", ":", ".", "["]
  | primary => []

/-- The token carries on no expression of the level. -/
def Closes (k : Level) (t : Token) : Prop := ∀ s ∈ k.continuers, t.is s = false

theorem rank_below {k : Level} (h : k ≠ .primary) : k.below.rank = k.rank + 1 := by
  cases k <;> first | rfl | exact absurd rfl h

theorem rank_le (k : Level) : k.rank ≤ 10 := by
  cases k <;> decide

theorem eq_of_rank {k l : Level} (h : k.rank = l.rank) : k = l := by
  cases k <;> cases l <;> first | rfl | cases h

theorem ne_primary_of_isChain {k : Level} (h : k.isChain = true) : k ≠ .primary := by
  intro he
  subst he
  cases h

theorem rank_lt_of_isChain {k : Level} (h : k.isChain = true) : k.rank < 7 := by
  cases k <;> first | decide | cases h

theorem Closes.below {k : Level} {t : Token} (h : k.Closes t) : k.below.Closes t := by
  have hsub : ∀ k : Level, ∀ s ∈ k.below.continuers, s ∈ k.continuers := by
    intro k
    cases k <;> decide
  exact fun s hs => h s (hsub k s hs)

/-- From a level to the looser ones, one at a time. -/
theorem climb {P : Level → Prop} {k l : Level} (hr : k.rank ≤ l.rank) (hl : P l)
    (hstep : ∀ j, j ≠ .primary → j.rank < l.rank → P j.below → P j) : P k := by
  induction hn : l.rank - k.rank generalizing k with
  | zero => exact eq_of_rank (show k.rank = l.rank by omega) ▸ hl
  | succ n ih =>
    have hk : k ≠ .primary := by
      intro he
      have hl := rank_le l
      have hten : Level.primary.rank = 10 := rfl
      rw [he, hten] at hn
      omega
    have := rank_below hk
    exact hstep k hk (by omega) (ih (by omega) (by omega))

theorem Closes.loosen {k l : Level} {t : Token} (h : k.Closes t) (hr : k.rank ≤ l.rank) : l.Closes t :=
  climb (P := fun j => j.Closes t → l.Closes t) hr id (fun _ _ _ ih hj => ih hj.below) h

/-- A token that is spelled otherwise than all the continuers. -/
theorem closes_of_is {k : Level} {t : Token} {s : String} (h : t.is s = true) (hs : s ∉ k.continuers) : k.Closes t :=
  fun _ hr => Token.is_eq_false h fun he => hs (he ▸ hr)

theorem Closes.binaryOp? {k : Level} {t : Token} (h : k.Closes t) : t.binaryOp? k.ops = none := by
  have hsub : ∀ k : Level, ∀ op ∈ k.ops, op.symbol ∈ k.continuers := by
    intro k
    cases k <;> decide
  rw [Token.binaryOp?, List.find?_eq_none]
  intro op hop
  simp [h op.symbol (hsub k op hop)]

theorem Closes.opensTrailer {t : Token} (h : Level.access.Closes t) : t.opensTrailer = false := by
  simp only [Token.opensTrailer, List.any_eq_false, Bool.not_eq_true]
  exact h

end Level

variable {ts us : List Token} {a b e : Expr} {k l : Level}

/-- One level up, if the next token does not carry the expression on there. -/
theorem Derives.lift {free : Bool} {d : Nat} {next : Token} (h : Derives free d (.expr k.below e) ts next)
    (hk : k ≠ .primary) (hc : k.Closes next) (hs : k = .unary → (ts.headD next).unaryOp? = none) :
    Derives free d (.expr k e) ts next := by
  cases k with
  | primary => exact absurd rfl hk
  | access => simpa using Derives.access h (.trailEnd hc.opensTrailer)
  | power => exact .powerEnd h (hc "^" (by decide))
  | unary => exact .unaryEnd (hs rfl) h
  | concat => exact .concatEnd h (hc ".." (by decide))
  | or | and | comparison | sum | product => simpa using Derives.chained rfl h (.chainEnd hc.binaryOp?)

/-- The tokens stand for `e`, whatever carries the expression on behind them: nothing that binds as
tightly as level `l`, more operators of a looser level, or more calls and accesses. -/
structure Reads (l : Level) (ts : List Token) (e : Expr) : Prop where
  head : 8 ≤ l.rank → ∃ t us, ts = t :: us ∧ t.unaryOp? = none
  whole : ∀ k next, k.rank ≤ l.rank → k.Closes next → ∀ d, Derives true d (.expr k e) ts next
  chain : ∀ k w rest next, k.isChain = true → k.rank ≤ l.rank → k.below.Closes (rest.headD next) →
    (∀ d, Derives true d (.chain k e w) rest next) → ∀ d, Derives true d (.expr k w) (ts ++ rest) next
  trail : 9 ≤ l.rank → ∀ w rest next, (∀ d, Derives true d (.trail e w) rest next) →
    ∀ d, Derives true d (.expr .access w) (ts ++ rest) next

theorem Derives.loosen {next : Token} (h : ∀ d, Derives true d (.expr l e) ts next) (hr : k.rank ≤ l.rank)
    (hc : k.Closes next) (hs : 8 ≤ l.rank → (ts.headD next).unaryOp? = none) :
    ∀ d, Derives true d (.expr k e) ts next := by
  refine Level.climb (P := fun j => j.Closes next → ∀ d, Derives true d (.expr j e) ts next) hr (fun _ => h) ?_ hc
  intro j hj hlt ih hc d
  refine (ih hc.below d).lift hj hc fun hu => hs ?_
  subst hu
  exact hlt

namespace Reads

/-- A reading at level `l` gives one at all looser levels. -/
theorem of_level (h : ∀ next, l.Closes next → ∀ d, Derives true d (.expr l e) ts next)
    (hs : 8 ≤ l.rank → ∃ t us, ts = t :: us ∧ t.unaryOp? = none)
    (hchain : l.isChain = true → ∀ w rest next, l.below.Closes (rest.headD next) →
      (∀ d, Derives true d (.chain l e w) rest next) → ∀ d, Derives true d (.expr l w) (ts ++ rest) next)
    (htrail : 9 ≤ l.rank → ∀ w rest next, (∀ d, Derives true d (.trail e w) rest next) →
      ∀ d, Derives true d (.expr .access w) (ts ++ rest) next) : Reads l ts e := by
  have hhead (next : Token) (hr : 8 ≤ l.rank) : (ts.headD next).unaryOp? = none := by
    obtain ⟨t, us, rfl, ht⟩ := hs hr
    exact ht
  have hwhole : ∀ k next, k.rank ≤ l.rank → k.Closes next → ∀ d, Derives true d (.expr k e) ts next :=
    fun k next hr hc => Derives.loosen (h next (hc.loosen hr)) hr hc (hhead next)
  refine ⟨hs, hwhole, ?_, htrail⟩
  intro k w rest next hk hr hc hw d
  by_cases heq : k.rank = l.rank
  · obtain rfl := Level.eq_of_rank heq
    exact hchain hk w rest next hc hw d
  · have hb := Level.rank_below (Level.ne_primary_of_isChain hk)
    exact .chained hk (hwhole k.below (rest.headD next) (by omega) hc d) (hw d)

/-- A primary expression takes any calls and accesses. -/
theorem of_primary (h : ∀ next d, Derives true d (.expr .primary e) ts next)
    (hs : ∃ t us, ts = t :: us ∧ t.unaryOp? = none) : Reads .primary ts e :=
  of_level (fun next _ => h next) (fun _ => hs) (fun hk => nomatch hk)
    fun _ _ rest next hw d => .access (h (rest.headD next) d) (hw d)

theorem of_access (h : ∀ w rest next, (∀ d, Derives true d (.trail e w) rest next) →
      ∀ d, Derives true d (.expr .access w) (ts ++ rest) next)
    (hs : ∃ t us, ts = t :: us ∧ t.unaryOp? = none) : Reads .access ts e := by
  refine of_level (fun next hc d => ?_) (fun _ => hs) (fun hk => nomatch hk) fun _ => h
  simpa using h e [] next (fun d => .trailEnd hc.opensTrailer) d

theorem enclosed {t u : Token} (h : Reads l ts e) (hl : 1 ≤ l.rank) (hk : t.kind = .punctuation)
    (ht : t.text = "(") (hu : u.is ")" = true) : Reads .primary (t :: (ts ++ [u])) e := by
  refine of_primary (fun next d => ?_) ⟨t, ts ++ [u], rfl, by simp [Token.unaryOp?, hk]⟩
  refine .parens hk ht (.nested (.inl rfl) ?_) hu
  exact h.whole .or u hl (Level.closes_of_is hu (by decide)) (d + 1)

theorem unary {op : UnaryOp} {t : Token} (h : Reads l ts e) (hl : 7 ≤ l.rank) (ht : t.unaryOp? = some op) :
    Reads .unary (t :: ts) (.unary op e) := by
  refine of_level (fun next hc d => ?_) (fun hr => absurd hr (by decide)) (fun hk => nomatch hk)
    fun hr => absurd hr (by decide)
  exact .unary ht (.inl rfl) (h.whole .unary next hl hc (d + 1))

theorem power {t : Token} (ha : Reads k ts a) (hk : 9 ≤ k.rank) (hb : Reads l us b) (hl : 7 ≤ l.rank)
    (ht : t.is "^" = true) : Reads .power (ts ++ t :: us) (.binary .pow a b) := by
  refine of_level (fun next hc d => ?_) (fun _ => ?_) (fun hk => nomatch hk) fun hr => absurd hr (by decide)
  · have hleft := ha.whole .access t hk (Level.closes_of_is ht (by decide)) d
    exact .power hleft ht (.inl rfl) (hb.whole .unary next hl hc (d + 1))
  · obtain ⟨t', us', rfl, ht'⟩ := ha.head (by omega)
    exact ⟨t', us' ++ t :: us, rfl, ht'⟩

theorem concat {t : Token} (ha : Reads k ts a) (hk : 5 ≤ k.rank) (hb : Reads l us b) (hl : 4 ≤ l.rank)
    (ht : t.is ".." = true) : Reads .concat (ts ++ t :: us) (.binary .concat a b) := by
  refine of_level (fun next hc d => ?_) (fun hr => absurd hr (by decide)) (fun hk => nomatch hk)
    fun hr => absurd hr (by decide)
  have hleft := ha.whole .sum t hk (Level.closes_of_is ht (by decide)) d
  exact .concat hleft ht (.inl rfl) (hb.whole .concat next hl hc (d + 1))

/-- Operators of one level group to the left: the left operand may be a chain of its own. -/
theorem chained {j : Level} {op : BinaryOp} {t : Token} (hj : j.isChain = true) (ha : Reads k ts a)
    (hk : j.rank ≤ k.rank) (hb : Reads l us b) (hl : j.rank < l.rank) (ht : t.binaryOp? j.ops = some op) :
    Reads j (ts ++ t :: us) (.binary op a b) := by
  have hnot : ∀ j : Level, ∀ op ∈ j.ops, op.symbol ∉ j.below.continuers := by
    intro j
    cases j <;> decide
  have hbelow := Level.rank_below (Level.ne_primary_of_isChain hj)
  have hsmall := Level.rank_lt_of_isChain hj
  have hchain : ∀ w rest next, j.below.Closes (rest.headD next) →
      (∀ d, Derives true d (.chain j (.binary op a b) w) rest next) →
      ∀ d, Derives true d (.expr j w) ((ts ++ t :: us) ++ rest) next := by
    intro w rest next hc hw d
    obtain ⟨hop, hsym⟩ := Token.is_of_binaryOp? ht
    have hstep (d : Nat) : Derives true d (.chain j a w) (t :: (us ++ rest)) next :=
      .chainStep ht (.inl rfl) (hb.whole j.below (rest.headD next) (by omega) hc (d + 1)) (hw (d + 1))
    have hclose : j.below.Closes ((t :: (us ++ rest)).headD next) := Level.closes_of_is hsym (hnot j op hop)
    simpa using ha.chain j w (t :: (us ++ rest)) next hj hk hclose hstep d
  refine of_level (fun next hc d => ?_) (fun hr => by omega) (fun _ => hchain) fun hr => by omega
  simpa using hchain (.binary op a b) [] next hc.below (fun d => .chainEnd hc.binaryOp?) d

theorem head_append (h : Reads k ts a) (hk : 9 ≤ k.rank) (us : List Token) :
    ∃ t vs, ts ++ us = t :: vs ∧ t.unaryOp? = none := by
  obtain ⟨t, vs, rfl, ht⟩ := h.head (by omega)
  exact ⟨t, vs ++ us, rfl, ht⟩

theorem call {es : List Expr} (h : Reads k ts a) (hk : 9 ≤ k.rank)
    (hes : ∀ next d, Derives true d (.arguments es) us next) : Reads .access (ts ++ us) (.call a es) := by
  refine of_access (fun w rest next hw d => ?_) (h.head_append hk us)
  rw [List.append_assoc]
  exact h.trail hk w (us ++ rest) next (fun d => .call (.inl rfl) (hes (rest.headD next) (d + 1)) (hw (d + 1))) d

theorem methodCall {es : List Expr} {t m : Token} (h : Reads k ts a) (hk : 9 ≤ k.rank) (ht : t.is ":" = true)
    (hm : m.isName = true) (hes : ∀ next d, Derives true d (.arguments es) us next) :
    Reads .access (ts ++ t :: m :: us) (.methodCall a m.text es) := by
  refine of_access (fun w rest next hw d => ?_) (h.head_append hk _)
  rw [List.append_assoc]
  exact h.trail hk w (t :: m :: (us ++ rest)) next
    (fun d => .methodCall (.inl rfl) ht hm (hes (rest.headD next) (d + 1)) (hw (d + 1))) d

theorem member {t m : Token} (h : Reads k ts a) (hk : 9 ≤ k.rank) (ht : t.is "." = true) (hm : m.isName = true) :
    Reads .access (ts ++ [t, m]) (.member a m.text) := by
  refine of_access (fun w rest next hw d => ?_) (h.head_append hk _)
  rw [List.append_assoc]
  exact h.trail hk w (t :: m :: rest) next (fun d => .member (.inl rfl) ht hm (hw (d + 1))) d

theorem index {t u : Token} (h : Reads k ts a) (hk : 9 ≤ k.rank) (ht : t.is "[" = true)
    (hb : Reads l us b) (hl : 1 ≤ l.rank) (hu : u.is "]" = true) :
    Reads .access (ts ++ t :: (us ++ [u])) (.index a b) := by
  refine of_access (fun w rest next hw d => ?_) (h.head_append hk _)
  rw [List.append_assoc, List.cons_append, List.append_assoc]
  have hkey (d : Nat) : Derives true d (.nested b) us u :=
    .nested (.inl rfl) (hb.whole .or u hl (Level.closes_of_is hu (by decide)) (d + 1))
  exact h.trail hk w (t :: (us ++ u :: rest)) next (fun d => .index (.inl rfl) ht (hkey (d + 1)) hu (hw (d + 1))) d

end Reads

end ScriptGraph
