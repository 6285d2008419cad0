import Mathlib.Algebra.BigOperators.Group.List.Basic
import Mathlib.Algebra.Ring.Int.Defs
import ScriptGraph.Proofs.Grammar

namespace ScriptGraph

section EndOfInput

variable {stop : Token}

theorem Token.binaryOp?_of_isEof (h : stop.isEof = true) (ops : List BinaryOp) : stop.binaryOp? ops = none := by
  simp [binaryOp?, is_of_isEof h]

theorem Token.assignOp?_of_isEof (h : stop.isEof = true) : stop.assignOp? = none := by
  simp [assignOp?, is_of_isEof h]

theorem Maybe.before_eof (h : stop.isEof = true) {s : String} {ts : List Token} {next : Token}
    (hm : Maybe s ts next) : Maybe s ts stop := by
  rcases hm with ht | ⟨rfl, -⟩
  · exact .inl ht
  · exact .inr ⟨rfl, Token.is_of_isEof h s⟩

theorem Params.before_eof {names : List String} {ts : List Token} {next : Token} (h : Params names ts next)
    (stop : Token) : Params names ts stop := by
  cases h with
  | none ht hu => exact .none ht hu
  | some ht hs h hu => exact .some ht hs h hu

theorem Path.before_eof (h : stop.isEof = true) {part whole : String × Bool} {ts : List Token} {next : Token}
    (hp : Path part whole ts next) : Path part whole ts stop := by
  induction hp with
  | done _ => exact .done (.inr ⟨Token.is_of_isEof h ".", Token.is_of_isEof h ":"⟩)
  | dot ht hm _ ih => exact .dot ht hm ih
  | colon ht hm _ ih => exact .colon ht hm ih

/-- What is true before the next token and before the end of input, is true before what follows. -/
theorem headD_or {P : Token → Prop} {next : Token} (us : List Token) (h : P (us.headD next)) (h' : P stop) :
    P (us.headD stop) := by
  cases us with
  | nil => exact h'
  | cons u us => exact h

/-- A phrase can end where the text ends: no rule asks for a token behind it. -/
theorem Derives.before_eof (hstop : stop.isEof = true) {free : Bool} {d : Nat} {ph : Phrase} {ts : List Token}
    {next : Token} (h : Derives free d ph ts next) : Derives free d ph ts stop := by
  have his := Token.is_of_isEof hstop
  -- Rules that look at the first token of a phrase see the same one, as the phrase has one.
  have hhead {P : Token → Prop} {ts : List Token} {next : Token} (hne : ts ≠ []) (h : P (ts.headD next)) :
      P (ts.headD stop) := by
    cases ts with
    | nil => exact absurd rfl hne
    | cons t ts => exact h
  induction h with
  | nested hd _ ih => exact .nested hd ih
  | chained hk h _ ih ihc => exact .chained hk (headD_or _ h ih) ihc
  | chainEnd _ => exact .chainEnd (Token.binaryOp?_of_isEof hstop _)
  | chainStep ht hd h _ ih ihc => exact .chainStep ht hd (headD_or _ h ih) ihc
  | concatEnd _ _ ih => exact .concatEnd ih (his _)
  | concat h ht hd _ _ ihr => exact .concat h ht hd ihr
  | unary ht hd _ ih => exact .unary ht hd ih
  | unaryEnd hs h ih => exact .unaryEnd (hhead (P := fun t => t.unaryOp? = none) (h.ne_nil rfl) hs) ih
  | powerEnd _ _ ih => exact .powerEnd ih (his _)
  | power h ht hd _ _ ihr => exact .power h ht hd ihr
  | access h _ ih iht => exact .access (headD_or _ h ih) iht
  | trailEnd _ => exact .trailEnd (by simp [Token.opensTrailer, his])
  | call hd h _ ih ihr => exact .call hd (headD_or _ h ih) ihr
  | methodCall hd ht hm h _ ih ihr => exact .methodCall hd ht hm (headD_or _ h ih) ihr
  | member hd ht hm _ ihr => exact .member hd ht hm ihr
  | index hd ht h hu _ _ ihr => exact .index hd ht h hu ihr
  | string ht => exact .string ht
  | number ht => exact .number ht
  | identifier ht => exact .identifier ht
  | trueWord ht => exact .trueWord ht
  | falseWord ht => exact .falseWord ht
  | nilWord ht => exact .nilWord ht
  | vararg hk ht => exact .vararg hk ht
  | parens hk ht h hu _ => exact .parens hk ht h hu
  | table hk ht h hu _ => exact .table hk ht h hu
  | function ht hp _ ih => exact .function ht (hp.before_eof _) ih
  | one _ _ ih => exact .one ih (his _)
  | cons h ht _ _ ihr => exact .cons h ht ihr
  | noArguments ht hu => exact .noArguments ht hu
  | arguments ht hs h hu _ => exact .arguments ht hs h hu
  | keyed ht hk hu hv _ _ ih => exact .keyed ht hk hu hv ih
  | named ht hu _ ih => exact .named ht hu ih
  | @positional d value ts next hs hn h ih =>
    refine .positional (hhead (P := fun t => t.is "[" = false) (h.ne_nil rfl) hs) ?_ ih
    obtain ⟨t, ts, rfl⟩ := List.exists_cons_of_ne_nil (h.ne_nil rfl)
    cases ts with
    | nil => simp [his]
    | cons u ts => exact hn
  | fieldsEnd _ => exact .fieldsEnd (by simp [Token.closesFields, hstop])
  | fieldsLast hs h _ _ ih =>
    exact .fieldsLast (hhead (P := fun t => t.closesFields = false) (h.ne_nil rfl) hs) ih (his _) (his _)
  | fieldsCons hs h ht _ _ ihr => exact .fieldsCons hs h ht ihr
  | stmtsEnd _ => exact .stmtsEnd (by simp [Token.closesBlock, hstop])
  | @stmtsSkip d stops ss ts us next hs h _ ih ihr =>
    rw [← List.headD_append] at hs
    have hs' := hhead (P := fun t => t.closesBlock stops = false) (by simp [h.ne_nil rfl]) hs
    exact .stmtsSkip (by rwa [List.headD_append] at hs') (headD_or _ h ih) ihr
  | @stmtsCons d stops s ss ts us next hs h _ ih ihr =>
    rw [← List.headD_append] at hs
    have hs' := hhead (P := fun t => t.closesBlock stops = false) (by simp [h.ne_nil rfl]) hs
    exact .stmtsCons (by rwa [List.headD_append] at hs') (headD_or _ h ih) ihr
  | block hd _ ih => exact .block hd ih
  | body h he ih => exact .body (headD_or _ h ih) (he.before_eof hstop)
  | skip ht => exact .skip ht
  | declare ht hm _ => exact .declare ht hm (his _)
  | declareAs ht hm hu _ ih => exact .declareAs ht hm hu ih
  | localFunction ht hf hm hp _ ih => exact .localFunction ht hf hm (hp.before_eof _) ih
  | define ht hm hs hp _ ih => exact .define ht hm (headD_or _ hs (hs.before_eof hstop)) (hp.before_eof _) ih
  | conditional ht _ ih => exact .conditional ht ih
  | whileLoop ht hc hm _ ihc ih => exact .whileLoop ht (headD_or _ hc ihc) (headD_or _ hm (hm.before_eof hstop)) ih
  | noStep _ => exact .noStep (his _)
  | step ht _ ih => exact .step ht ih
  | forLoop ht hm hu hf hv hl hs hw _ _ ihl ihs ih =>
    exact .forLoop ht hm hu hf hv (headD_or _ hl ihl) (headD_or _ hs ihs) (headD_or _ hw (hw.before_eof hstop)) ih
  | forEach ht hm he hn hu h hw _ ihe ih =>
    exact .forEach ht hm he hn hu (headD_or _ h ihe) (headD_or _ hw (hw.before_eof hstop)) ih
  | giveNothing ht hn hu =>
    refine .giveNothing ht (headD_or (P := fun t => t.closesReturn = true) _ hn ?_) (hu.before_eof hstop)
    simp [Token.closesReturn, Token.closesBlock, hstop]
  | @giveBack d es ts us t next ht hs h hu ih =>
    rw [← List.headD_append] at hs
    have hs' := hhead (P := fun t => t.closesReturn = false) (by simp [h.ne_nil rfl]) hs
    exact .giveBack ht (by rwa [List.headD_append] at hs') (headD_or _ h ih) (hu.before_eof hstop)
  | leaveLoop ht => exact .leaveLoop ht
  | @evaluate d e ts next hs hc h _ ih =>
    have hline : (ts.headD next).line = (ts.headD stop).line :=
      hhead (P := fun t => (ts.headD next).line = t.line) (h.ne_nil rfl) rfl
    rw [hline]
    exact .evaluate (hhead (P := fun t => t.opensStatement = false) (h.ne_nil rfl) hs)
      (hhead (P := fun t => t.is ";" = false) (h.ne_nil rfl) hc) ih (Token.assignOp?_of_isEof hstop)
  | assign hs hc h hu ha _ _ ihv => exact .assign hs hc h hu ha ihv
  | tailElseif hc hu hb ht _ _ _ ihr => exact .tailElseif hc hu hb ht ihr
  | tailElse hc hu hb ht _ _ _ ihr => exact .tailElse hc hu hb ht ihr
  | tailEnd hc hu hb hi he hw ihc ihb =>
    exact .tailEnd (headD_or _ hc ihc) (headD_or _ hu (hu.before_eof hstop)) (headD_or _ hb ihb)
      (headD_or (P := fun t => t.is "elseif" = false) _ hi (his _))
      (headD_or (P := fun t => t.is "else" = false) _ he (his _)) (hw.before_eof hstop)

end EndOfInput

namespace Token

/-- How much deeper into blocks and brackets a word or mark leads. Loops start with their keyword, as
`do` can be left out. -/
def weight (s : String) : Int :=
  if ["function", "if", "while", "for", "(", "\x7b", "["].contains s then 1
  else if ["end", "until", ")", "\x7d", "]"].contains s then -1
  else 0

def rise (t : Token) : Int :=
  if t.kind = .keyword ∨ t.kind = .operator ∨ t.kind = .punctuation then weight t.text else 0

/-- The words and marks that go on with a statement. -/
def joiners : List String :=
  BinaryOp.all.map (·.symbol) ++ AssignOp.all.map (·.symbol) ++ ["(", "[", ".", ":", ","]

/-- The words and marks behind which a statement has to go on. -/
def waiters : List String :=
  BinaryOp.all.map (·.symbol) ++ UnaryOp.all.map (·.symbol) ++ AssignOp.all.map (·.symbol) ++
    [".", ":", ",", "local", "return"]

/-- Can the token go on with the statement before it? -/
def joins (t : Token) : Bool := joiners.any t.is

/-- Does the statement have to go on behind the token? -/
def awaits (t : Token) : Bool := waiters.any t.is

variable {t : Token} {s : String}

theorem rise_of_is (h : t.is s = true) : t.rise = weight s := by
  obtain ⟨hk, rfl⟩ := is_iff.mp h
  rw [rise, if_pos hk]

theorem rise_of_kind (h : ¬ (t.kind = .keyword ∨ t.kind = .operator ∨ t.kind = .punctuation)) : t.rise = 0 := if_neg h

theorem rise_of_isName (h : t.isName = true) : t.rise = 0 := rise_of_kind (by simp [isName_iff.mp h])

theorem joins_of_is (h : t.is s = true) (hs : s ∈ joiners := by decide) : t.joins = true :=
  List.any_eq_true.mpr ⟨s, hs, h⟩

theorem awaits_of_is (h : t.is s = true) (hs : s ∈ waiters := by decide) : t.awaits = true :=
  List.any_eq_true.mpr ⟨s, hs, h⟩

/-- A `;` never has to be followed by more of a statement. -/
theorem is_semicolon (h : t.is s = true) (hs : s ∈ waiters := by decide) : t.is ";" = false := by
  have hnot : ";" ∉ waiters := by decide
  exact is_eq_false h (ne_of_mem_of_not_mem hs hnot)

theorem is_of_unaryOp? {op : UnaryOp} (h : t.unaryOp? = some op) : t.is op.symbol = true := by
  unfold unaryOp? at h
  split at h <;> simp_all [is, UnaryOp.symbol]
  all_goals
    subst h
    rfl

end Token

/-- How much deeper a row of tokens ends than it starts. -/
def height (ts : List Token) : Int := (ts.map Token.rise).sum

@[simp] theorem height_nil : height [] = 0 := rfl

@[simp] theorem height_cons (t : Token) (ts : List Token) : height (t :: ts) = t.rise + height ts := List.sum_cons

@[simp] theorem height_append (ts us : List Token) : height (ts ++ us) = height ts + height us := by
  rw [height, List.map_append, List.sum_append, height, height]

/-- The tokens do not get below the depth they start at, except that the last one closes `fall`
blocks from outside. What is open at the end of input needs no closer. -/
structure Poised (fall : Nat) (ts : List Token) (next : Token) : Prop where
  solid : ∀ t ∈ ts, t.isEof = false
  above : ∀ as b bs, ts = as ++ b :: bs → 0 ≤ height as
  total : next.isEof = false → height ts = -fall

namespace Poised

variable {fall : Nat} {s : String} {ts us : List Token} {t next : Token}

theorem nil : Poised 0 [] next := ⟨by simp, by simp, fun _ => rfl⟩

theorem cons {r : Nat} (he : t.isEof = false) (hr : t.rise = r) (h : Poised (fall + r) ts next) :
    Poised fall (t :: ts) next := by
  refine ⟨List.forall_mem_cons.mpr ⟨he, h.solid⟩, ?_, ?_⟩
  · intro as b bs heq
    cases as with
    | nil => exact Int.le_refl 0
    | cons a as =>
      obtain ⟨rfl, htail⟩ := List.cons.inj heq
      have := h.above as b bs htail
      rw [height_cons]
      omega
  · intro hn
    have := h.total hn
    rw [height_cons]
    omega

theorem symbol {r : Nat} (ht : t.is s = true) (h : Poised (fall + r) ts next) (hs : Token.weight s = r := by decide) :
    Poised fall (t :: ts) next := h.cons (Token.isEof_of_is ht) ((Token.rise_of_is ht).trans hs)

theorem plain (he : t.isEof = false) (hr : t.rise = 0) (h : Poised fall ts next) : Poised fall (t :: ts) next :=
  cons (r := 0) he hr h

theorem name (ht : t.isName = true) (h : Poised fall ts next) : Poised fall (t :: ts) next :=
  h.plain (Token.isEof_of_isName ht) (Token.rise_of_isName ht)

theorem closer (ht : t.is s = true) (hs : Token.weight s = -1 := by decide) : Poised 1 [t] next := by
  have hr : t.rise = -1 := (Token.rise_of_is ht).trans hs
  refine ⟨by simp [Token.isEof_of_is ht], ?_, ?_⟩
  · intro as b bs heq
    cases as with
    | nil => exact Int.le_refl 0
    | cons a as => simp at heq
  · intro _
    simp [hr]

theorem height_eq (h : Poised 0 ts (us.headD next)) (hus : ∀ u ∈ us, u.isEof = false) (hne : us ≠ []) :
    height ts = 0 := by
  cases us with
  | nil => exact absurd rfl hne
  | cons u us => simpa using h.total (hus u List.mem_cons_self)

theorem append (h : Poised 0 ts (us.headD next)) (h' : Poised fall us next) : Poised fall (ts ++ us) next := by
  cases us with
  | nil =>
    rw [List.append_nil]
    have h0 := h'.total
    refine ⟨h.solid, h.above, fun hn => ?_⟩
    rw [← h0 hn]
    simpa using h.total hn
  | cons u us =>
    have hts := h.height_eq h'.solid (List.cons_ne_nil u us)
    refine ⟨List.forall_mem_append.mpr ⟨h.solid, h'.solid⟩, ?_, ?_⟩
    · intro as b bs heq
      rcases List.append_eq_append_iff.mp heq with ⟨cs, rfl, hcs⟩ | ⟨cs, rfl, hcs⟩
      · rw [height_append, hts, zero_add]
        exact h'.above cs b bs hcs
      · cases cs with
        | nil => simp [← hts]
        | cons c cs => exact h.above as c cs rfl
    · intro hn
      rw [height_append, hts, zero_add]
      exact h'.total hn

theorem maybe (hm : Maybe s ts next) (hs : Token.weight s = 0 := by decide) : Poised 0 ts next := by
  rcases hm with ⟨t, ht, rfl⟩ | ⟨rfl, -⟩
  · exact nil.plain (Token.isEof_of_is ht) ((Token.rise_of_is ht).trans hs)
  · exact nil

/-- A block and its `end`, which only the end of input can stand for. -/
theorem ended (h : Poised 0 ts (us.headD next)) (hn : (us.headD next).isEof = true ∨ (us.headD next).is "end" = true)
    (he : Maybe "end" us next) : Poised 1 (ts ++ us) next := by
  rcases he with ⟨t, ht, rfl⟩ | ⟨rfl, hnext⟩
  · exact h.append (closer ht)
  · have heof : next.isEof = true := by simpa [hnext] using hn
    rw [List.append_nil]
    exact ⟨h.solid, h.above, fun hne => by simp [heof] at hne⟩

theorem linked (h : Poised 0 ts t) (ht : t.is s = true) (h' : Poised fall us next)
    (hs : Token.weight s = 0 := by decide) : Poised fall (ts ++ t :: us) next :=
  append h (symbol (r := 0) ht h' hs)

theorem closed (h : Poised 0 ts t) (ht : t.is s = true) (hs : Token.weight s = -1 := by decide) :
    Poised 1 (ts ++ [t]) next := append h (closer ht hs)

theorem brackets {u : Token} {o c : String} (ht : t.is o = true) (hu : u.is c = true) (h : Poised 0 ts u)
    (ho : Token.weight o = 1 := by decide) (hc : Token.weight c = -1 := by decide) : Poised 0 (t :: (ts ++ [u])) next :=
  symbol (r := 1) ht (h.closed hu hc) ho

end Poised

/-- Outside the brackets and blocks of the row there is no `;`, and neighbours belong together: the second goes on
with the first, or the first needs something behind it. -/
def Tight (ts : List Token) : Prop :=
  ∀ as b bs, ts = as ++ b :: bs → height as = 0 →
    b.is ";" = false ∧ (as ≠ [] → b.joins = true ∨ ∃ a ∈ as.getLast?, a.awaits = true)

namespace Tight

variable {ts us : List Token} {t next : Token}

theorem nil : Tight [] := by
  intro as b bs heq
  simp at heq

theorem single (ht : t.is ";" = false) : Tight [t] := by
  intro as b bs heq hh
  cases as with
  | nil =>
    obtain ⟨rfl, -⟩ := List.cons.inj heq
    exact ⟨ht, fun hne => absurd rfl hne⟩
  | cons a as => simp at heq

theorem cons (ht : t.is ";" = false) (hr : t.rise = 0) (h : Tight ts)
    (hs : (∀ u ∈ ts.head?, u.joins = true) ∨ t.awaits = true) : Tight (t :: ts) := by
  intro as b bs heq hh
  cases as with
  | nil =>
    obtain ⟨rfl, -⟩ := List.cons.inj heq
    exact ⟨ht, fun hne => absurd rfl hne⟩
  | cons a as =>
    obtain ⟨rfl, rfl⟩ := List.cons.inj heq
    rw [height_cons, hr, zero_add] at hh
    obtain ⟨hb, hseam⟩ := h as b bs rfl hh
    refine ⟨hb, fun _ => ?_⟩
    cases as with
    | nil =>
      rcases hs with hs | hs
      · exact .inl (hs b rfl)
      · exact .inr ⟨t, rfl, hs⟩
    | cons c as =>
      rw [List.getLast?_cons_cons]
      exact hseam (List.cons_ne_nil c as)

/-- A sign and the part that it needs. -/
theorem waiting {s : String} (ht : t.is s = true) (h : Tight ts) (hs : Token.weight s = 0 := by decide)
    (hw : s ∈ Token.waiters := by decide) : Tight (t :: ts) :=
  h.cons (Token.is_semicolon ht hw) ((Token.rise_of_is ht).trans hs) (.inr (Token.awaits_of_is ht hw))

theorem named (ht : t.isName = true) (h : Tight ts) (hj : ∀ u ∈ ts.head?, u.joins = true) : Tight (t :: ts) :=
  h.cons (Token.is_eq_false_of_isName ht _) (Token.rise_of_isName ht) (.inl hj)

/-- Behind an opener everything is inside. -/
theorem inside {s : String} (ht : t.is s = true) (h : Poised 1 ts next) (hs : Token.weight s = 1 := by decide) :
    Tight (t :: ts) := by
  have hr : t.rise = 1 := (Token.rise_of_is ht).trans hs
  have hn : s ≠ ";" := by
    rintro rfl
    exact absurd hs (by decide)
  intro as b bs heq hh
  cases as with
  | nil =>
    obtain ⟨rfl, -⟩ := List.cons.inj heq
    exact ⟨Token.is_eq_false ht hn, fun hne => absurd rfl hne⟩
  | cons a as =>
    obtain ⟨rfl, htail⟩ := List.cons.inj heq
    have := h.above as b bs htail
    rw [height_cons] at hh
    omega

theorem append (h : Tight ts) (hp : Poised 0 ts (us.headD next)) (h' : Tight us) (hus : ∀ u ∈ us, u.isEof = false)
    (hs : ∀ u ∈ us.head?, u.joins = true) : Tight (ts ++ us) := by
  intro as b bs heq hh
  rcases List.append_eq_append_iff.mp heq with ⟨cs, rfl, hcs⟩ | ⟨cs, rfl, hcs⟩
  · have hts := hp.height_eq hus (by simp [hcs])
    rw [height_append, hts, zero_add] at hh
    obtain ⟨hb, hseam⟩ := h' cs b bs hcs hh
    refine ⟨hb, fun _ => ?_⟩
    cases cs with
    | nil => exact .inl (hs b (by simp [hcs]))
    | cons c cs =>
      rw [List.getLast?_append_of_ne_nil _ (List.cons_ne_nil c cs)]
      exact hseam (List.cons_ne_nil c cs)
  · cases cs with
    | nil =>
      have hhead : us = b :: bs := hcs.symm
      exact ⟨(h' [] b bs hhead rfl).1, fun _ => .inl (hs b (by simp [hhead]))⟩
    | cons c cs =>
      obtain ⟨rfl, -⟩ := List.cons.inj hcs
      exact h as b cs rfl hh

/-- A sign between two parts holds them together. -/
theorem linked {s : String} (h : Tight ts) (hp : Poised 0 ts t) (ht : t.is s = true) (h' : Tight us)
    (hus : ∀ u ∈ us, u.isEof = false) (hs : Token.weight s = 0 := by decide)
    (hj : s ∈ Token.joiners := by decide) (ha : s ∈ Token.waiters := by decide) : Tight (ts ++ t :: us) := by
  have htail : Tight (t :: us) := h'.waiting ht hs ha
  have hnext : Poised 0 ts ((t :: us).headD t) := hp
  refine h.append hnext htail (List.forall_mem_cons.mpr ⟨Token.isEof_of_is ht, hus⟩) ?_
  simpa using Token.joins_of_is ht hj

end Tight

section Phrases

variable {free : Bool} {d : Nat} {ph : Phrase} {ts us : List Token} {t next : Token}

theorem ParamNames.poised {names : List String} (h : ParamNames names ts next) : Poised 0 ts next := by
  induction h with
  | ellipsis ht => exact .symbol (r := 0) ht .nil
  | last ht _ => exact .name ht .nil
  | cons ht hu _ ih => exact .name ht (.symbol (r := 0) hu ih)

theorem Params.poised {names : List String} (h : Params names ts next) : Poised 0 ts next := by
  cases h with
  | none ht hu => exact .brackets ht hu .nil
  | some ht _ h hu => exact .brackets ht hu h.poised

theorem Path.poised {part whole : String × Bool} (h : Path part whole ts next) : Poised 0 ts next := by
  induction h with
  | done _ => exact .nil
  | dot ht hm _ ih => exact .symbol (r := 0) ht (.name hm ih)
  | colon ht hm _ ih => exact .symbol (r := 0) ht (.name hm ih)

theorem MoreNames.poised {names : List String} (h : MoreNames names ts next) : Poised 0 ts next := by
  induction h with
  | done _ => exact .nil
  | cons ht hm _ ih => exact .symbol (r := 0) ht (.name hm ih)

theorem BinaryOp.weight_symbol (op : BinaryOp) : Token.weight op.symbol = 0 := by cases op <;> decide

theorem AssignOp.weight_symbol (op : AssignOp) : Token.weight op.symbol = 0 := by cases op <;> decide

theorem UnaryOp.weight_symbol (op : UnaryOp) : Token.weight op.symbol = 0 := by cases op <;> decide

theorem BinaryOp.symbol_mem (op : BinaryOp) : op.symbol ∈ Token.joiners ∧ op.symbol ∈ Token.waiters := by
  cases op <;> decide

theorem AssignOp.symbol_mem (op : AssignOp) : op.symbol ∈ Token.joiners ∧ op.symbol ∈ Token.waiters := by
  cases op <;> decide

theorem UnaryOp.symbol_mem (op : UnaryOp) : op.symbol ∈ Token.waiters := by cases op <;> decide

/-- How many blocks from outside a phrase closes. -/
def Phrase.fall : Phrase → Nat
  | body _ | tail _ _ => 1
  | _ => 0

/-- Are the phrase's parts held together by operators, accesses and keywords? -/
def Phrase.isTight : Phrase → Bool
  | nested _ | expr _ _ | chain _ _ _ | trail _ _ | exprs _ | arguments _ => true
  | _ => false

/-- Calls, accesses and further operands go on with the expression before them. -/
theorem Derives.joins_head (h : Derives free d ph ts next)
    (hp : (∃ k a e, ph = .chain k a e) ∨ (∃ a e, ph = .trail a e) ∨ ∃ es, ph = .arguments es) :
    ∀ t ∈ ts.head?, t.joins = true := by
  rcases hp with ⟨k, a, e, rfl⟩ | ⟨a, e, rfl⟩ | ⟨es, rfl⟩
  · cases h with
    | chainEnd _ => simp
    | @chainStep _ _ _ _ _ op _ _ _ _ ht _ _ _ =>
      simpa using Token.joins_of_is (Token.is_of_binaryOp? ht).2 op.symbol_mem.1
  · cases h with
    | trailEnd _ => simp
    | call _ h _ =>
      obtain ⟨t, ts, rfl⟩ := List.exists_cons_of_ne_nil (h.ne_nil rfl)
      simpa using Token.joins_of_is (h.head_arguments t)
    | methodCall _ ht _ _ _ => simpa using Token.joins_of_is ht
    | member _ ht _ _ => simpa using Token.joins_of_is ht
    | index _ ht _ _ _ => simpa using Token.joins_of_is ht
  · cases h with
    | noArguments ht _ => simpa using Token.joins_of_is ht
    | arguments ht _ _ _ => simpa using Token.joins_of_is ht

/-- What the tokens of a phrase do to the depth. -/
structure Phrase.Shape (ph : Phrase) (ts : List Token) (next : Token) : Prop where
  poised : Poised ph.fall ts next
  tight : ph.isTight = true → Tight ts

namespace Phrase.Shape

theorem single (he : t.isEof = false) (ht : t.is ";" = false) (hr : t.rise = 0) (hp : ph.fall = 0) :
    ph.Shape [t] next :=
  ⟨by rw [hp]; exact .plain he hr .nil, fun _ => .single ht⟩

theorem symbol {s : String} (ht : t.is s = true) (hp : ph.fall = 0) (hs : Token.weight s = 0 := by decide)
    (hn : s ≠ ";" := by decide) : ph.Shape [t] next :=
  single (Token.isEof_of_is ht) (Token.is_eq_false ht hn) ((Token.rise_of_is ht).trans hs) hp

/-- A phrase that is opened by its first token. -/
theorem opened {s : String} (ht : t.is s = true) (h : Poised 1 ts next) (hp : ph.fall = 0)
    (hs : Token.weight s = 1 := by decide) : ph.Shape (t :: ts) next := by
  refine ⟨?_, fun _ => .inside ht h hs⟩
  rw [hp]
  exact .symbol (r := 1) ht h hs

/-- Two parts, of which the second goes on with the first. -/
theorem append {a b : Phrase} (ha : a.Shape ts (us.headD next)) (hb : b.Shape us next) (haf : a.fall = 0)
    (hat : a.isTight = true) (hbt : b.isTight = true) (hbf : b.fall = ph.fall) (hj : ∀ u ∈ us.head?, u.joins = true) :
    ph.Shape (ts ++ us) next := by
  have hpoised := ha.poised
  rw [haf] at hpoised
  refine ⟨hpoised.append (hbf ▸ hb.poised), fun _ => ?_⟩
  exact (ha.tight hat).append hpoised (hb.tight hbt) hb.poised.solid hj

/-- A sign and the part that it needs. -/
theorem cons {b : Phrase} {s : String} (ht : t.is s = true) (hb : b.Shape ts next) (hbt : b.isTight = true)
    (hbf : b.fall = ph.fall) (hs : Token.weight s = 0 := by decide) (hw : s ∈ Token.waiters := by decide) :
    ph.Shape (t :: ts) next :=
  ⟨.symbol (r := 0) ht (hbf ▸ hb.poised) hs, fun _ => (hb.tight hbt).waiting ht hs hw⟩

theorem name {b : Phrase} (ht : t.isName = true) (hb : b.Shape ts next) (hbt : b.isTight = true)
    (hbf : b.fall = ph.fall) (hj : ∀ u ∈ ts.head?, u.joins = true) : ph.Shape (t :: ts) next :=
  ⟨.name ht (hbf ▸ hb.poised), fun _ => (hb.tight hbt).named ht hj⟩

/-- Two parts with a sign between them. -/
theorem linked {a b : Phrase} {s : String} (ha : a.Shape ts t) (ht : t.is s = true) (hb : b.Shape us next)
    (haf : a.fall = 0) (hat : a.isTight = true) (hbt : b.isTight = true) (hbf : b.fall = ph.fall)
    (hs : Token.weight s = 0 := by decide) (hj : s ∈ Token.joiners := by decide)
    (hw : s ∈ Token.waiters := by decide) : ph.Shape (ts ++ t :: us) next := by
  have htail : b.Shape (t :: us) next := cons ht hb hbt rfl hs hw
  have hnext : a.Shape ts ((t :: us).headD next) := ha
  refine hnext.append htail haf hat hbt hbf ?_
  simpa using Token.joins_of_is ht hj

/-- A phrase that need not hold together. -/
theorem loose (h : Poised ph.fall ts next) (hp : ph.isTight = false) : ph.Shape ts next := by
  refine ⟨h, ?_⟩
  intro ht
  rw [hp] at ht
  cases ht

end Phrase.Shape

theorem Derives.shape (h : Derives free d ph ts next) : ph.Shape ts next := by
  induction h with
  | nested _ _ ih => exact ⟨ih.poised, fun _ => ih.tight rfl⟩
  | chained _ _ hc ih ihc => exact ih.append ihc rfl rfl rfl rfl (hc.joins_head (.inl ⟨_, _, _, rfl⟩))
  | chainEnd _ => exact ⟨.nil, fun _ => .nil⟩
  | @chainStep _ k _ _ _ op _ _ _ _ ht _ _ hc ih ihc =>
    have htail : (Phrase.chain k _ _).Shape _ _ :=
      ih.append ihc rfl rfl rfl rfl (hc.joins_head (.inl ⟨_, _, _, rfl⟩))
    exact htail.cons (Token.is_of_binaryOp? ht).2 rfl rfl op.weight_symbol op.symbol_mem.2
  | concatEnd _ _ ih => exact ⟨ih.poised, fun _ => ih.tight rfl⟩
  | concat _ ht _ _ ih ihr => exact ih.linked ht ihr rfl rfl rfl rfl
  | @unary _ op _ _ _ _ ht _ _ ih =>
    exact ih.cons (Token.is_of_unaryOp? ht) rfl rfl op.weight_symbol op.symbol_mem
  | unaryEnd _ _ ih => exact ⟨ih.poised, fun _ => ih.tight rfl⟩
  | powerEnd _ _ ih => exact ⟨ih.poised, fun _ => ih.tight rfl⟩
  | power _ ht _ _ ih ihr => exact ih.linked ht ihr rfl rfl rfl rfl
  | access _ ht ih iht => exact ih.append iht rfl rfl rfl rfl (ht.joins_head (.inr (.inl ⟨_, _, rfl⟩)))
  | trailEnd _ => exact ⟨.nil, fun _ => .nil⟩
  | call _ _ hr ih ihr => exact ih.append ihr rfl rfl rfl rfl (hr.joins_head (.inr (.inl ⟨_, _, rfl⟩)))
  | @methodCall _ a _ _ ts us _ _ _ _ ht hm h hr ih ihr =>
    have htail : (Phrase.trail a a).Shape (ts ++ us) _ :=
      ih.append ihr rfl rfl rfl rfl (hr.joins_head (.inr (.inl ⟨_, _, rfl⟩)))
    have hhead : ∀ u ∈ (ts ++ us).head?, u.joins = true := by
      rw [List.head?_append_of_ne_nil _ (h.ne_nil rfl)]
      exact h.joins_head (.inr (.inr ⟨_, rfl⟩))
    have hname : (Phrase.trail a a).Shape _ _ := htail.name hm rfl rfl hhead
    exact hname.cons ht rfl rfl
  | @member _ a _ _ _ _ _ _ ht hm hr ihr =>
    have hname : (Phrase.trail a a).Shape _ _ :=
      ihr.name hm rfl rfl (hr.joins_head (.inr (.inl ⟨_, _, rfl⟩)))
    exact hname.cons ht rfl rfl
  | @index _ a _ _ ts us _ u next _ ht _ hu hr ih ihr =>
    have hkey : (Phrase.trail a a).Shape _ (us.headD next) := .opened ht (ih.poised.closed hu) rfl
    rw [← List.singleton_append (x := u), ← List.append_assoc, ← List.cons_append]
    exact hkey.append ihr rfl rfl rfl rfl (hr.joins_head (.inr (.inl ⟨_, _, rfl⟩)))
  | string ht =>
    exact .single (by simp [Token.isEof, ht]) (by simp [Token.is, ht]) (Token.rise_of_kind (by simp [ht])) rfl
  | number ht =>
    exact .single (by simp [Token.isEof, ht]) (by simp [Token.is, ht]) (Token.rise_of_kind (by simp [ht])) rfl
  | identifier ht =>
    exact .single (Token.isEof_of_isName ht) (Token.is_eq_false_of_isName ht _) (Token.rise_of_isName ht) rfl
  | trueWord ht => exact .symbol (Token.is_of_isWord ht) rfl
  | falseWord ht => exact .symbol (Token.is_of_isWord ht) rfl
  | nilWord ht => exact .symbol (Token.is_of_isWord ht) rfl
  | vararg hk ht => exact .symbol (Token.is_iff.mpr ⟨.inr (.inl hk), ht⟩) rfl
  | parens hk ht _ hu ih =>
    exact .opened (Token.is_iff.mpr ⟨.inr (.inr hk), ht⟩) (ih.poised.closed hu) rfl
  | table hk ht _ hu ih =>
    exact .opened (Token.is_iff.mpr ⟨.inr (.inr hk), ht⟩) (ih.poised.closed hu) rfl
  | function ht hp _ ih => exact .opened (Token.is_of_isWord ht) (hp.poised.append ih.poised) rfl
  | one _ _ ih => exact ⟨ih.poised, fun _ => ih.tight rfl⟩
  | cons _ ht _ ih ihr => exact ih.linked ht ihr rfl rfl rfl rfl
  | noArguments ht hu => exact .opened ht (.closer hu) rfl
  | arguments ht _ _ hu ih => exact .opened ht (ih.poised.closed hu) rfl
  | @keyed _ _ _ ts us _ u v next ht _ hu hv _ ihk ih =>
    have hkey : Poised 0 _ v := .brackets ht hu ihk.poised
    rw [← List.singleton_append (x := u), ← List.append_assoc, ← List.cons_append]
    exact .loose (hkey.append (.symbol (r := 0) hv ih.poised)) rfl
  | named ht hu _ ih => exact .loose (.name ht (.symbol (r := 0) hu ih.poised)) rfl
  | positional _ _ _ ih => exact .loose ih.poised rfl
  | fieldsEnd _ => exact .loose .nil rfl
  | fieldsLast _ _ _ _ ih => exact .loose ih.poised rfl
  | fieldsCons _ _ ht _ ih ihr =>
    rcases ht with ht | ht
    · exact .loose (ih.poised.linked ht ihr.poised) rfl
    · exact .loose (ih.poised.linked ht ihr.poised) rfl
  | stmtsEnd _ => exact .loose .nil rfl
  | stmtsSkip _ _ _ ih ihr => exact .loose (ih.poised.append ihr.poised) rfl
  | stmtsCons _ _ _ ih ihr => exact .loose (ih.poised.append ihr.poised) rfl
  | block _ _ ih => exact .loose ih.poised rfl
  | body h he ih => exact .loose (ih.poised.ended (by simpa [Token.closesBlock] using h.closesBlock_block) he) rfl
  | skip ht => exact .loose (.symbol (r := 0) ht .nil) rfl
  | declare ht hm _ => exact .loose (.symbol (r := 0) (Token.is_of_isWord ht) (.name hm .nil)) rfl
  | declareAs ht hm hu _ ih =>
    exact .loose (.symbol (r := 0) (Token.is_of_isWord ht) (.name hm (.symbol (r := 0) hu ih.poised))) rfl
  | localFunction ht hf hm hp _ ih =>
    have hfunction := Poised.symbol (r := 1) hf (.name hm (hp.poised.append ih.poised))
    exact .loose (.symbol (r := 0) (Token.is_of_isWord ht) hfunction) rfl
  | define ht hm hs hp _ ih =>
    have hrest := hs.poised.append (hp.poised.append ih.poised)
    exact .loose (.symbol (r := 1) (Token.is_of_isWord ht) (.name hm hrest)) rfl
  | conditional ht _ ih => exact .loose (.symbol (r := 1) (Token.is_of_isWord ht) ih.poised) rfl
  | whileLoop ht _ hm _ ihc ih =>
    have hrest := ihc.poised.append (.append (.maybe hm) ih.poised)
    exact .loose (.symbol (r := 1) (Token.is_of_isWord ht) hrest) rfl
  | noStep _ => exact .loose .nil rfl
  | step ht _ ih => exact .loose (.symbol (r := 0) ht ih.poised) rfl
  | forLoop ht hm hu _ hv _ _ hw _ ihf ihl ihs ih =>
    have hrest := ihl.poised.append (ihs.poised.append (.append (.maybe hw) ih.poised))
    have hrange := Poised.symbol (r := 0) hu (ihf.poised.linked hv hrest)
    exact .loose (.symbol (r := 1) (Token.is_of_isWord ht) (.name hm hrange)) rfl
  | forEach ht hm _ hn hu _ hw _ ihe ih =>
    have hrest := ihe.poised.append (.append (.maybe hw) ih.poised)
    exact .loose (.symbol (r := 1) (Token.is_of_isWord ht) (.name hm (hn.poised.linked hu hrest))) rfl
  | giveNothing ht _ hu => exact .loose (.symbol (r := 0) (Token.is_of_isWord ht) (.maybe hu)) rfl
  | giveBack ht _ _ hu ih => exact .loose (.symbol (r := 0) (Token.is_of_isWord ht) (ih.poised.append (.maybe hu))) rfl
  | leaveLoop ht => exact .loose (.symbol (r := 0) (Token.is_of_isWord ht) .nil) rfl
  | evaluate _ _ _ _ ih => exact .loose ih.poised rfl
  | @assign _ _ _ op _ _ _ _ _ _ _ hu _ _ ih ihv =>
    exact .loose (ih.poised.linked (Token.is_of_assignOp? hu) ihv.poised op.weight_symbol) rfl
  | tailElseif _ hu _ ht _ ihc ihb ihr =>
    have hrest := ihb.poised.linked ht ihr.poised
    refine .loose (.append (by simpa [Phrase.fall, List.headD_append] using ihc.poised) (.append ?_ hrest)) rfl
    exact .maybe (s := "then") (by simpa [List.headD_append] using hu)
  | tailElse _ hu _ ht _ ihc ihb ihr =>
    have hrest := ihb.poised.linked ht ihr.poised
    refine .loose (.append (by simpa [Phrase.fall, List.headD_append] using ihc.poised) (.append ?_ hrest)) rfl
    exact .maybe (s := "then") (by simpa [List.headD_append] using hu)
  | tailEnd _ hu hb hi he hw ihc ihb =>
    have hclose := hb.closesBlock_block
    simp only [Token.closesBlock, List.any_cons, List.any_nil, hi, he, Bool.false_or, Bool.or_false,
      Bool.or_eq_true] at hclose
    have hrest := ihb.poised.ended hclose hw
    exact .loose (ihc.poised.append (.append (.maybe hu) hrest)) rfl

/-- A statement is held together, but for the `;` that can end a return. -/
theorem Derives.tight_stmt {stop : Token} (hstop : stop.isEof = true) {o : Option Stmt}
    (h : Derives free d (.stmt o) ts next) :
    Tight ts ∨ ∃ us u, ts = us ++ [u] ∧ u.is ";" = true ∧ Tight us ∧ (us ≠ [] → Derives free d (.stmt o) us stop) := by
  have hword {t : Token} (ht : t.isWord "return" = true) : Tight [t] :=
    .single (Token.is_eq_false (Token.is_of_isWord ht) (by decide))
  cases h with
  | skip ht => exact .inr ⟨[], _, rfl, ht, .nil, fun hne => absurd rfl hne⟩
  | declare ht hm _ => exact .inl (.waiting (Token.is_of_isWord ht) (.single (Token.is_eq_false_of_isName hm _)))
  | declareAs ht hm hu h =>
    have hvalue := (h.shape.tight rfl).waiting hu
    have hname := hvalue.named hm (by simpa using Token.joins_of_is hu)
    exact .inl (hname.waiting (Token.is_of_isWord ht))
  | localFunction ht hf hm hp h =>
    have hrest := hp.poised.append h.shape.poised
    exact .inl (.waiting (Token.is_of_isWord ht) (.inside hf (.name hm hrest)))
  | define ht hm hs hp h =>
    have hrest := hs.poised.append (hp.poised.append h.shape.poised)
    exact .inl (.inside (Token.is_of_isWord ht) (.name hm hrest))
  | conditional ht h => exact .inl (.inside (Token.is_of_isWord ht) h.shape.poised)
  | whileLoop ht hc hm h =>
    have hrest := hc.shape.poised.append (.append (.maybe hm) h.shape.poised)
    exact .inl (.inside (Token.is_of_isWord ht) hrest)
  | forLoop ht hm hu hf hv hl hs hw h =>
    have hrest := hl.shape.poised.append (hs.shape.poised.append (.append (.maybe hw) h.shape.poised))
    have hrange := Poised.symbol (r := 0) hu (hf.shape.poised.linked hv hrest)
    exact .inl (.inside (Token.is_of_isWord ht) (.name hm hrange))
  | forEach ht hm _ hn hu he hw h =>
    have hrest := he.shape.poised.append (.append (.maybe hw) h.shape.poised)
    exact .inl (.inside (Token.is_of_isWord ht) (.name hm (hn.poised.linked hu hrest)))
  | @giveNothing _ _ t _ ht _ hu =>
    rcases hu with ⟨u, hu, rfl⟩ | ⟨rfl, -⟩
    · refine .inr ⟨[t], u, rfl, hu, hword ht, fun _ => ?_⟩
      have hcloses : stop.closesReturn = true := by simp [Token.closesReturn, Token.closesBlock, hstop]
      exact .giveNothing ht hcloses (.inr ⟨rfl, Token.is_of_isEof hstop _⟩)
    · exact .inl (hword ht)
  | @giveBack _ es ts _ t _ ht hs h hu =>
    have htight := (h.shape.tight rfl).waiting (Token.is_of_isWord ht)
    rcases hu with ⟨u, hu, rfl⟩ | ⟨rfl, -⟩
    · refine .inr ⟨t :: ts, u, rfl, hu, htight, fun _ => ?_⟩
      obtain ⟨v, vs, rfl⟩ := List.exists_cons_of_ne_nil (h.ne_nil rfl)
      have hreturn : Derives free d (.stmt (some (.mk t.line (.giveBack es)))) (t :: (v :: vs ++ [])) stop :=
        .giveBack ht hs (h.before_eof hstop) (.inr ⟨rfl, Token.is_of_isEof hstop _⟩)
      rwa [List.append_nil] at hreturn
    · rw [List.append_nil]
      exact .inl htight
  | leaveLoop ht => exact .inl (.single (Token.is_eq_false (Token.is_of_isWord ht) (by decide)))
  | evaluate _ _ h _ => exact .inl (h.shape.tight rfl)
  | @assign _ _ _ op _ _ _ _ _ _ h hu _ hv =>
    have hmem := op.symbol_mem
    exact .inl ((h.shape.tight rfl).linked h.shape.poised (Token.is_of_assignOp? hu) (hv.shape.tight rfl)
      hv.shape.poised.solid op.weight_symbol hmem.1 hmem.2)

end Phrases

end ScriptGraph
