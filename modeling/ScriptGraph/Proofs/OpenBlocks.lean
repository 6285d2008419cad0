import ScriptGraph.Document
import ScriptGraph.Proofs.HeaderSplit

namespace ScriptGraph

namespace Token

/-- How many blocks a word opens for the parser. Loops start with their keyword, as `do` can be left out. -/
def blockWeight (s : String) : Int :=
  if ["function", "if", "while", "for", "repeat"].contains s then 1
  else if ["end", "until"].contains s then -1
  else 0

/-- Loops against the `do`s that they are written with. -/
def loopWeight (s : String) : Int :=
  if ["while", "for"].contains s then 1
  else if s = "do" then -1
  else 0

/-- Does the token start a loop? -/
def opensLoop (t : Token) : Bool := t.isWord "while" || t.isWord "for"

/-- The weight of a word or mark; other tokens have none. -/
def worth (w : String → Int) (t : Token) : Int :=
  if t.kind = .keyword ∨ t.kind = .operator ∨ t.kind = .punctuation then w t.text else 0

/-- Neither a block nor a loop starts or ends with the token. -/
structure IsPlain (t : Token) : Prop where
  solid : t.isEof = false
  blocks : t.worth blockWeight = 0
  loops : t.worth loopWeight = 0

/-- What can stand behind a row of tokens when its blocks are closed: the end of input or, inside a block, its `end`. -/
def Stops (inner : Bool) (t : Token) : Prop := t.isEof = true ∨ inner = true ∧ t.is "end" = true

variable {t : Token} {s : String} {inner : Bool}

theorem worth_of_is {w : String → Int} (h : t.is s = true) : t.worth w = w s := by
  obtain ⟨hk, rfl⟩ := is_iff.mp h
  rw [worth, if_pos hk]

theorem IsPlain.of_is (h : t.is s = true) (hb : blockWeight s = 0 := by decide) (hl : loopWeight s = 0 := by decide) :
    t.IsPlain := ⟨isEof_of_is h, (worth_of_is h).trans hb, (worth_of_is h).trans hl⟩

theorem IsPlain.of_kind (he : t.isEof = false)
    (h : ¬ (t.kind = .keyword ∨ t.kind = .operator ∨ t.kind = .punctuation)) : t.IsPlain := ⟨he, if_neg h, if_neg h⟩

theorem IsPlain.of_isName (h : t.isName = true) : t.IsPlain :=
  .of_kind (isEof_of_isName h) (by simp [isName_iff.mp h])

namespace Stops

theorem of_is (h : t.is "end" = true) : t.Stops true := .inr ⟨rfl, h⟩

theorem is_eq_false (h : t.Stops inner) (hs : "end" ≠ s := by decide) : t.is s = false := by
  rcases h with h | ⟨-, h⟩
  · exact is_of_isEof h s
  · exact Token.is_eq_false h hs

theorem binaryOp? (h : t.Stops inner) (ops : List BinaryOp) : t.binaryOp? ops = none := by
  have hsymbol : ∀ op ∈ ops, ¬ t.is op.symbol = true := by
    intro op _
    rw [h.is_eq_false (by cases op <;> decide)]
    exact Bool.false_ne_true
  exact List.find?_eq_none.mpr hsymbol

theorem assignOp? (h : t.Stops inner) : t.assignOp? = none := by
  have hsymbol : ∀ op ∈ AssignOp.all, ¬ t.is op.symbol = true := by
    intro op _
    rw [h.is_eq_false (by cases op <;> decide)]
    exact Bool.false_ne_true
  exact List.find?_eq_none.mpr hsymbol

theorem opensTrailer (h : t.Stops inner) : t.opensTrailer = false := by
  simp [Token.opensTrailer, h.is_eq_false (s := "("), h.is_eq_false (s := ":"), h.is_eq_false (s := "."),
    h.is_eq_false (s := "[")]

theorem closesReturn (h : t.Stops inner) : t.closesReturn = true := by
  rcases h with h | ⟨-, h⟩
  · simp [Token.closesReturn, Token.closesBlock, h]
  · simp [Token.closesReturn, Token.closesBlock, h]

theorem closesBlock {stops : List String} (h : t.Stops (stops.contains "end")) : t.closesBlock stops = true := by
  rcases h with h | ⟨hmem, h⟩
  · simp [Token.closesBlock, h]
  · have hstop : stops.any t.is = true := List.any_eq_true.mpr ⟨"end", by simpa using hmem, h⟩
    simp [Token.closesBlock, hstop]

end Stops

end Token

open Token (blockWeight loopWeight)

/-- The weight of a row. -/
def worth (w : String → Int) (ts : List Token) : Int := (ts.map (Token.worth w)).sum

section Worth

variable {w : String → Int}

@[simp] theorem worth_nil : worth w [] = 0 := rfl

@[simp] theorem worth_cons (t : Token) (ts : List Token) : worth w (t :: ts) = t.worth w + worth w ts := List.sum_cons

@[simp] theorem worth_append (ts us : List Token) : worth w (ts ++ us) = worth w ts + worth w us := by
  rw [worth, List.map_append, List.sum_append, worth, worth]

theorem worth_plain {ts : List Token} (h : ∀ t ∈ ts, t.IsPlain) :
    worth blockWeight ts = 0 ∧ worth loopWeight ts = 0 := by
  induction ts with
  | nil => exact ⟨rfl, rfl⟩
  | cons t ts ih =>
    obtain ⟨ht, hts⟩ := List.forall_mem_cons.mp h
    obtain ⟨hb, hl⟩ := ih hts
    exact ⟨by simp [ht.blocks, hb], by simp [ht.loops, hl]⟩

end Worth

/-- `end`s for `n` blocks that are open: some of them at the end of input, all of them before the `end` of a block
around them. -/
structure Closers (inner : Bool) (n : Int) (es : List Token) (next : Token) : Prop where
  words : ∀ e ∈ es, e.is "end" = true
  count : next.isEof = true ∧ es.length ≤ n ∨ (inner = true ∧ next.is "end" = true) ∧ es.length = n

namespace Closers

variable {inner : Bool} {n : Int} {es : List Token} {next : Token}

theorem stops (h : Closers inner n es next) : next.Stops inner := by
  rcases h.count with ⟨heof, -⟩ | ⟨hend, -⟩
  · exact .inl heof
  · exact .inr hend

theorem stops_headD (h : Closers inner n es next) : (es.headD next).Stops true := by
  cases es with
  | nil => exact h.stops.imp_right fun hend => ⟨rfl, hend.2⟩
  | cons e es => exact .of_is (h.words e List.mem_cons_self)

theorem outer (h : Closers inner n es next) : Closers true n es next := by
  refine ⟨h.words, ?_⟩
  rcases h.count with heof | ⟨⟨-, hend⟩, hlen⟩
  · exact .inl heof
  · exact .inr ⟨⟨rfl, hend⟩, hlen⟩

theorem eq_nil (h : Closers inner 0 es next) : es = [] := by
  have hlen : es.length = 0 := by
    rcases h.count with ⟨-, hle⟩ | ⟨-, heq⟩ <;> omega
  exact List.length_eq_zero_iff.mp hlen

/-- The first `end`s close the `m` blocks of the first part, the others those of the second. -/
theorem split {m : Int} (hm : 0 ≤ m) (hn : 0 ≤ n) (h : Closers inner (m + n) es next) :
    ∃ fs gs, es = fs ++ gs ∧ Closers true m fs (gs.headD next) ∧ Closers inner n gs next := by
  refine ⟨es.take m.toNat, es.drop m.toNat, (List.take_append_drop _ _).symm, ?_, ?_⟩
  · refine ⟨fun e he => h.words e (List.mem_of_mem_take he), ?_⟩
    rw [List.length_take]
    cases hdrop : es.drop m.toNat with
    | nil =>
      have hle : es.length ≤ m.toNat := List.drop_eq_nil_iff.mp hdrop
      rcases h.count with ⟨heof, -⟩ | ⟨⟨-, hend⟩, hlen⟩
      · exact .inl ⟨heof, by omega⟩
      · exact .inr ⟨⟨rfl, hend⟩, by omega⟩
    | cons g gs =>
      have hlt : m.toNat < es.length := by
        refine Nat.lt_of_not_le fun hle => ?_
        rw [List.drop_eq_nil_of_le hle] at hdrop
        cases hdrop
      have hg : g ∈ es := List.mem_of_mem_drop (hdrop ▸ List.mem_cons_self)
      exact .inr ⟨⟨rfl, h.words g hg⟩, by omega⟩
  · refine ⟨fun e he => h.words e (List.mem_of_mem_drop he), ?_⟩
    rw [List.length_drop]
    rcases h.count with ⟨heof, hle⟩ | ⟨hend, hlen⟩
    · exact .inl ⟨heof, by omega⟩
    · exact .inr ⟨hend, by omega⟩

end Closers

/-- `P` is true of one part of the row, and `Q` of the rest. -/
def Follows (P Q : List Token → Token → Prop) (ws : List Token) (next : Token) : Prop :=
  ∃ ts us, ws = ts ++ us ∧ P ts (us.headD next) ∧ Q us next

/-- The row starts with `as` and `t`, and `P` is true of the rest. -/
def Behind (as : List Token) (t : Token) (P : List Token → Token → Prop) (ws : List Token) (next : Token) : Prop :=
  ∃ us, ws = as ++ t :: us ∧ P us next

/-- The row closes `fall` blocks from outside, and has the `do`s of at most `owed` loops from outside. Only at the end
of input it leaves blocks open, and `P` stays true when they are closed there. -/
structure Closable (inner : Bool) (fall owed : Nat) (P : List Token → Token → Prop) (ts : List Token) (next : Token) :
    Prop where
  solid : ∀ t ∈ ts, t.isEof = false
  loops : 0 ≤ worth loopWeight ts + owed
  level : 0 ≤ worth blockWeight ts + fall
  total : next.isEof = false → worth blockWeight ts + fall = 0
  close : next.isEof = true → ∀ es stop, Closers inner (worth blockWeight ts + fall) es stop → P (ts ++ es) stop

namespace Closable

variable {inner : Bool} {fall owed : Nat} {P Q R : List Token → Token → Prop} {s : String} {ts us : List Token}
  {t next : Token}

theorem imp (h : Closable inner fall owed P ts next)
    (himp : ∀ {ws : List Token} {stop : Token}, stop.Stops inner → P ws stop → Q ws stop) :
    Closable inner fall owed Q ts next :=
  ⟨h.solid, h.loops, h.level, h.total, fun heof es stop hes => himp hes.stops (h.close heof es stop hes)⟩

theorem outer (h : Closable true fall owed P ts next) : Closable inner fall owed P ts next :=
  ⟨h.solid, h.loops, h.level, h.total, fun heof es stop hes => h.close heof es stop hes.outer⟩

/-- The row goes on as it started. -/
theorem keep (h : Closable inner fall owed P ts next) :
    Closable inner fall owed (fun ws stop => ts <+: ws ∧ P ws stop) ts next :=
  ⟨h.solid, h.loops, h.level, h.total,
    fun heof es stop hes => ⟨List.prefix_append ts es, h.close heof es stop hes⟩⟩

/-- A row without blocks. -/
theorem plain (h : ∀ t ∈ ts, t.IsPlain) (hP : ∀ {stop : Token}, stop.Stops inner → P ts stop) :
    Closable inner 0 0 P ts next := by
  obtain ⟨hb, hl⟩ := worth_plain h
  refine ⟨fun t ht => (h t ht).solid, by simp [hl], by simp [hb], fun _ => by simp [hb], ?_⟩
  intro _ es stop hes
  rw [hb] at hes
  rw [hes.eq_nil, List.append_nil]
  exact hP hes.stops

theorem nil (hP : ∀ {stop : Token}, stop.Stops inner → P [] stop) : Closable inner 0 0 P [] next :=
  plain (by simp) hP

theorem single (ht : t.IsPlain) (hP : ∀ {stop : Token}, stop.Stops inner → P [t] stop) :
    Closable inner 0 0 P [t] next := plain (by simpa using ht) hP

theorem cons {b l : Nat} (he : t.isEof = false) (hb : t.worth blockWeight = b) (hl : t.worth loopWeight = l)
    (h : Closable inner (fall + b) (owed + l) P ts next) : Closable inner fall owed (Behind [] t P) (t :: ts) next := by
  have hloops := h.loops
  have hworth : worth blockWeight (t :: ts) + fall = worth blockWeight ts + (fall + b : Nat) := by
    rw [worth_cons, hb]
    push_cast
    omega
  refine ⟨List.forall_mem_cons.mpr ⟨he, h.solid⟩, ?_, hworth ▸ h.level, fun hnext => hworth.trans (h.total hnext), ?_⟩
  · rw [worth_cons, hl]
    push_cast at hloops
    omega
  · intro heof es stop hes
    rw [hworth] at hes
    exact ⟨ts ++ es, rfl, h.close heof es stop hes⟩

/-- A word that starts no block. -/
theorem behind (h : Closable inner fall owed P ts next) (ht : t.IsPlain) :
    Closable inner fall owed (Behind [] t P) (t :: ts) next := cons (b := 0) (l := 0) ht.solid ht.blocks ht.loops h

/-- A word that starts a block. -/
theorem opened (h : Closable inner 1 0 P ts next) (ht : t.is s = true) (hb : blockWeight s = 1 := by decide)
    (hl : loopWeight s = 0 := by decide) : Closable inner 0 0 (Behind [] t P) (t :: ts) next :=
  cons (b := 1) (l := 0) (Token.isEof_of_is ht) ((Token.worth_of_is ht).trans hb) ((Token.worth_of_is ht).trans hl) h

/-- A word that starts a loop. -/
theorem looped (h : Closable inner 1 1 P ts next) (ht : t.is s = true) (hb : blockWeight s = 1 := by decide)
    (hl : loopWeight s = 1 := by decide) : Closable inner 0 0 (Behind [] t P) (t :: ts) next :=
  cons (b := 1) (l := 1) (Token.isEof_of_is ht) ((Token.worth_of_is ht).trans hb) ((Token.worth_of_is ht).trans hl) h

/-- Two parts, of which the first is closed first. -/
theorem append {o : Nat} (h : Closable true 0 o P ts (us.headD next)) (hP : P ts (us.headD next))
    (h' : Closable inner fall owed Q us next) : Closable inner fall (o + owed) (Follows P Q) (ts ++ us) next := by
  have hloops := h.loops
  have hloops' := h'.loops
  have hsolid := List.forall_mem_append.mpr ⟨h.solid, h'.solid⟩
  have howed : 0 ≤ worth loopWeight (ts ++ us) + (o + owed : Nat) := by
    rw [worth_append]
    push_cast
    omega
  have hworth : worth blockWeight (ts ++ us) + fall =
      worth blockWeight ts + (0 : Nat) + (worth blockWeight us + fall) := by
    rw [worth_append]
    push_cast
    omega
  refine ⟨hsolid, howed, hworth ▸ Int.add_nonneg h.level h'.level, fun hnext => ?_, fun heof es stop hes => ?_⟩
  · have hfirst : (us.headD next).isEof = false := by
      cases us with
      | nil => exact hnext
      | cons u us => exact h'.solid u List.mem_cons_self
    rw [hworth, h.total hfirst, h'.total hnext]
    rfl
  · rw [hworth] at hes
    cases us with
    | nil =>
      obtain ⟨fs, gs, rfl, hfs, hgs⟩ := hes.split h.level h'.level
      exact ⟨ts ++ fs, gs, by simp, h.close heof fs _ hfs, h'.close heof gs stop hgs⟩
    | cons u us =>
      rw [h.total (h'.solid u List.mem_cons_self), Int.zero_add] at hes
      exact ⟨ts, u :: us ++ es, by simp, hP, h'.close heof es stop hes⟩

/-- Two parts with a sign between them. -/
theorem linked {o : Nat} {i : Bool} (h : Closable i 0 o P ts t) (ht : t.IsPlain)
    (h' : Closable inner fall owed Q us next) :
    Closable inner fall (o + owed) (Behind ts t Q) (ts ++ t :: us) next := by
  have hloops := h.loops
  have hloops' := h'.loops
  have hfirst := h.total ht.solid
  have hworth : worth blockWeight (ts ++ t :: us) + fall = worth blockWeight us + fall := by
    rw [worth_append, worth_cons, ht.blocks]
    push_cast at hfirst
    omega
  refine ⟨?_, ?_, hworth ▸ h'.level, fun hnext => hworth.trans (h'.total hnext), fun heof es stop hes => ?_⟩
  · exact List.forall_mem_append.mpr ⟨h.solid, List.forall_mem_cons.mpr ⟨ht.solid, h'.solid⟩⟩
  · rw [worth_append, worth_cons, ht.loops]
    push_cast
    omega
  · rw [hworth] at hes
    exact ⟨us ++ es, by simp, h'.close heof es stop hes⟩

/-- A part between its brackets. -/
theorem bracketed {u : Token} {i : Bool} (h : Closable i 0 0 P ts u) (ht : t.IsPlain) (hu : u.IsPlain) :
    Closable inner 0 0 (fun ws _ => ws = t :: (ts ++ [u])) (t :: (ts ++ [u])) next := by
  have hnone : Closable inner 0 0 (fun ws _ => ws = []) [] next := nil fun _ => rfl
  refine ((h.linked hu hnone).behind ht).imp ?_
  rintro _ stop - ⟨_, rfl, _, rfl, rfl⟩
  rfl

theorem maybe (hm : Maybe s ts next) (hs : "end" ≠ s := by decide) (hb : blockWeight s = 0 := by decide)
    (hl : loopWeight s = 0 := by decide) : Closable true 0 0 (Maybe s) ts next := by
  rcases hm with ⟨t, ht, rfl⟩ | ⟨rfl, -⟩
  · exact single (.of_is ht hb hl) fun _ => .inl ⟨t, ht, rfl⟩
  · exact nil fun hstop => .inr ⟨rfl, hstop.is_eq_false hs⟩

/-- The `do` of a loop. -/
theorem maybe_do (hm : Maybe "do" ts next) : Closable true 0 1 (Maybe "do") ts next := by
  rcases hm with ⟨t, ht, rfl⟩ | ⟨rfl, -⟩
  · have hb : t.worth blockWeight = 0 := (Token.worth_of_is ht).trans rfl
    have hl : t.worth loopWeight = -1 := (Token.worth_of_is ht).trans rfl
    refine ⟨by simp [Token.isEof_of_is ht], by simp [hl], by simp [hb], fun _ => by simp [hb], fun _ es stop hes => ?_⟩
    simp only [worth_cons, worth_nil, hb] at hes
    rw [hes.eq_nil]
    exact .inl ⟨t, ht, rfl⟩
  · have hnone : Closable true 0 0 (Maybe "do") [] next :=
      nil fun hstop => .inr ⟨rfl, hstop.is_eq_false (by simp)⟩
    exact ⟨hnone.solid, by simp, hnone.level, hnone.total, hnone.close⟩

/-- The `end` of a block, which only the end of input can stand for. -/
theorem maybe_end (hn : (ts.headD next).isEof = true ∨ (ts.headD next).is "end" = true) (he : Maybe "end" ts next) :
    Closable true 1 0 (Maybe "end") ts next := by
  rcases he with ⟨t, ht, rfl⟩ | ⟨rfl, hnext⟩
  · have hb : t.worth blockWeight = -1 := (Token.worth_of_is ht).trans rfl
    have hl : t.worth loopWeight = 0 := (Token.worth_of_is ht).trans rfl
    refine ⟨by simp [Token.isEof_of_is ht], by simp [hl], by simp [hb], fun _ => by simp [hb], fun _ es stop hes => ?_⟩
    simp only [worth_cons, worth_nil, hb] at hes
    rw [hes.eq_nil]
    exact .inl ⟨t, ht, rfl⟩
  · have heof : next.isEof = true := by simpa [hnext] using hn
    refine ⟨by simp, by simp, by simp, fun hne => by simp [heof] at hne, fun _ es stop hes => ?_⟩
    cases es with
    | nil =>
      -- without an `end` the block is open up to the end of input
      rcases hes.count with ⟨hstop, -⟩ | ⟨-, hlen⟩
      · exact .inr ⟨rfl, Token.is_of_isEof hstop _⟩
      · simp at hlen
    | cons e es =>
      have hrest : es.length = 0 := by
        have hlen := hes.count
        simp only [List.length_cons, worth_nil] at hlen
        omega
      rw [List.length_eq_zero_iff.mp hrest]
      exact .inl ⟨e, hes.words e List.mem_cons_self, rfl⟩

end Closable

section Phrases

variable {free : Bool} {d : Nat} {ph : Phrase} {ts us : List Token} {t next : Token}

theorem ParamNames.isPlain {names : List String} (h : ParamNames names ts next) : ∀ t ∈ ts, t.IsPlain := by
  induction h with
  | ellipsis ht => simpa using Token.IsPlain.of_is ht rfl rfl
  | last ht _ => simpa using Token.IsPlain.of_isName ht
  | cons ht hu _ ih => simpa [Token.IsPlain.of_isName ht, Token.IsPlain.of_is hu rfl rfl] using ih

theorem Params.isPlain {names : List String} (h : Params names ts next) : ∀ t ∈ ts, t.IsPlain := by
  cases h with
  | none ht hu => simp [Token.IsPlain.of_is ht rfl rfl, Token.IsPlain.of_is hu rfl rfl]
  | some ht _ h hu =>
    refine List.forall_mem_cons.mpr ⟨.of_is ht rfl rfl, List.forall_mem_append.mpr ⟨h.isPlain, ?_⟩⟩
    simpa using Token.IsPlain.of_is hu rfl rfl

theorem Path.isPlain {part whole : String × Bool} (h : Path part whole ts next) : ∀ t ∈ ts, t.IsPlain := by
  induction h with
  | done _ => simp
  | dot ht hm _ ih => simpa [Token.IsPlain.of_is ht rfl rfl, Token.IsPlain.of_isName hm] using ih
  | colon ht hm _ ih => simpa [Token.IsPlain.of_is ht rfl rfl, Token.IsPlain.of_isName hm] using ih

theorem MoreNames.isPlain {names : List String} (h : MoreNames names ts next) : ∀ t ∈ ts, t.IsPlain := by
  induction h with
  | done _ => simp
  | cons ht hm _ ih => simpa [Token.IsPlain.of_is ht rfl rfl, Token.IsPlain.of_isName hm] using ih

theorem Path.before_stop {part whole : String × Bool} {inner : Bool} {stop : Token} (hstop : stop.Stops inner)
    (h : Path part whole ts next) : Path part whole ts stop := by
  induction h with
  | done _ => exact .done (.inr ⟨hstop.is_eq_false (by simp), hstop.is_eq_false (by simp)⟩)
  | dot ht hm _ ih => exact .dot ht hm ih
  | colon ht hm _ ih => exact .colon ht hm ih

theorem MoreNames.before_stop {names : List String} {inner : Bool} {stop : Token} (hstop : stop.Stops inner)
    (h : MoreNames names ts next) : MoreNames names ts stop := by
  induction h with
  | done _ => exact .done (hstop.is_eq_false (by simp))
  | cons ht hm _ ih => exact .cons ht hm ih

/-- A block is closed by its `end` or goes on to the end of input. -/
theorem Maybe.stops_headD {inner : Bool} (hstop : next.Stops inner) (h : Maybe "end" ts next) :
    (ts.headD next).Stops true := by
  rcases h with ⟨t, ht, rfl⟩ | ⟨rfl, -⟩
  · exact .of_is ht
  · exact hstop.imp_right fun hend => ⟨rfl, hend.2⟩

theorem Params.closable {names : List String} (h : Params names ts next) : Closable true 0 0 (Params names) ts next :=
  .plain h.isPlain fun {stop} _ => h.before_eof stop

theorem Path.closable {part whole : String × Bool} (h : Path part whole ts next) :
    Closable true 0 0 (Path part whole) ts next :=
  .plain h.isPlain fun hstop => h.before_stop hstop

theorem MoreNames.closable {names : List String} (h : MoreNames names ts next) :
    Closable true 0 0 (MoreNames names) ts next :=
  .plain h.isPlain fun hstop => h.before_stop hstop

theorem Token.IsPlain.of_binaryOp? {ops : List BinaryOp} {op : BinaryOp} (h : t.binaryOp? ops = some op) : t.IsPlain :=
  .of_is (Token.is_of_binaryOp? h).2 (by cases op <;> rfl) (by cases op <;> rfl)

theorem Token.IsPlain.of_assignOp? {op : AssignOp} (h : t.assignOp? = some op) : t.IsPlain :=
  .of_is (Token.is_of_assignOp? h) (by cases op <;> rfl) (by cases op <;> rfl)

theorem Token.IsPlain.of_unaryOp? {op : UnaryOp} (h : t.unaryOp? = some op) : t.IsPlain :=
  .of_is (Token.is_of_unaryOp? h) (by cases op <;> rfl) (by cases op <;> rfl)

/-- Can the phrase stand before the `end` of a block? -/
def Phrase.isInner : Phrase → Bool
  | stmts stops _ | block stops _ => stops.contains "end"
  | fields _ => false
  | _ => true

/-- A row that goes on starts with the same token. -/
theorem headD_of_startsWith {ws : List Token} (h : ts <+: ws) (hne : ts ≠ []) (a b : Token) :
    ws.headD a = ts.headD b := by
  obtain ⟨t, ts, rfl⟩ := List.exists_cons_of_ne_nil hne
  obtain ⟨us, rfl⟩ := h
  rfl

/-- What a phrase leaves open at the end of input can be closed there. -/
theorem Derives.closable (h : Derives free d ph ts next) :
    Closable ph.isInner ph.fall 0 (Derives free d ph) ts next := by
  induction h with
  | nested hd _ ih => exact ih.imp fun _ h => .nested hd h
  | chained hk h _ ih ihc =>
    refine (ih.append h ihc).imp ?_
    rintro _ stop - ⟨_, _, rfl, h, hc⟩
    exact .chained hk h hc
  | chainEnd _ => exact .nil fun hstop => .chainEnd (hstop.binaryOp? _)
  | chainStep ht hd h _ ih ihc =>
    refine ((ih.append h ihc).behind (.of_binaryOp? ht)).imp ?_
    rintro _ stop - ⟨_, rfl, ts, us, rfl, h, hc⟩
    exact .chainStep ht hd h hc
  | concatEnd _ _ ih => exact ih.imp fun hstop h => .concatEnd h hstop.is_eq_false
  | concat h ht hd _ ih ihr =>
    refine (ih.linked (.of_is ht) ihr).imp ?_
    rintro _ stop - ⟨_, rfl, hr⟩
    exact .concat h ht hd hr
  | unary ht hd _ ih =>
    refine (ih.behind (.of_unaryOp? ht)).imp ?_
    rintro _ stop - ⟨_, rfl, h⟩
    exact .unary ht hd h
  | unaryEnd hs h ih =>
    refine ih.keep.imp ?_
    rintro ws stop - ⟨hp, h'⟩
    exact .unaryEnd (by rwa [headD_of_startsWith hp (h.ne_nil rfl)]) h'
  | powerEnd _ _ ih => exact ih.imp fun hstop h => .powerEnd h hstop.is_eq_false
  | power h ht hd _ ih ihr =>
    refine (ih.linked (.of_is ht) ihr).imp ?_
    rintro _ stop - ⟨_, rfl, hr⟩
    exact .power h ht hd hr
  | access h _ ih iht =>
    refine (ih.append h iht).imp ?_
    rintro _ stop - ⟨_, _, rfl, h, ht⟩
    exact .access h ht
  | trailEnd _ => exact .nil fun hstop => .trailEnd hstop.opensTrailer
  | call hd h _ ih ihr =>
    refine (ih.append h ihr).imp ?_
    rintro _ stop - ⟨_, _, rfl, h, hr⟩
    exact .call hd h hr
  | methodCall hd ht hm h _ ih ihr =>
    refine (((ih.append h ihr).behind (.of_isName hm)).behind (.of_is ht)).imp ?_
    rintro _ stop - ⟨_, rfl, _, rfl, ts, us, rfl, h, hr⟩
    exact .methodCall hd ht hm h hr
  | member hd ht hm _ ihr =>
    refine ((ihr.behind (.of_isName hm)).behind (.of_is ht)).imp ?_
    rintro _ stop - ⟨_, rfl, us, rfl, hr⟩
    exact .member hd ht hm hr
  | index hd ht h hu _ ih ihr =>
    refine ((ih.linked (.of_is hu) ihr).behind (.of_is ht)).imp ?_
    rintro _ stop - ⟨_, rfl, us, rfl, hr⟩
    exact .index hd ht h hu hr
  | string ht => exact .single (.of_kind (by simp [Token.isEof, ht]) (by simp [ht])) fun _ => .string ht
  | number ht => exact .single (.of_kind (by simp [Token.isEof, ht]) (by simp [ht])) fun _ => .number ht
  | identifier ht => exact .single (.of_isName ht) fun _ => .identifier ht
  | trueWord ht => exact .single (.of_is (Token.is_of_isWord ht)) fun _ => .trueWord ht
  | falseWord ht => exact .single (.of_is (Token.is_of_isWord ht)) fun _ => .falseWord ht
  | nilWord ht => exact .single (.of_is (Token.is_of_isWord ht)) fun _ => .nilWord ht
  | vararg hk ht => exact .single (.of_is (Token.is_iff.mpr ⟨.inr (.inl hk), ht⟩)) fun _ => .vararg hk ht
  | parens hk ht h hu ih =>
    have hopen := Token.is_iff.mpr ⟨.inr (.inr hk), ht⟩
    exact (ih.bracketed (.of_is hopen) (.of_is hu)).imp fun _ heq => heq ▸ .parens hk ht h hu
  | table hk ht h hu ih =>
    have hopen := Token.is_iff.mpr ⟨.inr (.inr hk), ht⟩
    exact (ih.bracketed (.of_is hopen) (.of_is hu)).imp fun _ heq => heq ▸ .table hk ht h hu
  | function ht hp _ ih =>
    refine ((hp.closable.append hp ih).opened (Token.is_of_isWord ht)).imp ?_
    rintro _ stop - ⟨_, rfl, ts, us, rfl, hp, h⟩
    exact .function ht hp h
  | one _ _ ih => exact ih.imp fun hstop h => .one h hstop.is_eq_false
  | cons h ht _ ih ihr =>
    refine (ih.linked (.of_is ht) ihr).imp ?_
    rintro _ stop - ⟨_, rfl, hr⟩
    exact .cons h ht hr
  | noArguments ht hu =>
    exact .plain (by simp [Token.IsPlain.of_is ht, Token.IsPlain.of_is hu]) fun _ => .noArguments ht hu
  | arguments ht hs h hu ih =>
    exact (ih.bracketed (.of_is ht) (.of_is hu)).imp fun _ heq => heq ▸ .arguments ht hs h hu
  | keyed ht hk hu hv _ ihk ih =>
    refine ((ihk.linked (.of_is hu) (ih.behind (.of_is hv))).behind (.of_is ht)).imp ?_
    rintro _ stop - ⟨_, rfl, _, rfl, us, rfl, h⟩
    exact .keyed ht hk hu hv h
  | named ht hu _ ih =>
    refine ((ih.behind (.of_is hu)).behind (.of_isName ht)).imp ?_
    rintro _ stop - ⟨_, rfl, ts, rfl, h⟩
    exact .named ht hu h
  | positional hs hn h ih =>
    refine ⟨ih.solid, ih.loops, ih.level, ih.total, fun heof es stop hes => ?_⟩
    obtain ⟨t, ts, rfl⟩ := List.exists_cons_of_ne_nil (h.ne_nil rfl)
    refine .positional hs ?_ (ih.close heof es stop hes)
    cases ts with
    | nil => exact Bool.and_eq_false_iff.mpr (.inr hes.stops_headD.is_eq_false)
    | cons u ts => exact hn
  | fieldsEnd _ =>
    refine .nil fun hstop => .fieldsEnd ?_
    rcases hstop with heof | ⟨hinner, -⟩
    · simp [Token.closesFields, heof]
    · cases hinner
  | fieldsLast hs h _ _ ih =>
    refine ih.keep.outer.imp ?_
    rintro ws stop hstop ⟨hp, h'⟩
    exact .fieldsLast (by rwa [headD_of_startsWith hp (h.ne_nil rfl)]) h' hstop.is_eq_false hstop.is_eq_false
  | fieldsCons hs h ht _ ih ihr =>
    have hplain := ht.elim (fun ht => Token.IsPlain.of_is ht) fun ht => Token.IsPlain.of_is ht
    refine (ih.linked hplain ihr).imp ?_
    rintro _ stop - ⟨_, rfl, hr⟩
    exact .fieldsCons hs h ht hr
  | stmtsEnd _ => exact .nil fun hstop => .stmtsEnd hstop.closesBlock
  | stmtsSkip hs h _ ih ihr =>
    refine (ih.keep.append ⟨List.prefix_refl _, h⟩ ihr).imp ?_
    rintro _ stop - ⟨ts, us, rfl, ⟨hp, h'⟩, hr⟩
    exact .stmtsSkip (by rwa [headD_of_startsWith hp (h.ne_nil rfl)]) h' hr
  | stmtsCons hs h _ ih ihr =>
    refine (ih.keep.append ⟨List.prefix_refl _, h⟩ ihr).imp ?_
    rintro _ stop - ⟨ts, us, rfl, ⟨hp, h'⟩, hr⟩
    exact .stmtsCons (by rwa [headD_of_startsWith hp (h.ne_nil rfl)]) h' hr
  | block hd _ ih => exact ih.imp fun _ h => .block hd h
  | body h he ih =>
    have hend := Closable.maybe_end (by simpa [Token.closesBlock] using h.closesBlock_block) he
    refine (ih.append h hend).imp ?_
    rintro _ stop - ⟨_, _, rfl, h, he⟩
    exact .body h he
  | skip ht => exact .single (.of_is ht) fun _ => .skip ht
  | declare ht hm _ =>
    exact .plain (by simp [Token.IsPlain.of_is (Token.is_of_isWord ht), Token.IsPlain.of_isName hm])
      fun hstop => .declare ht hm hstop.is_eq_false
  | declareAs ht hm hu _ ih =>
    refine (((ih.behind (.of_is hu)).behind (.of_isName hm)).behind (.of_is (Token.is_of_isWord ht))).imp ?_
    rintro _ stop - ⟨_, rfl, _, rfl, ts, rfl, h⟩
    exact .declareAs ht hm hu h
  | localFunction ht hf hm hp _ ih =>
    have hrest := (hp.closable.append hp ih).behind (.of_isName hm)
    refine ((hrest.opened hf).behind (.of_is (Token.is_of_isWord ht))).imp ?_
    rintro _ stop - ⟨_, rfl, _, rfl, _, rfl, ts, us, rfl, hp, h⟩
    exact .localFunction ht hf hm hp h
  | define ht hm hs hp _ ih =>
    have hrest := hs.closable.append hs (hp.closable.append hp ih)
    refine ((hrest.behind (.of_isName hm)).opened (Token.is_of_isWord ht)).imp ?_
    rintro _ stop - ⟨_, rfl, _, rfl, ps, _, rfl, hs, ts, us, rfl, hp, h⟩
    exact .define ht hm hs hp h
  | conditional ht _ ih =>
    refine (ih.opened (Token.is_of_isWord ht)).imp ?_
    rintro _ stop - ⟨_, rfl, h⟩
    exact .conditional ht h
  | whileLoop ht hc hm _ ihc ih =>
    have hrest := ihc.append hc ((Closable.maybe_do hm).append hm ih)
    refine (hrest.looped (Token.is_of_isWord ht)).imp ?_
    rintro _ stop - ⟨_, rfl, ts, _, rfl, hc, us, vs, rfl, hm, h⟩
    exact .whileLoop ht hc hm h
  | noStep _ => exact .nil fun hstop => .noStep hstop.is_eq_false
  | step ht _ ih =>
    refine (ih.behind (.of_is ht)).imp ?_
    rintro _ stop - ⟨_, rfl, h⟩
    exact .step ht h
  | forLoop ht hm hu hf hv hl hs hw _ ihf ihl ihs ih =>
    have hrest := ihl.append hl (ihs.append hs ((Closable.maybe_do hw).append hw ih))
    have hrange := (ihf.linked (.of_is hv) hrest).behind (.of_is hu)
    refine ((hrange.behind (.of_isName hm)).looped (Token.is_of_isWord ht)).imp ?_
    rintro _ stop - ⟨_, rfl, _, rfl, _, rfl, _, rfl, us, _, rfl, hl, vs, _, rfl, hs, ws, xs, rfl, hw, h⟩
    exact .forLoop ht hm hu hf hv hl hs hw h
  | forEach ht hm he hn hu h hw _ ihe ih =>
    have hrest := ihe.append h ((Closable.maybe_do hw).append hw ih)
    have hiterator := (hn.closable.linked (.of_is hu) hrest).behind (.of_isName hm)
    refine (hiterator.looped (Token.is_of_isWord ht)).imp ?_
    rintro _ stop - ⟨_, rfl, _, rfl, _, rfl, us, _, rfl, h, vs, ws, rfl, hw, hb⟩
    exact .forEach ht hm he hn hu h hw hb
  | giveNothing ht hn hu =>
    refine ((Closable.maybe hu).behind (.of_is (Token.is_of_isWord ht))).imp ?_
    rintro _ stop hstop ⟨us, rfl, hu⟩
    refine .giveNothing ht ?_ hu
    rcases hu with ⟨u, hu, rfl⟩ | ⟨rfl, -⟩
    · simp [Token.closesReturn, Token.closesBlock, hu]
    · exact hstop.closesReturn
  | giveBack ht hs h hu ih =>
    refine ((ih.keep.append ⟨List.prefix_refl _, h⟩ (.maybe hu)).behind (.of_is (Token.is_of_isWord ht))).imp ?_
    rintro _ stop - ⟨_, rfl, ts, us, rfl, ⟨hp, h'⟩, hu⟩
    exact .giveBack ht (by rwa [headD_of_startsWith hp (h.ne_nil rfl)]) h' hu
  | leaveLoop ht => exact .single (.of_is (Token.is_of_isWord ht)) fun _ => .leaveLoop ht
  | evaluate hs hc h _ ih =>
    refine ih.keep.imp ?_
    rintro ws stop hstop ⟨hp, h'⟩
    rw [← headD_of_startsWith hp (h.ne_nil rfl) stop] at hs hc ⊢
    exact .evaluate hs hc h' hstop.assignOp?
  | assign hs hc h hu ha _ ih ihv =>
    refine (ih.linked (.of_assignOp? hu) ihv).imp ?_
    rintro _ stop - ⟨_, rfl, hv⟩
    exact .assign hs hc h hu ha hv
  | tailElseif hc hu hb ht _ ihc ihb ihr =>
    have hbranch := ihc.append hc ((Closable.maybe hu).append hu ihb)
    simp only [← List.append_assoc _ _ (_ :: _)]
    refine (hbranch.linked (.of_is ht) ihr).imp ?_
    rintro _ stop - ⟨ws, rfl, hr⟩
    simpa only [List.append_assoc] using Derives.tailElseif hc hu hb ht hr
  | tailElse hc hu hb ht _ ihc ihb ihr =>
    have hbranch := ihc.append hc ((Closable.maybe hu).append hu ihb)
    simp only [← List.append_assoc _ _ (_ :: _)]
    refine (hbranch.linked (.of_is ht) ihr).imp ?_
    rintro _ stop - ⟨ws, rfl, hr⟩
    simpa only [List.append_assoc] using Derives.tailElse hc hu hb ht hr
  | tailEnd hc hu hb hi he hw ihc ihb =>
    have hclose := hb.closesBlock_block
    simp only [Token.closesBlock, List.any_cons, List.any_nil, hi, he, Bool.false_or, Bool.or_false,
      Bool.or_eq_true] at hclose
    have hrest := (Closable.maybe hu).append hu (ihb.append hb (.maybe_end hclose hw))
    refine (ihc.append hc hrest).imp ?_
    rintro _ stop hstop ⟨ts, _, rfl, hc, us, _, rfl, hu, vs, ws, rfl, hb, hw⟩
    have hend := hw.stops_headD hstop
    exact .tailEnd hc hu hb hend.is_eq_false hend.is_eq_false hw

end Phrases

namespace Token

theorem weight_eq_keyword : ∀ s ∈ keywords, blockWeight s = loopWeight s +
      (if Balance.opening.contains s then 1 else 0) - (if Balance.closing.contains s then 1 else 0) ∧
    loopWeight s = (if s = "while" ∨ s = "for" then 1 else 0) - if s = "do" then 1 else 0 := by
  decide

theorem IsPlain.of_symbol {t : Token} (h : t.Legible) (hk : t.kind = .operator ∨ t.kind = .punctuation) :
    t.IsPlain := by
  have hlong : ∀ op ∈ Lexeme.longOperators,
      blockWeight (String.ofList op) = 0 ∧ loopWeight (String.ofList op) = 0 := by decide
  have hshort : ∀ s ∈ (Lexeme.shortOperators ++ Lexeme.marks).map (String.ofList [·]),
      blockWeight s = 0 ∧ loopWeight s = 0 := by decide
  have hsymbol : t.text.toList ∈ Lexeme.longOperators ∨
      ∃ c ∈ Lexeme.shortOperators ++ Lexeme.marks, t.text.toList = [c] := by
    unfold Legible at h
    rcases hk with hk | hk
    · rw [hk] at h
      apply h.imp_right
      rintro ⟨c, hc, htext⟩
      exact ⟨c, List.mem_append_left _ hc, htext⟩
    · rw [hk] at h
      obtain ⟨c, hc, htext⟩ := h
      exact .inr ⟨c, List.mem_append_right _ hc, htext⟩
  have hweight : blockWeight t.text = 0 ∧ loopWeight t.text = 0 := by
    rw [← String.ofList_toList (s := t.text)]
    rcases hsymbol with hop | ⟨c, hc, htext⟩
    · exact hlong _ hop
    · rw [htext]
      exact hshort _ (List.mem_map_of_mem hc)
  refine .of_is (is_iff.mpr ⟨.inr hk, rfl⟩) hweight.1 hweight.2

/-- The count of blocks by keywords differs from the parser's by the loops without `do`. -/
theorem Legible.worth_eq {t : Token} (h : t.Legible) :
    t.worth blockWeight =
      t.worth loopWeight + (if Balance.isOpener t then 1 else 0) - (if Balance.isCloser t then 1 else 0) ∧
    t.worth loopWeight = (if t.opensLoop then 1 else 0) - if t.isWord "do" then 1 else 0 := by
  cases hk : t.kind with
  | keyword =>
    have hword : t.text ∈ keywords := by
      unfold Legible at h
      rw [hk] at h
      simpa [Lexeme.Cut, isKeyword] using h.2
    have hworth (w : String → Int) : t.worth w = w t.text := if_pos (.inl hk)
    rw [hworth, hworth]
    simpa [Balance.isOpener, Balance.isCloser, opensLoop, isWord, hk] using weight_eq_keyword t.text hword
  | operator | punctuation =>
    have hplain := IsPlain.of_symbol h (by simp [hk])
    simp [hplain.blocks, hplain.loops, Balance.isOpener, Balance.isCloser, opensLoop, isWord, hk]
  | identifier | number | string | comment | eof =>
    simp [worth, Balance.isOpener, Balance.isCloser, opensLoop, isWord, hk]

end Token

theorem worth_eq {ts : List Token} (h : ∀ t ∈ ts, t.Legible) :
    worth blockWeight ts = worth loopWeight ts + ts.countP Balance.isOpener - ts.countP Balance.isCloser ∧
    worth loopWeight ts = ts.countP Token.opensLoop - ts.countP (·.isWord "do") := by
  induction ts with
  | nil => exact ⟨rfl, rfl⟩
  | cons t ts ih =>
    obtain ⟨ht, hts⟩ := List.forall_mem_cons.mp h
    obtain ⟨hblocks, hloops⟩ := ht.worth_eq
    obtain ⟨ihblocks, ihloops⟩ := ih hts
    have hcast (b : Bool) : ((if b = true then 1 else 0 : Nat) : Int) = if b = true then 1 else 0 := by cases b <;> rfl
    rw [worth_cons, worth_cons, hblocks, ihblocks, hloops, ihloops]
    simp only [List.countP_cons, Int.natCast_add, hcast]
    constructor <;> omega

/-- Comments have no part in the count of blocks. -/
theorem Balance.ofText_eq_tokenize (s : String) :
    ofText s = ⟨(tokenize s).countP isOpener, (tokenize s).countP isCloser⟩ := by
  have hkind {p : Token → Bool} (hp : ∀ t, p t = true → t.kind = .keyword) :
      (rawTokens s).countP p = (tokenize s).countP p := by
    rw [tokenize, List.countP_filter]
    refine List.countP_congr fun t _ => ⟨fun ht => ?_, fun ht => (Bool.and_eq_true_iff.mp ht).1⟩
    simp [ht, hp t ht]
  rw [ofText, hkind (by simp +contextual [isOpener]), hkind (by simp +contextual [isCloser])]

/-- The tokens of a text by what they do to its blocks. -/
theorem worth_tokenize (s : String) : ∃ ts line column, tokenize s = ts ++ [.endOfInput line column] ∧
    (∀ t ∈ ts, t.isEof = false) ∧
    worth blockWeight ts = worth loopWeight ts + (Balance.ofText s).openers - (Balance.ofText s).closers ∧
    worth loopWeight ts = (tokenize s).countP Token.opensLoop - (tokenize s).countP (·.isWord "do") := by
  obtain ⟨ts, line, column, hts, hlegible⟩ := tokenize_eq_append s 1
  have hend (p : Token → Bool) (hp : p (.endOfInput line column) = false) : (tokenize s).countP p = ts.countP p := by
    rw [hts, List.countP_append, List.countP_singleton, hp]
    rfl
  refine ⟨ts, line, column, hts, fun t ht => (hlegible t ht).isEof, ?_⟩
  rw [Balance.ofText_eq_tokenize, hend Balance.isOpener rfl, hend Balance.isCloser rfl, hend Token.opensLoop rfl,
    hend (·.isWord "do") rfl]
  exact worth_eq hlegible

/-- In a text that can be read, `do` stands in loops only, and more closers than openers are there only for loops that
leave their `do` out. -/
theorem Balance.surplus_add_le {s : String} {p : Program} (h : Program.parse (tokenize s) = .ok p) :
    (ofText s).surplus + (tokenize s).countP (·.isWord "do") ≤ (tokenize s).countP Token.opensLoop := by
  obtain ⟨ts, line, column, hts, hsolid, hblocks, hloops⟩ := worth_tokenize s
  rw [hts] at h
  have hclosable := (Program.derives_of_parse_append hsolid rfl h).closable
  have hlevel := hclosable.level
  have howed := hclosable.loops
  simp only [Phrase.fall, Int.natCast_zero, Int.add_zero] at hlevel howed
  rw [surplus]
  omega

/-- The only complaint about a text that can be read and whose loops have their `do` is that blocks are not closed. -/
theorem problems_of_parse {s : String} {p : Program} (h : Program.parse (tokenize s) = .ok p) :
    (Balance.ofText s).surplus ≤ (tokenize s).countP Token.opensLoop - (tokenize s).countP (·.isWord "do") ∧
    ((tokenize s).countP Token.opensLoop ≤ (tokenize s).countP (·.isWord "do") →
      (Balance.ofText s).surplus = 0 ∧
      problems s = if (Balance.ofText s).missing = 0 then []
        else [s!"{(Balance.ofText s).missing} block(s) not closed with 'end'"]) := by
  have hsurplus := Balance.surplus_add_le h
  refine ⟨by omega, fun hdo => ?_⟩
  have hzero : (Balance.ofText s).surplus = 0 := by omega
  refine ⟨hzero, ?_⟩
  rw [problems, h, Balance.describe?, hzero]
  by_cases hmissing : (Balance.ofText s).missing = 0
  · simp [hmissing]
  · simp [hmissing, Nat.pos_of_ne_zero hmissing]

theorem problems_of_parse_open_loop : ∃ p,
    Program.parse (tokenize "while a do if b then x() elseif c y()") = .ok p ∧
    problems "while a do if b then x() elseif c y()" = ["2 block(s) not closed with 'end'"] := by
  have hparse : Program.parse (tokenize "while a do if b then x() elseif c y()") =
      .ok [.mk 1 (.whileLoop (.identifier "a") [.mk 1 (.conditional (.identifier "b")
        [.mk 1 (.evaluate (.call (.identifier "x") []))] (some [.mk 1 (.conditional (.identifier "c")
          [.mk 1 (.evaluate (.call (.identifier "y") []))] none)]))])] := by decide +kernel
  have hloops : (tokenize "while a do if b then x() elseif c y()").countP Token.opensLoop ≤
      (tokenize "while a do if b then x() elseif c y()").countP (·.isWord "do") := by decide +kernel
  have hmissing : (Balance.ofText "while a do if b then x() elseif c y()").missing = 2 := by decide +kernel
  have hproblems := ((problems_of_parse hparse).2 hloops).2
  rw [hmissing] at hproblems
  exact ⟨_, hparse, hproblems⟩

/-- A loop without its `do` is read as a block, but not counted as one. -/
theorem problems_of_loop_without_do : (∃ p, Program.parse (tokenize "while a b() end") = .ok p) ∧
    (Balance.ofText "while a b() end").surplus = 1 ∧
    problems "while a b() end" = ["1 'end' without an opening block"] := by
  have hparse : Program.parse (tokenize "while a b() end") =
      .ok [.mk 1 (.whileLoop (.identifier "a") [.mk 1 (.evaluate (.call (.identifier "b") []))])] := by decide +kernel
  have hsurplus : (Balance.ofText "while a b() end").surplus = 1 := by decide +kernel
  have hproblems : problems "while a b() end" = ["1 'end' without an opening block"] := by
    rw [problems, hparse]
    decide +kernel
  exact ⟨⟨_, hparse⟩, hsurplus, hproblems⟩

end ScriptGraph
