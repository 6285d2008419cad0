import ScriptGraph.Proofs.HeaderSplit
import ScriptGraph.Proofs.Legible

namespace ScriptGraph

/-! The yield of a program: its names, literals and operators in the order in which they are written. -/

/-- What a token can bring into a program. -/
inductive Item where
  | name (text : String)
  | string (text : String) (quote : Char)
  | number (text : String)
  | operator (symbol : String)
  deriving DecidableEq, Repr

/-- The spellings of unary and binary operators. -/
def operatorSymbols : List String := BinaryOp.all.map BinaryOp.symbol ++ UnaryOp.all.map UnaryOp.symbol

/-- The item of a token. Keywords and signs that are no operators have none. -/
def Token.item? (t : Token) : Option Item :=
  match t.kind with
  | .identifier => some (.name t.text)
  | .string => t.quote.map (.string t.text)
  | .number => some (.number t.text)
  | .keyword | .operator => if t.text ∈ operatorSymbols then some (.operator t.text) else none
  | _ => none

/-- The items of a token list. -/
def itemsOf (ts : List Token) : List Item := ts.filterMap Token.item?

/-- The characters between the parts of a function name. -/
def joinsNames (c : Char) : Bool := c = '.' || c = ':'

/-- The names that a function name is put together from. -/
def nameItems (name : String) : List Item :=
  (name.toList.splitOnP joinsNames).map fun part => .name (String.ofList part)

def paramItems (params : List String) : List Item := (params.filter (· ≠ "...")).map .name

mutual

def Expr.items : Expr → List Item
  | .identifier name => [.name name]
  | .string value quote => [.string value quote]
  | .number text => [.number text]
  | .bool _ | .nil | .vararg => []
  | .binary op left right => left.items ++ .operator op.symbol :: right.items
  | .unary op operand => .operator op.symbol :: operand.items
  | .call callee args => callee.items ++ Expr.itemsAll args
  | .methodCall object method args => object.items ++ .name method :: Expr.itemsAll args
  | .member object property => object.items ++ [.name property]
  | .index object key => object.items ++ key.items
  | .table fields => TableField.itemsAll fields
  | .function params body => paramItems params ++ Stmt.itemsAll body

def Expr.itemsAll : List Expr → List Item
  | [] => []
  | e :: es => e.items ++ Expr.itemsAll es

def Expr.itemsOption : Option Expr → List Item
  | none => []
  | some e => e.items

def TableField.items : TableField → List Item
  | .named name value => .name name :: value.items
  | .keyed key value => key.items ++ value.items
  | .positional value => value.items

def TableField.itemsAll : List TableField → List Item
  | [] => []
  | f :: fs => f.items ++ TableField.itemsAll fs

def Action.items : Action → List Item
  | .declare name value => .name name :: Expr.itemsOption value
  | .assign target _ value => target.items ++ value.items
  | .define name params body _ _ => nameItems name ++ (paramItems params ++ Stmt.itemsAll body)
  | .conditional condition consequent alternate =>
    condition.items ++ (Stmt.itemsAll consequent ++ Stmt.itemsAlternate alternate)
  | .whileLoop condition body => condition.items ++ Stmt.itemsAll body
  | .forLoop counter first last step body =>
    .name counter :: (first.items ++ (last.items ++ (Expr.itemsOption step ++ Stmt.itemsAll body)))
  | .forEach names iterable body => names.map .name ++ (iterable.items ++ Stmt.itemsAll body)
  | .giveBack values => Expr.itemsAll values
  | .leaveLoop => []
  | .evaluate e => e.items

def Stmt.items : Stmt → List Item
  | .mk _ action => action.items

def Stmt.itemsAll : List Stmt → List Item
  | [] => []
  | s :: ss => s.items ++ Stmt.itemsAll ss

def Stmt.itemsAlternate : Option (List Stmt) → List Item
  | none => []
  | some ss => Stmt.itemsAll ss

end

def Program.items (p : Program) : List Item := Stmt.itemsAll p

@[simp] theorem itemsOf_nil : itemsOf [] = [] := rfl

@[simp] theorem itemsOf_append (ts us : List Token) : itemsOf (ts ++ us) = itemsOf ts ++ itemsOf us :=
  List.filterMap_append

theorem itemsOf_cons_some {t : Token} {i : Item} (h : t.item? = some i) (ts : List Token) :
    itemsOf (t :: ts) = i :: itemsOf ts := List.filterMap_cons_some h

theorem itemsOf_cons_none {t : Token} (h : t.item? = none) (ts : List Token) : itemsOf (t :: ts) = itemsOf ts :=
  List.filterMap_cons_none h

namespace Token

variable {t : Token} {s : String}

theorem item?_of_is (h : t.is s = true) (hs : s ∉ operatorSymbols := by decide) : t.item? = none := by
  obtain ⟨hkind, htext⟩ := is_iff.mp h
  rcases hkind with hk | hk | hk <;> simp [item?, hk, htext, hs]

theorem item?_of_isName (h : t.isName = true) : t.item? = some (.name t.text) := by
  simp [item?, isName_iff.mp h]

theorem notMem_operatorSymbols_of_marks : Lexeme.marks.Forall fun c => String.ofList [c] ∉ operatorSymbols := by
  decide +kernel

/-- No punctuation mark spells an operator. -/
theorem item?_of_symbol (hl : t.Legible) (h : t.is s = true) (hs : s ∈ operatorSymbols) :
    t.item? = some (.operator s) := by
  obtain ⟨hkind, htext⟩ := is_iff.mp h
  rcases hkind with hk | hk | hk
  · simp [item?, hk, htext, hs]
  · simp [item?, hk, htext, hs]
  · unfold Legible at hl
    rw [hk] at hl
    obtain ⟨c, hc, hcs⟩ := hl
    have hmark := List.forall_iff_forall_mem.mp notMem_operatorSymbols_of_marks c hc
    rw [← hcs, String.ofList_toList, htext] at hmark
    exact absurd hs hmark

theorem item?_of_binaryOp? {ops : List BinaryOp} {op : BinaryOp} (hl : t.Legible) (h : t.binaryOp? ops = some op) :
    t.item? = some (.operator op.symbol) := by
  have hall : op.symbol ∈ operatorSymbols := by cases op <;> decide
  exact item?_of_symbol hl (is_of_binaryOp? h).2 hall

theorem item?_of_unaryOp? {op : UnaryOp} (h : t.unaryOp? = some op) : t.item? = some (.operator op.symbol) := by
  have hall : op.symbol ∈ operatorSymbols := by cases op <;> decide
  unfold unaryOp? at h
  split at h
  case h_4 => cases h
  all_goals
    rename_i hk ht
    obtain rfl := Option.some.inj h
    simp only [item?, hk, ht]
    exact if_pos hall

theorem item?_of_assignOp? {op : AssignOp} (h : t.assignOp? = some op) : t.item? = none := by
  have hnone : op.symbol ∉ operatorSymbols := by cases op <;> decide
  exact item?_of_is (is_of_assignOp? h) hnone

theorem item?_of_string (hl : t.Legible) (h : t.kind = .string) :
    t.item? = some (.string t.text (t.quote.getD '"')) := by
  unfold Legible at hl
  rw [h] at hl
  obtain ⟨q, hq, -⟩ := hl
  simp [item?, h, hq]

end Token

section Itemless

variable {t : Token} {ts : List Token} {s : String}

theorem itemsOf_sign (h : t.is s = true) (hs : s ∉ operatorSymbols := by decide) : itemsOf (t :: ts) = itemsOf ts :=
  itemsOf_cons_none (Token.item?_of_is h hs) ts

theorem itemsOf_word (h : t.isWord s = true) (hs : s ∉ operatorSymbols := by decide) : itemsOf (t :: ts) = itemsOf ts :=
  itemsOf_sign (Token.is_of_isWord h) hs

theorem itemsOf_name (h : t.isName = true) : itemsOf (t :: ts) = .name t.text :: itemsOf ts :=
  itemsOf_cons_some (Token.item?_of_isName h) ts

end Itemless

section Names

variable {ts : List Token} {next : Token}

theorem IsName.notMem {s : String} (h : IsName s) {c : Char} (hc : Lexeme.isWordChar c = false) : c ∉ s.toList := by
  obtain ⟨d, ds, hs, hd, hds⟩ := h.1
  rw [hs]
  intro hmem
  have hword : Lexeme.isWordChar c = true := by
    rcases List.mem_cons.mp hmem with rfl | hmem
    · exact Lexeme.isWordChar_of_isLetter hd
    · exact List.all_eq_true.mp hds c hmem
  rw [hword] at hc
  cases hc

theorem paramItems_cons {s : String} (h : IsName s) (names : List String) :
    paramItems (s :: names) = .name s :: paramItems names := by
  have hs : s ≠ "..." := by
    rintro rfl
    exact h.notMem (c := '.') rfl (by decide)
  simp [paramItems, hs]

theorem ParamNames.itemsOf {names : List String} (h : ParamNames names ts next) (hl : ∀ t ∈ ts, t.Legible) :
    itemsOf ts = paramItems names := by
  induction h with
  | ellipsis ht => exact itemsOf_sign ht
  | last ht =>
    rw [itemsOf_name ht, paramItems_cons ((hl _ (by simp)).isName ht)]
    rfl
  | cons ht hu h ih =>
    simp only [List.forall_mem_cons] at hl
    rw [itemsOf_name ht, itemsOf_sign hu, ih hl.2.2, paramItems_cons (hl.1.isName ht)]

theorem Params.itemsOf {names : List String} (h : Params names ts next) (hl : ∀ t ∈ ts, t.Legible) :
    itemsOf ts = paramItems names := by
  cases h with
  | none ht hu =>
    rw [itemsOf_sign ht, itemsOf_sign hu]
    rfl
  | some ht hs h hu =>
    simp only [List.forall_mem_cons, List.forall_mem_append] at hl
    rw [itemsOf_sign ht, itemsOf_append, itemsOf_sign hu, itemsOf_nil, List.append_nil, h.itemsOf hl.2.1]

theorem nameItems_of_isName {s : String} (h : IsName s) : nameItems s = [.name s] := by
  have hsplit : s.toList.splitOnP joinsNames = [s.toList] := by
    apply List.splitOnP_eq_singleton
    intro c hc
    have hne (d : Char) (hd : Lexeme.isWordChar d = false) : c ≠ d := by
      rintro rfl
      exact h.notMem hd hc
    simp [joinsNames, hne '.' rfl, hne ':' rfl]
  simp [nameItems, hsplit]

/-- A name goes on with a dot or a colon and one more part. -/
theorem nameItems_append (s : String) {m : String} (h : IsName m) {c : Char} (hc : joinsNames c = true) :
    nameItems (s ++ String.singleton c ++ m) = nameItems s ++ [.name m] := by
  rw [← nameItems_of_isName h]
  simp only [nameItems, String.toList_append, String.toList_singleton, List.append_assoc, List.singleton_append]
  rw [List.splitOnP_append_cons _ _ hc, List.map_append]

theorem Path.itemsOf {part whole : String × Bool} (h : Path part whole ts next) (hl : ∀ t ∈ ts, t.Legible) :
    nameItems part.1 ++ itemsOf ts = nameItems whole.1 := by
  induction h with
  | done => exact List.append_nil _
  | @dot s _ t m _ ts ht hm h ih =>
    simp only [List.forall_mem_cons] at hl
    have hpart := nameItems_append s (hl.2.1.isName hm) (c := '.') rfl
    rw [itemsOf_sign ht, itemsOf_name hm, ← ih hl.2.2]
    exact (List.append_cons ..).trans (congrArg (· ++ ScriptGraph.itemsOf ts) hpart.symm)
  | @colon s _ t m _ ts ht hm h ih =>
    simp only [List.forall_mem_cons] at hl
    have hpart := nameItems_append s (hl.2.1.isName hm) (c := ':') rfl
    rw [itemsOf_sign ht, itemsOf_name hm, ← ih hl.2.2]
    exact (List.append_cons ..).trans (congrArg (· ++ ScriptGraph.itemsOf ts) hpart.symm)

theorem MoreNames.itemsOf {names : List String} (h : MoreNames names ts next) : itemsOf ts = names.map .name := by
  induction h with
  | done => rfl
  | cons ht hm h ih => rw [itemsOf_sign ht, itemsOf_name hm, ih, List.map_cons]

theorem Maybe.itemsOf {s : String} (h : Maybe s ts next) (hs : s ∉ operatorSymbols := by decide) : itemsOf ts = [] := by
  rcases h with ⟨t, ht, rfl⟩ | ⟨rfl, -⟩
  · exact itemsOf_sign ht hs
  · rfl

end Names

/-- These are the items of the phrase, or what it adds to those of what was read before it. -/
def Phrase.Yields (items : List Item) : Phrase → Prop
  | nested e | expr _ e => items = e.items
  | chain _ left whole | trail left whole => left.items ++ items = whole.items
  | exprs es | arguments es => items = Expr.itemsAll es
  | fields fs => items = TableField.itemsAll fs
  | field f => items = f.items
  | stmts _ ss | block _ ss | body ss => items = Stmt.itemsAll ss
  | stmt o => items = Stmt.itemsAll o.toList
  | step o => items = Expr.itemsOption o
  | tail _ s => items = s.items

/-- A statement yields what its action does. -/
theorem Phrase.yields_stmt {items : List Item} {line : Nat} {a : Action} :
    (stmt (some (.mk line a))).Yields items ↔ items = a.items := by
  simp only [Yields, Option.toList_some, Stmt.itemsAll, Stmt.items, List.append_nil]

/-- The tokens of a phrase yield its items. -/
theorem Derives.yields {free : Bool} {d : Nat} {ph : Phrase} {ts : List Token} {next : Token}
    (h : Derives free d ph ts next) (hl : ∀ t ∈ ts, t.Legible) : ph.Yields (itemsOf ts) := by
  -- Chains and trailers are read from the left, so their items are put behind those of the left operand.
  induction h with
  | nested _ _ ih | unaryEnd _ _ ih | concatEnd _ _ ih | powerEnd _ _ ih | block _ _ ih | positional _ _ _ ih =>
    exact ih hl
  | chainEnd | trailEnd => exact List.append_nil _
  | fieldsEnd | stmtsEnd | noStep => rfl
  | chained _ _ _ ih ihc | access _ _ ih ihc =>
    simp only [List.forall_mem_append] at hl
    rw [Phrase.Yields, itemsOf_append, ih hl.1, ihc hl.2]
  | chainStep ht _ _ _ ih ihc =>
    simp only [List.forall_mem_append, List.forall_mem_cons] at hl
    rw [Phrase.Yields, itemsOf_cons_some (Token.item?_of_binaryOp? hl.1 ht), itemsOf_append, ih hl.2.1, ← ihc hl.2.2,
      Expr.items, List.append_assoc, List.cons_append]
  | concat _ ht _ _ iha ihb | power _ ht _ _ iha ihb =>
    simp only [List.forall_mem_append, List.forall_mem_cons] at hl
    rw [Phrase.Yields, itemsOf_append, itemsOf_cons_some (Token.item?_of_symbol hl.2.1 ht (by decide)), iha hl.1,
      ihb hl.2.2, Expr.items, BinaryOp.symbol]
  | unary ht _ _ ih =>
    simp only [List.forall_mem_cons] at hl
    rw [Phrase.Yields, itemsOf_cons_some (Token.item?_of_unaryOp? ht), ih hl.2, Expr.items]
  | call _ _ _ ih ihr =>
    simp only [List.forall_mem_append] at hl
    rw [Phrase.Yields, itemsOf_append, ih hl.1, ← ihr hl.2, Expr.items, List.append_assoc]
  | methodCall _ ht hm _ _ ih ihr =>
    simp only [List.forall_mem_append, List.forall_mem_cons] at hl
    rw [Phrase.Yields, itemsOf_sign ht, itemsOf_name hm, itemsOf_append, ih hl.2.2.1, ← ihr hl.2.2.2, Expr.items,
      List.append_assoc, List.cons_append]
  | member _ ht hm _ ihr =>
    simp only [List.forall_mem_cons] at hl
    rw [Phrase.Yields, itemsOf_sign ht, itemsOf_name hm, ← ihr hl.2.2, Expr.items, List.append_assoc,
      List.singleton_append]
  | index _ ht _ hu _ ih ihr =>
    simp only [List.forall_mem_append, List.forall_mem_cons] at hl
    rw [Phrase.Yields, itemsOf_sign ht, itemsOf_append, itemsOf_sign hu, ih hl.2.1, ← ihr hl.2.2.2, Expr.items,
      List.append_assoc]
  | string ht => exact itemsOf_cons_some (Token.item?_of_string (hl _ List.mem_cons_self) ht) []
  | number ht => exact itemsOf_cons_some (by simp [Token.item?, ht]) []
  | identifier ht => exact itemsOf_name ht
  | trueWord ht | falseWord ht | nilWord ht => exact itemsOf_word ht
  | vararg hk ht => exact itemsOf_sign (Token.is_iff.mpr ⟨.inr (.inl hk), ht⟩)
  | parens hk ht _ hu ih =>
    simp only [List.forall_mem_append, List.forall_mem_cons] at hl
    rw [Phrase.Yields, itemsOf_sign (Token.is_iff.mpr ⟨.inr (.inr hk), ht⟩), itemsOf_append, ih hl.2.1,
      itemsOf_sign hu, itemsOf_nil, List.append_nil]
  | table hk ht _ hu ih =>
    simp only [List.forall_mem_append, List.forall_mem_cons] at hl
    rw [Phrase.Yields, itemsOf_sign (Token.is_iff.mpr ⟨.inr (.inr hk), ht⟩), itemsOf_append, ih hl.2.1,
      itemsOf_sign hu, itemsOf_nil, List.append_nil, Expr.items]
  | function ht hp _ ih =>
    simp only [List.forall_mem_append, List.forall_mem_cons] at hl
    rw [Phrase.Yields, itemsOf_word ht, itemsOf_append, hp.itemsOf hl.2.1, ih hl.2.2, Expr.items]
  | one _ _ ih =>
    rw [Phrase.Yields, ih hl, Expr.itemsAll, Expr.itemsAll, List.append_nil]
  | cons _ ht _ ih ihr =>
    simp only [List.forall_mem_append, List.forall_mem_cons] at hl
    rw [Phrase.Yields, itemsOf_append, itemsOf_sign ht, ih hl.1, ihr hl.2.2, Expr.itemsAll]
  | noArguments ht hu =>
    rw [Phrase.Yields, itemsOf_sign ht, itemsOf_sign hu, itemsOf_nil, Expr.itemsAll]
  | arguments ht _ _ hu ih =>
    simp only [List.forall_mem_append, List.forall_mem_cons] at hl
    rw [Phrase.Yields, itemsOf_sign ht, itemsOf_append, ih hl.2.1, itemsOf_sign hu, itemsOf_nil, List.append_nil]
  | keyed ht _ hu hv _ ihk ih =>
    simp only [List.forall_mem_append, List.forall_mem_cons] at hl
    rw [Phrase.Yields, itemsOf_sign ht, itemsOf_append, itemsOf_sign hu, itemsOf_sign hv, ihk hl.2.1, ih hl.2.2.2.2,
      TableField.items]
  | named ht hu _ ih =>
    simp only [List.forall_mem_cons] at hl
    rw [Phrase.Yields, itemsOf_name ht, itemsOf_sign hu, ih hl.2.2, TableField.items]
  | fieldsLast _ _ _ _ ih =>
    rw [Phrase.Yields, ih hl, TableField.itemsAll, TableField.itemsAll, List.append_nil]
  | fieldsCons _ _ ht _ ih ihr =>
    simp only [List.forall_mem_append, List.forall_mem_cons] at hl
    have hcomma := ht.elim (fun h => Token.item?_of_is h) (fun h => Token.item?_of_is h)
    rw [Phrase.Yields, itemsOf_append, itemsOf_cons_none hcomma, ih hl.1, ihr hl.2.2, TableField.itemsAll]
  | stmtsSkip _ _ _ ih ihr =>
    simp only [List.forall_mem_append] at hl
    rw [Phrase.Yields, itemsOf_append, ih hl.1, ihr hl.2, Option.toList_none, Stmt.itemsAll, List.nil_append]
  | stmtsCons _ _ _ ih ihr =>
    simp only [List.forall_mem_append] at hl
    rw [Phrase.Yields, itemsOf_append, ih hl.1, ihr hl.2, Option.toList_some, Stmt.itemsAll, Stmt.itemsAll,
      List.append_nil, Stmt.itemsAll]
  | body _ he ih =>
    simp only [List.forall_mem_append] at hl
    rw [Phrase.Yields, itemsOf_append, ih hl.1, he.itemsOf, List.append_nil]
  | skip ht => exact itemsOf_sign ht
  | declare ht hm _ =>
    rw [Phrase.yields_stmt, itemsOf_word ht, itemsOf_name hm, itemsOf_nil, Action.items, Expr.itemsOption]
  | declareAs ht hm hu _ ih =>
    simp only [List.forall_mem_cons] at hl
    rw [Phrase.yields_stmt, itemsOf_word ht, itemsOf_name hm, itemsOf_sign hu, ih hl.2.2.2, Action.items,
      Expr.itemsOption]
  | localFunction ht hf hm hp _ ih =>
    simp only [List.forall_mem_append, List.forall_mem_cons] at hl
    rw [Phrase.yields_stmt, itemsOf_word ht, itemsOf_sign hf, itemsOf_name hm, itemsOf_append,
      hp.itemsOf hl.2.2.2.1, ih hl.2.2.2.2, Action.items, nameItems_of_isName (hl.2.2.1.isName hm),
      List.singleton_append]
  | define ht hm hs hp _ ih =>
    simp only [List.forall_mem_append, List.forall_mem_cons] at hl
    have hname := hs.itemsOf hl.2.2.1
    rw [nameItems_of_isName (hl.2.1.isName hm), List.singleton_append] at hname
    rw [Phrase.yields_stmt, itemsOf_word ht, itemsOf_name hm, itemsOf_append, itemsOf_append,
      hp.itemsOf hl.2.2.2.1, ih hl.2.2.2.2, Action.items, ← hname, List.cons_append]
  | conditional ht _ ih =>
    simp only [List.forall_mem_cons] at hl
    rw [Phrase.Yields, itemsOf_word ht, ih hl.2, Option.toList_some, Stmt.itemsAll, Stmt.itemsAll, List.append_nil]
  | whileLoop ht _ hm _ ihc ih =>
    simp only [List.forall_mem_append, List.forall_mem_cons] at hl
    rw [Phrase.yields_stmt, itemsOf_word ht, itemsOf_append, itemsOf_append, hm.itemsOf, ihc hl.2.1, ih hl.2.2.2,
      List.nil_append, Action.items]
  | step ht _ ih =>
    simp only [List.forall_mem_cons] at hl
    rw [Phrase.Yields, itemsOf_sign ht, ih hl.2, Expr.itemsOption]
  | forLoop ht hm hu _ hv _ _ hw _ ihf ihl ihs ih =>
    simp only [List.forall_mem_append, List.forall_mem_cons] at hl
    rw [Phrase.yields_stmt, itemsOf_word ht, itemsOf_name hm, itemsOf_sign hu, itemsOf_append, itemsOf_sign hv,
      itemsOf_append, itemsOf_append, itemsOf_append, hw.itemsOf, ihf hl.2.2.2.1, ihl hl.2.2.2.2.2.1,
      ihs hl.2.2.2.2.2.2.1, ih hl.2.2.2.2.2.2.2.2, List.nil_append, Action.items]
  | forEach ht hm _ hn hu _ hw _ ihe ih =>
    simp only [List.forall_mem_append, List.forall_mem_cons] at hl
    rw [Phrase.yields_stmt, itemsOf_word ht, itemsOf_name hm, itemsOf_append, itemsOf_sign hu, itemsOf_append,
      itemsOf_append, hn.itemsOf, hw.itemsOf, ihe hl.2.2.2.2.1, ih hl.2.2.2.2.2.2, List.nil_append, Action.items,
      List.map_cons, List.cons_append]
  | giveNothing ht _ hu =>
    rw [Phrase.yields_stmt, itemsOf_word ht, hu.itemsOf, Action.items, Expr.itemsAll]
  | giveBack ht _ _ hu ih =>
    simp only [List.forall_mem_append, List.forall_mem_cons] at hl
    rw [Phrase.yields_stmt, itemsOf_word ht, itemsOf_append, hu.itemsOf, ih hl.2.1, List.append_nil, Action.items]
  | leaveLoop ht =>
    rw [Phrase.yields_stmt, itemsOf_word ht, itemsOf_nil, Action.items]
  | evaluate _ _ _ _ ih =>
    rw [Phrase.yields_stmt, ih hl, Action.items]
  | assign _ _ _ hu _ _ iht ihv =>
    simp only [List.forall_mem_append, List.forall_mem_cons] at hl
    rw [Phrase.yields_stmt, itemsOf_append, itemsOf_cons_none (Token.item?_of_assignOp? hu), iht hl.1, ihv hl.2.2,
      Action.items]
  | tailElseif _ hu _ ht _ ihc ihb ihr =>
    simp only [List.forall_mem_append, List.forall_mem_cons] at hl
    rw [Phrase.Yields, itemsOf_append, itemsOf_append, itemsOf_append, itemsOf_sign ht, hu.itemsOf, ihc hl.1,
      ihb hl.2.2.1, ihr hl.2.2.2.2, List.nil_append, Stmt.items, Action.items, Stmt.itemsAlternate, Stmt.itemsAll,
      Stmt.itemsAll, List.append_nil]
  | tailElse _ hu _ ht _ ihc ihb ihr =>
    simp only [List.forall_mem_append, List.forall_mem_cons] at hl
    rw [Phrase.Yields, itemsOf_append, itemsOf_append, itemsOf_append, itemsOf_sign ht, hu.itemsOf, ihc hl.1,
      ihb hl.2.2.1, ihr hl.2.2.2.2, List.nil_append, Stmt.items, Action.items, Stmt.itemsAlternate]
  | tailEnd _ hu _ _ _ hw ihc ihb =>
    simp only [List.forall_mem_append] at hl
    rw [Phrase.Yields, itemsOf_append, itemsOf_append, itemsOf_append, hu.itemsOf, hw.itemsOf, ihc hl.1, ihb hl.2.2.1,
      List.nil_append, Stmt.items, Action.items, Stmt.itemsAlternate]

/-- A text that can be read loses nothing in its program: the names, literals and operators among its tokens are those
of the program, in the same order. -/
theorem Program.items_of_parse {s : String} {firstLine : Nat} {p : Program}
    (h : Program.parse (tokenize s firstLine) = .ok p) : itemsOf (tokenize s firstLine) = Program.items p := by
  obtain ⟨ts, line, column, hts, hlegible⟩ := tokenize_eq_append s firstLine
  rw [hts] at h ⊢
  have hderives := Program.derives_of_parse_append (fun t ht => (hlegible t ht).isEof) rfl h
  have hend : itemsOf [.endOfInput line column] = [] := rfl
  rw [itemsOf_append, hend, List.append_nil]
  exact hderives.yields hlegible

theorem Program.items_of_parse_method : ∃ p,
    Program.parse (tokenize "function a.b:c(x, ...) x.y = -x .. 'z' end") = .ok p ∧
    Program.items p = [.name "a", .name "b", .name "c", .name "x", .name "x", .name "y", .operator "-", .name "x",
      .operator "..", .string "z" '\''] := by
  have hparse : Program.parse (tokenize "function a.b:c(x, ...) x.y = -x .. 'z' end") =
      .ok [.mk 1 (.define "a.b:c" ["x", "..."] [.mk 1 (.assign (.member (.identifier "x") "y") .set
        (.binary .concat (.unary .neg (.identifier "x")) (.string "z" '\'')))] false true)] := by decide +kernel
  have hitems : itemsOf (tokenize "function a.b:c(x, ...) x.y = -x .. 'z' end") = [.name "a", .name "b", .name "c",
      .name "x", .name "x", .name "y", .operator "-", .name "x", .operator "..", .string "z" '\''] := by decide +kernel
  exact ⟨_, hparse, (Program.items_of_parse hparse).symm.trans hitems⟩

end ScriptGraph
