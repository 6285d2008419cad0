import ScriptGraph.Program.Parser

theorem List.headD_append {α : Type} (as bs : List α) (a : α) :
    (as ++ bs).headD a = as.headD (bs.headD a) := by
  cases as <;> rfl

namespace ScriptGraph

namespace Token

/-- Is the token the keyword `word`? -/
def isWord (t : Token) (word : String) : Bool := t.kind == .keyword && t.text == word

def isName (t : Token) : Bool := t.kind == .identifier

def binaryOp? (t : Token) (ops : List BinaryOp) : Option BinaryOp := ops.find? fun op => t.is op.symbol

def assignOp? (t : Token) : Option AssignOp := AssignOp.all.find? fun op => t.is op.symbol

def unaryOp? (t : Token) : Option UnaryOp :=
  match t.kind, t.text with
  | .keyword, "not" => some .not
  | .operator, "-" => some .neg
  | .operator, "#" => some .len
  | _, _ => none

/-- Does the token start a call or an access? -/
def opensTrailer (t : Token) : Bool := ["(", ":", ".", "["].any t.is

/-- The keyword that the token is. -/
def keyword? (t : Token) : Option String := if t.kind = .keyword then some t.text else none

/-- Does the token start a statement of its own kind? -/
def opensStatement (t : Token) : Bool :=
  t.keyword?.any ["local", "function", "if", "while", "for", "return", "break"].contains

/-- Does the token end a list of table fields? -/
def closesFields (t : Token) : Bool := t.is "\x7d" || t.isEof

/-- Does the token end a block with these closers? -/
def closesBlock (t : Token) (stops : List String) : Bool := t.isEof || stops.any t.is

/-- Does the token show that a return has no values? -/
def closesReturn (t : Token) : Bool := t.closesBlock ["end", "else", "elseif", "until", ";"]

theorem is_iff {t : Token} {s : String} : t.is s = true ↔
    (t.kind = .keyword ∨ t.kind = .operator ∨ t.kind = .punctuation) ∧ t.text = s := by
  simp [Token.is, or_assoc]

theorem isWord_iff {t : Token} {s : String} : t.isWord s = true ↔ t.kind = .keyword ∧ t.text = s := by
  simp [isWord]

theorem keyword?_eq_some {t : Token} {s : String} : t.keyword? = some s ↔ t.isWord s = true := by
  rw [isWord_iff]
  unfold keyword?
  split <;> simp_all

theorem isName_iff {t : Token} : t.isName = true ↔ t.kind = .identifier := by
  simp [isName]

theorem is_of_isWord {t : Token} {s : String} (h : t.isWord s = true) : t.is s = true := by
  rw [isWord_iff] at h
  exact is_iff.mpr ⟨.inl h.1, h.2⟩

theorem is_eq_false {t : Token} {s r : String} (h : t.is s = true) (hne : s ≠ r) : t.is r = false := by
  rw [Bool.eq_false_iff]
  intro hr
  exact hne ((is_iff.mp h).2.symm.trans (is_iff.mp hr).2)

theorem is_eq_false_of_isName {t : Token} (h : t.isName = true) (s : String) : t.is s = false := by
  simp [Token.is, isName_iff.mp h]

theorem isEof_of_is {t : Token} {s : String} (h : t.is s = true) : t.isEof = false := by
  have := (is_iff.mp h).1
  rcases this with hk | hk | hk <;> simp [isEof, hk]

theorem isEof_of_isName {t : Token} (h : t.isName = true) : t.isEof = false := by
  simp [isEof, isName_iff.mp h]

theorem is_of_isEof {t : Token} (h : t.isEof = true) (s : String) : t.is s = false := by
  cases hs : t.is s with
  | false => rfl
  | true => simp [isEof_of_is hs] at h

theorem isEof_of_unaryOp? {t : Token} {op : UnaryOp} (h : t.unaryOp? = some op) : t.isEof = false := by
  unfold unaryOp? at h
  split at h <;> simp_all [isEof]

theorem is_of_binaryOp? {t : Token} {ops : List BinaryOp} {op : BinaryOp} (h : t.binaryOp? ops = some op) :
    op ∈ ops ∧ t.is op.symbol = true :=
  ⟨List.mem_of_find?_eq_some h, by simpa using List.find?_some h⟩

theorem is_of_assignOp? {t : Token} {op : AssignOp} (h : t.assignOp? = some op) : t.is op.symbol = true := by
  simpa using List.find?_some h

end Token

/-- The levels of expressions, from the loosest operators to the parts that need none. -/
inductive Level where
  | or | and | comparison | concat | sum | product | unary | power | access | primary
  deriving DecidableEq, Repr

namespace Level

/-- The level of the operands. -/
def below : Level → Level
  | or => and | and => comparison | comparison => concat | concat => sum | sum => product
  | product => unary | unary => power | power => access | access => primary | primary => primary

/-- The operators that a level groups to the left. -/
def ops : Level → List BinaryOp
  | or => [.or]
  | and => [.and]
  | comparison => [.eq, .ne, .lt, .gt, .le, .ge]
  | sum => [.add, .sub]
  | product => [.mul, .div, .floorDiv, .mod]
  | _ => []

def isChain : Level → Bool
  | or | and | comparison | sum | product => true
  | _ => false

end Level

/-- A token that may be left out. -/
def Maybe (text : String) (ts : List Token) (next : Token) : Prop :=
  (∃ t, t.is text = true ∧ ts = [t]) ∨ (ts = [] ∧ next.is text = false)

/-- Parameters between their parentheses. -/
inductive ParamNames : List String → List Token → Token → Prop
  | ellipsis {t next : Token} (ht : t.is "..." = true) : ParamNames ["..."] [t] next
  | last {t next : Token} (ht : t.isName = true) (hn : next.is "," = false) : ParamNames [t.text] [t] next
  | cons {t u next : Token} {names : List String} {ts : List Token} (ht : t.isName = true)
      (hu : u.is "," = true) (h : ParamNames names ts next) : ParamNames (t.text :: names) (t :: u :: ts) next

inductive Params : List String → List Token → Token → Prop
  | none {t u next : Token} (ht : t.is "(" = true) (hu : u.is ")" = true) : Params [] [t, u] next
  | some {t u next : Token} {names : List String} {ts : List Token} (ht : t.is "(" = true)
      (hs : (ts.headD u).is ")" = false) (h : ParamNames names ts u) (hu : u.is ")" = true) :
      Params names (t :: (ts ++ [u])) next

/-- The rest of a function name, from the part that was read to the whole. -/
inductive Path : String × Bool → String × Bool → List Token → Token → Prop
  | done {s : String} {isMethod : Bool} {next : Token}
      (h : isMethod = true ∨ next.is "." = false ∧ next.is ":" = false) :
      Path (s, isMethod) (s, isMethod) [] next
  | dot {s : String} {whole : String × Bool} {t m next : Token} {ts : List Token} (ht : t.is "." = true)
      (hm : m.isName = true) (h : Path (s ++ "." ++ m.text, false) whole ts next) :
      Path (s, false) whole (t :: m :: ts) next
  | colon {s : String} {whole : String × Bool} {t m next : Token} {ts : List Token} (ht : t.is ":" = true)
      (hm : m.isName = true) (h : Path (s ++ ":" ++ m.text, true) whole ts next) :
      Path (s, false) whole (t :: m :: ts) next

/-- The names behind the first one of a loop over an iterator. -/
inductive MoreNames : List String → List Token → Token → Prop
  | done {next : Token} (h : next.is "," = false) : MoreNames [] [] next
  | cons {t m next : Token} {names : List String} {ts : List Token} (ht : t.is "," = true)
      (hm : m.isName = true) (h : MoreNames names ts next) : MoreNames (m.text :: names) (t :: m :: ts) next

/-- What a stretch of tokens can stand for. -/
inductive Phrase where
  /-- an expression one level down -/
  | nested (e : Expr)
  | expr (k : Level) (e : Expr)
  /-- the rest of a chain of operators, from its left operand to the whole -/
  | chain (k : Level) (left whole : Expr)
  /-- calls and accesses, from what they are applied to, to the whole -/
  | trail (left whole : Expr)
  | exprs (es : List Expr)
  | arguments (es : List Expr)
  | fields (fs : List TableField)
  | field (f : TableField)
  | stmts (stops : List String) (ss : List Stmt)
  /-- statements one level down -/
  | block (stops : List String) (ss : List Stmt)
  /-- a block and its `end` -/
  | body (ss : List Stmt)
  /-- one statement, or none for a semicolon -/
  | stmt (o : Option Stmt)
  /-- the optional step of a counting loop -/
  | step (o : Option Expr)
  /-- a conditional behind its keyword, which stands on this line -/
  | tail (line : Nat) (s : Stmt)

/-- Is there a level left below depth `d`? With `free` there always is. -/
def Fits (free : Bool) (d : Nat) : Prop := free = true ∨ d < maxDepth

/-- The tokens stand for the phrase at depth `d`, with `next` behind them. Each rule asks of the next
token what the parser asks of it, so there is one reading at most. -/
inductive Derives (free : Bool) : Nat → Phrase → List Token → Token → Prop
  -- operators
  | nested {d : Nat} {e : Expr} {ts : List Token} {next : Token} (hd : Fits free d)
      (h : Derives free (d + 1) (.expr .or e) ts next) : Derives free d (.nested e) ts next
  | chained {d : Nat} {k : Level} {a e : Expr} {ts us : List Token} {next : Token} (hk : k.isChain = true)
      (h : Derives free d (.expr k.below a) ts (us.headD next)) (hc : Derives free d (.chain k a e) us next) :
      Derives free d (.expr k e) (ts ++ us) next
  | chainEnd {d : Nat} {k : Level} {a : Expr} {next : Token} (h : next.binaryOp? k.ops = none) :
      Derives free d (.chain k a a) [] next
  | chainStep {d : Nat} {k : Level} {a b e : Expr} {op : BinaryOp} {ts us : List Token} {t next : Token}
      (ht : t.binaryOp? k.ops = some op) (hd : Fits free d)
      (h : Derives free (d + 1) (.expr k.below b) ts (us.headD next))
      (hc : Derives free (d + 1) (.chain k (.binary op a b) e) us next) :
      Derives free d (.chain k a e) (t :: (ts ++ us)) next
  | concatEnd {d : Nat} {e : Expr} {ts : List Token} {next : Token}
      (h : Derives free d (.expr .sum e) ts next) (hn : next.is ".." = false) :
      Derives free d (.expr .concat e) ts next
  | concat {d : Nat} {a b : Expr} {ts us : List Token} {t next : Token}
      (h : Derives free d (.expr .sum a) ts t) (ht : t.is ".." = true) (hd : Fits free d)
      (hr : Derives free (d + 1) (.expr .concat b) us next) :
      Derives free d (.expr .concat (.binary .concat a b)) (ts ++ t :: us) next
  | unary {d : Nat} {op : UnaryOp} {e : Expr} {ts : List Token} {t next : Token}
      (ht : t.unaryOp? = some op) (hd : Fits free d) (h : Derives free (d + 1) (.expr .unary e) ts next) :
      Derives free d (.expr .unary (.unary op e)) (t :: ts) next
  | unaryEnd {d : Nat} {e : Expr} {ts : List Token} {next : Token} (hs : (ts.headD next).unaryOp? = none)
      (h : Derives free d (.expr .power e) ts next) : Derives free d (.expr .unary e) ts next
  | powerEnd {d : Nat} {e : Expr} {ts : List Token} {next : Token}
      (h : Derives free d (.expr .access e) ts next) (hn : next.is "^" = false) :
      Derives free d (.expr .power e) ts next
  | power {d : Nat} {a b : Expr} {ts us : List Token} {t next : Token}
      (h : Derives free d (.expr .access a) ts t) (ht : t.is "^" = true) (hd : Fits free d)
      (hr : Derives free (d + 1) (.expr .unary b) us next) :
      Derives free d (.expr .power (.binary .pow a b)) (ts ++ t :: us) next
  -- calls and accesses
  | access {d : Nat} {a e : Expr} {ts us : List Token} {next : Token}
      (h : Derives free d (.expr .primary a) ts (us.headD next)) (ht : Derives free d (.trail a e) us next) :
      Derives free d (.expr .access e) (ts ++ us) next
  | trailEnd {d : Nat} {a : Expr} {next : Token} (h : next.opensTrailer = false) :
      Derives free d (.trail a a) [] next
  | call {d : Nat} {a e : Expr} {es : List Expr} {ts us : List Token} {next : Token} (hd : Fits free d)
      (h : Derives free (d + 1) (.arguments es) ts (us.headD next))
      (hr : Derives free (d + 1) (.trail (.call a es) e) us next) :
      Derives free d (.trail a e) (ts ++ us) next
  | methodCall {d : Nat} {a e : Expr} {es : List Expr} {ts us : List Token} {t m next : Token}
      (hd : Fits free d) (ht : t.is ":" = true) (hm : m.isName = true)
      (h : Derives free (d + 1) (.arguments es) ts (us.headD next))
      (hr : Derives free (d + 1) (.trail (.methodCall a m.text es) e) us next) :
      Derives free d (.trail a e) (t :: m :: (ts ++ us)) next
  | member {d : Nat} {a e : Expr} {us : List Token} {t m next : Token}
      (hd : Fits free d) (ht : t.is "." = true) (hm : m.isName = true)
      (hr : Derives free (d + 1) (.trail (.member a m.text) e) us next) :
      Derives free d (.trail a e) (t :: m :: us) next
  | index {d : Nat} {a key e : Expr} {ts us : List Token} {t u next : Token} (hd : Fits free d)
      (ht : t.is "[" = true) (h : Derives free (d + 1) (.nested key) ts u) (hu : u.is "]" = true)
      (hr : Derives free (d + 1) (.trail (.index a key) e) us next) :
      Derives free d (.trail a e) (t :: (ts ++ u :: us)) next
  -- primary expressions
  | string {d : Nat} {t next : Token} (ht : t.kind = .string) :
      Derives free d (.expr .primary (.string t.text (t.quote.getD '"'))) [t] next
  | number {d : Nat} {t next : Token} (ht : t.kind = .number) :
      Derives free d (.expr .primary (.number t.text)) [t] next
  | identifier {d : Nat} {t next : Token} (ht : t.isName = true) :
      Derives free d (.expr .primary (.identifier t.text)) [t] next
  | trueWord {d : Nat} {t next : Token} (ht : t.isWord "true" = true) :
      Derives free d (.expr .primary (.bool true)) [t] next
  | falseWord {d : Nat} {t next : Token} (ht : t.isWord "false" = true) :
      Derives free d (.expr .primary (.bool false)) [t] next
  | nilWord {d : Nat} {t next : Token} (ht : t.isWord "nil" = true) : Derives free d (.expr .primary .nil) [t] next
  | vararg {d : Nat} {t next : Token} (hk : t.kind = .operator) (ht : t.text = "...") :
      Derives free d (.expr .primary .vararg) [t] next
  | parens {d : Nat} {e : Expr} {ts : List Token} {t u next : Token} (hk : t.kind = .punctuation)
      (ht : t.text = "(") (h : Derives free d (.nested e) ts u) (hu : u.is ")" = true) :
      Derives free d (.expr .primary e) (t :: (ts ++ [u])) next
  | table {d : Nat} {fs : List TableField} {ts : List Token} {t u next : Token} (hk : t.kind = .punctuation)
      (ht : t.text = "\x7b") (h : Derives free d (.fields fs) ts u) (hu : u.is "\x7d" = true) :
      Derives free d (.expr .primary (.table fs)) (t :: (ts ++ [u])) next
  | function {d : Nat} {names : List String} {ss : List Stmt} {ts us : List Token} {t next : Token}
      (ht : t.isWord "function" = true) (hp : Params names ts (us.headD next))
      (hb : Derives free d (.body ss) us next) :
      Derives free d (.expr .primary (.function names ss)) (t :: (ts ++ us)) next
  -- lists of expressions and fields
  | one {d : Nat} {e : Expr} {ts : List Token} {next : Token} (h : Derives free d (.nested e) ts next)
      (hn : next.is "," = false) : Derives free d (.exprs [e]) ts next
  | cons {d : Nat} {e : Expr} {es : List Expr} {ts us : List Token} {t next : Token}
      (h : Derives free d (.nested e) ts t) (ht : t.is "," = true) (hr : Derives free d (.exprs es) us next) :
      Derives free d (.exprs (e :: es)) (ts ++ t :: us) next
  | noArguments {d : Nat} {t u next : Token} (ht : t.is "(" = true) (hu : u.is ")" = true) :
      Derives free d (.arguments []) [t, u] next
  | arguments {d : Nat} {es : List Expr} {ts : List Token} {t u next : Token} (ht : t.is "(" = true)
      (hs : (ts.headD u).is ")" = false) (h : Derives free d (.exprs es) ts u) (hu : u.is ")" = true) :
      Derives free d (.arguments es) (t :: (ts ++ [u])) next
  | keyed {d : Nat} {key value : Expr} {ts us : List Token} {t u v next : Token} (ht : t.is "[" = true)
      (hk : Derives free d (.nested key) ts u) (hu : u.is "]" = true) (hv : v.is "=" = true)
      (h : Derives free d (.nested value) us next) :
      Derives free d (.field (.keyed key value)) (t :: (ts ++ u :: v :: us)) next
  | named {d : Nat} {value : Expr} {ts : List Token} {t u next : Token} (ht : t.isName = true)
      (hu : u.is "=" = true) (h : Derives free d (.nested value) ts next) :
      Derives free d (.field (.named t.text value)) (t :: u :: ts) next
  | positional {d : Nat} {value : Expr} {ts : List Token} {next : Token}
      (hs : (ts.headD next).is "[" = false)
      (hn : ((ts.headD next).isName && (ts.tail.headD next).is "=") = false)
      (h : Derives free d (.nested value) ts next) : Derives free d (.field (.positional value)) ts next
  | fieldsEnd {d : Nat} {next : Token} (h : next.closesFields = true) : Derives free d (.fields []) [] next
  | fieldsLast {d : Nat} {f : TableField} {ts : List Token} {next : Token}
      (hs : (ts.headD next).closesFields = false) (h : Derives free d (.field f) ts next)
      (hc : next.is "," = false) (hn : next.is ";" = false) : Derives free d (.fields [f]) ts next
  | fieldsCons {d : Nat} {f : TableField} {fs : List TableField} {ts us : List Token} {t next : Token}
      (hs : (ts.headD t).closesFields = false) (h : Derives free d (.field f) ts t)
      (ht : t.is "," = true ∨ t.is ";" = true) (hr : Derives free d (.fields fs) us next) :
      Derives free d (.fields (f :: fs)) (ts ++ t :: us) next
  -- statements
  | stmtsEnd {d : Nat} {stops : List String} {next : Token} (h : next.closesBlock stops = true) :
      Derives free d (.stmts stops []) [] next
  | stmtsSkip {d : Nat} {stops : List String} {ss : List Stmt} {ts us : List Token} {next : Token}
      (hs : (ts.headD (us.headD next)).closesBlock stops = false)
      (h : Derives free d (.stmt none) ts (us.headD next)) (hr : Derives free d (.stmts stops ss) us next) :
      Derives free d (.stmts stops ss) (ts ++ us) next
  | stmtsCons {d : Nat} {stops : List String} {s : Stmt} {ss : List Stmt} {ts us : List Token} {next : Token}
      (hs : (ts.headD (us.headD next)).closesBlock stops = false)
      (h : Derives free d (.stmt (some s)) ts (us.headD next)) (hr : Derives free d (.stmts stops ss) us next) :
      Derives free d (.stmts stops (s :: ss)) (ts ++ us) next
  | block {d : Nat} {stops : List String} {ss : List Stmt} {ts : List Token} {next : Token}
      (hd : Fits free d) (h : Derives free (d + 1) (.stmts stops ss) ts next) :
      Derives free d (.block stops ss) ts next
  | body {d : Nat} {ss : List Stmt} {ts us : List Token} {next : Token}
      (h : Derives free d (.block ["end"] ss) ts (us.headD next)) (he : Maybe "end" us next) :
      Derives free d (.body ss) (ts ++ us) next
  | skip {d : Nat} {t next : Token} (ht : t.is ";" = true) : Derives free d (.stmt none) [t] next
  | declare {d : Nat} {t m next : Token} (ht : t.isWord "local" = true) (hm : m.isName = true)
      (hn : next.is "=" = false) : Derives free d (.stmt (some (.mk t.line (.declare m.text none)))) [t, m] next
  | declareAs {d : Nat} {e : Expr} {ts : List Token} {t m u next : Token} (ht : t.isWord "local" = true)
      (hm : m.isName = true) (hu : u.is "=" = true) (h : Derives free d (.nested e) ts next) :
      Derives free d (.stmt (some (.mk t.line (.declare m.text (some e))))) (t :: m :: u :: ts) next
  | localFunction {d : Nat} {names : List String} {ss : List Stmt} {ts us : List Token} {t f m next : Token}
      (ht : t.isWord "local" = true) (hf : f.is "function" = true) (hm : m.isName = true)
      (hp : Params names ts (us.headD next)) (hb : Derives free d (.body ss) us next) :
      Derives free d (.stmt (some (.mk t.line (.define m.text names ss true false))))
        (t :: f :: m :: (ts ++ us)) next
  | define {d : Nat} {s : String} {isMethod : Bool} {names : List String} {ss : List Stmt}
      {ps ts us : List Token} {t m next : Token} (ht : t.isWord "function" = true) (hm : m.isName = true)
      (hs : Path (m.text, false) (s, isMethod) ps ((ts ++ us).headD next))
      (hp : Params names ts (us.headD next)) (hb : Derives free d (.body ss) us next) :
      Derives free d (.stmt (some (.mk t.line (.define s names ss false isMethod))))
        (t :: m :: (ps ++ (ts ++ us))) next
  | conditional {d : Nat} {s : Stmt} {ts : List Token} {t next : Token} (ht : t.isWord "if" = true)
      (h : Derives free d (.tail t.line s) ts next) : Derives free d (.stmt (some s)) (t :: ts) next
  | whileLoop {d : Nat} {c : Expr} {ss : List Stmt} {ts us vs : List Token} {t next : Token}
      (ht : t.isWord "while" = true) (hc : Derives free d (.nested c) ts ((us ++ vs).headD next))
      (hm : Maybe "do" us (vs.headD next)) (hb : Derives free d (.body ss) vs next) :
      Derives free d (.stmt (some (.mk t.line (.whileLoop c ss)))) (t :: (ts ++ (us ++ vs))) next
  | noStep {d : Nat} {next : Token} (h : next.is "," = false) : Derives free d (.step none) [] next
  | step {d : Nat} {e : Expr} {ts : List Token} {t next : Token} (ht : t.is "," = true)
      (h : Derives free d (.nested e) ts next) : Derives free d (.step (some e)) (t :: ts) next
  | forLoop {d : Nat} {first last : Expr} {o : Option Expr} {ss : List Stmt}
      {ts us vs ws xs : List Token} {t m u v next : Token} (ht : t.isWord "for" = true)
      (hm : m.isName = true) (hu : u.is "=" = true) (hf : Derives free d (.nested first) ts v)
      (hv : v.is "," = true) (hl : Derives free d (.nested last) us ((vs ++ (ws ++ xs)).headD next))
      (hs : Derives free d (.step o) vs ((ws ++ xs).headD next)) (hw : Maybe "do" ws (xs.headD next))
      (hb : Derives free d (.body ss) xs next) :
      Derives free d (.stmt (some (.mk t.line (.forLoop m.text first last o ss))))
        (t :: m :: u :: (ts ++ v :: (us ++ (vs ++ (ws ++ xs))))) next
  | forEach {d : Nat} {names : List String} {e : Expr} {ss : List Stmt}
      {ts us vs ws : List Token} {t m u next : Token} (ht : t.isWord "for" = true)
      (hm : m.isName = true) (he : (ts.headD u).is "=" = false) (hn : MoreNames names ts u)
      (hu : u.is "in" = true) (h : Derives free d (.nested e) us ((vs ++ ws).headD next))
      (hw : Maybe "do" vs (ws.headD next)) (hb : Derives free d (.body ss) ws next) :
      Derives free d (.stmt (some (.mk t.line (.forEach (m.text :: names) e ss))))
        (t :: m :: (ts ++ u :: (us ++ (vs ++ ws)))) next
  | giveNothing {d : Nat} {us : List Token} {t next : Token} (ht : t.isWord "return" = true)
      (hn : (us.headD next).closesReturn = true) (hu : Maybe ";" us next) :
      Derives free d (.stmt (some (.mk t.line (.giveBack [])))) (t :: us) next
  | giveBack {d : Nat} {es : List Expr} {ts us : List Token} {t next : Token} (ht : t.isWord "return" = true)
      (hs : (ts.headD (us.headD next)).closesReturn = false) (h : Derives free d (.exprs es) ts (us.headD next))
      (hu : Maybe ";" us next) :
      Derives free d (.stmt (some (.mk t.line (.giveBack es)))) (t :: (ts ++ us)) next
  | leaveLoop {d : Nat} {t next : Token} (ht : t.isWord "break" = true) :
      Derives free d (.stmt (some (.mk t.line .leaveLoop))) [t] next
  | evaluate {d : Nat} {e : Expr} {ts : List Token} {next : Token}
      (hs : (ts.headD next).opensStatement = false) (hc : (ts.headD next).is ";" = false)
      (h : Derives free d (.nested e) ts next) (hn : next.assignOp? = none) :
      Derives free d (.stmt (some (.mk (ts.headD next).line (.evaluate e)))) ts next
  | assign {d : Nat} {e value : Expr} {op : AssignOp} {ts us : List Token} {u next : Token}
      (hs : (ts.headD u).opensStatement = false) (hc : (ts.headD u).is ";" = false)
      (h : Derives free d (.nested e) ts u) (hu : u.assignOp? = some op) (ha : e.isAssignable = true)
      (hv : Derives free d (.nested value) us next) :
      Derives free d (.stmt (some (.mk (ts.headD u).line (.assign e op value)))) (ts ++ u :: us) next
  -- conditionals
  | tailElseif {d line : Nat} {c : Expr} {ss : List Stmt} {s : Stmt} {ts us vs ws : List Token}
      {t next : Token} (hc : Derives free d (.nested c) ts ((us ++ vs).headD t))
      (hu : Maybe "then" us (vs.headD t)) (hb : Derives free d (.block ["else", "elseif", "end"] ss) vs t)
      (ht : t.is "elseif" = true) (hr : Derives free d (.tail t.line s) ws next) :
      Derives free d (.tail line (.mk line (.conditional c ss (some [s])))) (ts ++ (us ++ (vs ++ t :: ws))) next
  | tailElse {d line : Nat} {c : Expr} {ss rs : List Stmt} {ts us vs ws : List Token}
      {t next : Token} (hc : Derives free d (.nested c) ts ((us ++ vs).headD t))
      (hu : Maybe "then" us (vs.headD t)) (hb : Derives free d (.block ["else", "elseif", "end"] ss) vs t)
      (ht : t.is "else" = true) (hr : Derives free d (.body rs) ws next) :
      Derives free d (.tail line (.mk line (.conditional c ss (some rs)))) (ts ++ (us ++ (vs ++ t :: ws))) next
  | tailEnd {d line : Nat} {c : Expr} {ss : List Stmt} {ts us vs ws : List Token}
      {next : Token} (hc : Derives free d (.nested c) ts ((us ++ (vs ++ ws)).headD next))
      (hu : Maybe "then" us ((vs ++ ws).headD next))
      (hb : Derives free d (.block ["else", "elseif", "end"] ss) vs (ws.headD next))
      (hi : (ws.headD next).is "elseif" = false) (he : (ws.headD next).is "else" = false)
      (hw : Maybe "end" ws next) :
      Derives free d (.tail line (.mk line (.conditional c ss none))) (ts ++ (us ++ (vs ++ ws))) next

/-- Does the phrase need at least one token? -/
def Phrase.isSolid : Phrase → Bool
  | nested _ | expr _ _ | exprs _ | arguments _ | field _ | stmt _ | tail _ _ => true
  | _ => false

theorem Derives.ne_nil {free : Bool} {d : Nat} {ph : Phrase} {ts : List Token} {next : Token}
    (h : Derives free d ph ts next) (hp : ph.isSolid = true) : ts ≠ [] := by
  induction h <;> simp_all [Phrase.isSolid]

theorem Derives.head_arguments {free : Bool} {d : Nat} {es : List Expr} {ts : List Token} {next : Token}
    (h : Derives free d (.arguments es) ts next) (u : Token) : (ts.headD u).is "(" = true := by
  cases h <;> assumption

/-- Statements go on until the token behind them closes the block. -/
theorem Derives.closesBlock {free : Bool} {d : Nat} {stops : List String} {ss : List Stmt} {ts : List Token}
    {next : Token} (h : Derives free d (.stmts stops ss) ts next) : next.closesBlock stops = true := by
  generalize hp : Phrase.stmts stops ss = ph at h
  induction h generalizing ss with
  | stmtsEnd h => cases hp; exact h
  | stmtsSkip _ _ _ _ ih => cases hp; exact ih rfl
  | stmtsCons _ _ _ _ ih => cases hp; exact ih rfl
  | _ => cases hp

theorem Derives.closesBlock_block {free : Bool} {d : Nat} {stops : List String} {ss : List Stmt} {ts : List Token}
    {next : Token} (h : Derives free d (.block stops ss) ts next) : next.closesBlock stops = true := by
  cases h with
  | block _ h => exact h.closesBlock

namespace Parser

/-- One operator of a chain and its right operand. -/
def chainStep (ops : List BinaryOp) (item : Parser Expr) (left : Expr) : Parser (Option Expr) := do
  match ← operatorAhead ops with
  | none => return none
  | some op =>
    enter
    let _ ← next
    return some (.binary op left (← item))

theorem leftChain_eq (ops : List BinaryOp) (item : Parser Expr) :
    leftChain ops item = chained (item >>= fun first => iterate first (chainStep ops item)) := rfl

/-- One part of a function name. -/
def pathStep : String × Bool → Parser (Option (String × Bool)) := fun (name, isMethod) => do
  if isMethod then return none
  if ← eat "." then return some (name ++ "." ++ (← identifier), false)
  if ← eat ":" then return some (name ++ ":" ++ (← identifier), true)
  return none

/-- One item of a list with separators, if one is due. -/
def separatedStep {α : Type} (item : Parser α) (more : Parser Bool) (due : Bool) :
    Parser (Option (α × Bool)) :=
  if due then do return some (← item, ← more) else pure none

/-- One parameter, if one is due. -/
def parameterStep (due : Bool) : Parser (Option (String × Bool)) :=
  if due then some <$> parameter else pure none

/-- One item of a list that ends where there is none. -/
def manyStep {α : Type} (item : Parser (Option α)) (_ : Unit) : Parser (Option (α × Unit)) :=
  item >>= fun a => Pure.pure (a.map fun a => (a, ()))

/-- One more name of a loop over an iterator. -/
def nameStep : Parser (Option String) := do if ← eat "," then some <$> identifier else pure none

/-- One table field, and whether another is due. -/
def fieldStep (inner : Nested) (due : Bool) : Parser (Option (TableField × Bool)) := do
  if !due || (← look fun s => s.check "\x7d" || s.atEof) then return none
  let field ← tableField inner
  if ← eat "," then return some (field, true)
  return some (field, ← eat ";")

theorem tableFields_eq (inner : Nested) : tableFields inner = unfold true (fieldStep inner) := rfl

/-- One statement of a block, unless the block ends. -/
def blockStep (inner : Nested) (stops : List String) : Parser (Option (Option Stmt)) := do
  if ← look fun s => s.atEof || s.checkAny stops then return none
  some <$> statement inner

theorem statements_eq (inner : Nested) (stops : List String) :
    statements inner stops = (many (blockStep inner stops) >>= fun os => Pure.pure (os.filterMap id)) := rfl

/-- The parser of a level. -/
def ofLevel (inner : Nested) : Level → Parser Expr
  | .primary => primary inner
  | .access => access inner
  | .power => power inner
  | .unary => unary inner
  | .product => leftChain [.mul, .div, .floorDiv, .mod] (unary inner)
  | .sum => sum inner
  | .concat => concatenation inner
  | .comparison => leftChain [.eq, .ne, .lt, .gt, .le, .ge] (concatenation inner)
  | .and => leftChain [.and] (leftChain [.eq, .ne, .lt, .gt, .le, .ge] (concatenation inner))
  | .or => disjunction inner

theorem ofLevel_of_isChain (inner : Nested) {k : Level} (hk : k.isChain = true) :
    ofLevel inner k = leftChain k.ops (ofLevel inner k.below) := by
  cases k <;> first | rfl | cases hk

end Parser

end ScriptGraph
