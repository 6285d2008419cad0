import ScriptGraph.Proofs.ParserComplete
import ScriptGraph.Proofs.ParserSound
import ScriptGraph.Proofs.Precedence

namespace ScriptGraph

/-! Every part is one higher than the highest of its parts. An `elseif` is the only statement of an alternate in the
tree; it counts as `link` levels, so `link = 1` gives the height of the tree as it is. -/

mutual

def Expr.height (link : Nat) : Expr → Nat
  | .identifier _ | .string _ _ | .number _ | .bool _ | .nil | .vararg => 1
  | .binary _ left right => max (left.height link) (right.height link) + 1
  | .unary _ operand => operand.height link + 1
  | .call callee args => max (callee.height link) (Expr.heights link args) + 1
  | .methodCall object _ args => max (object.height link) (Expr.heights link args) + 1
  | .member object _ => object.height link + 1
  | .index object key => max (object.height link) (key.height link) + 1
  | .table fields => TableField.heights link fields + 1
  | .function _ body => Stmt.heights link body + 1

def Expr.heights (link : Nat) : List Expr → Nat
  | [] => 0
  | e :: es => max (e.height link) (Expr.heights link es)

def Expr.optionHeight (link : Nat) : Option Expr → Nat
  | none => 0
  | some e => e.height link

def TableField.height (link : Nat) : TableField → Nat
  | .named _ value => value.height link
  | .keyed key value => max (key.height link) (value.height link)
  | .positional value => value.height link

def TableField.heights (link : Nat) : List TableField → Nat
  | [] => 0
  | f :: fs => max (f.height link) (TableField.heights link fs)

def Action.height (link : Nat) : Action → Nat
  | .declare _ value => Expr.optionHeight link value + 1
  | .assign target _ value => max (target.height link) (value.height link) + 1
  | .define _ _ body _ _ => Stmt.heights link body + 1
  | .conditional condition consequent alternate =>
    max (condition.height link) (max (Stmt.heights link consequent) (Stmt.alternateHeight link alternate)) + 1
  | .whileLoop condition body => max (condition.height link) (Stmt.heights link body) + 1
  | .forLoop _ first last step body => max (max (first.height link) (last.height link))
    (max (Expr.optionHeight link step) (Stmt.heights link body)) + 1
  | .forEach _ iterable body => max (iterable.height link) (Stmt.heights link body) + 1
  | .giveBack values => Expr.heights link values + 1
  | .leaveLoop => 1
  | .evaluate e => e.height link + 1

def Stmt.height (link : Nat) : Stmt → Nat
  | .mk _ action => action.height link

def Stmt.heights (link : Nat) : List Stmt → Nat
  | [] => 0
  | s :: ss => max (s.height link) (Stmt.heights link ss)

def Stmt.alternateHeight (link : Nat) : Option (List Stmt) → Nat
  | none => 0
  | some [.mk _ (.conditional condition consequent alternate)] =>
    max (condition.height link) (max (Stmt.heights link consequent) (Stmt.alternateHeight link alternate)) + link
  | some ss => Stmt.heights link ss

end

def Program.height (link : Nat) (p : Program) : Nat := Stmt.heights link p

theorem Stmt.alternateHeight_some_le {link : Nat} (h : link ≤ 1) (ss : List Stmt) :
    Stmt.alternateHeight link (some ss) ≤ Stmt.heights link ss := by
  rw [Stmt.alternateHeight.eq_def]
  split
  · next h => cases h
  · next heq =>
    cases heq
    simp only [Stmt.heights, Stmt.height, Action.height]
    omega
  · next heq =>
    cases heq
    exact Nat.le_refl _

/-- The height of an expression that has room for this many levels. -/
def ceiling (room : Nat) : Nat := 3 * room * room

theorem ceiling_succ (room : Nat) : ceiling (room + 1) = ceiling room + 6 * room + 3 := by
  simp only [ceiling, Nat.mul_add, Nat.add_mul]
  omega

namespace Level

/-- How many levels of operators there are to this one at which a chain can be as long as there is room. -/
def chains : Level → Nat
  | or => 6 | and => 5 | comparison => 4 | concat | sum => 3 | product => 2 | unary | power | access => 1 | primary => 0

/-- How many of the levels to this one add a step of their own. -/
def steps : Level → Nat
  | or | and | comparison | concat => 3 | sum | product | unary | power => 2 | access | primary => 1

/-- The height of an expression of a level. -/
def ceiling (k : Level) (room : Nat) : Nat := ScriptGraph.ceiling room + k.chains * room + k.steps

theorem ceiling_of_isChain {k : Level} (h : k.isChain = true) (room : Nat) :
    k.ceiling room = k.below.ceiling room + room := by
  cases k with
  | or | and | comparison | sum | product =>
    simp only [ceiling, below, chains, steps]
    omega
  | concat | unary | power | access | primary => cases h

theorem ceiling_le_succ (k : Level) (room : Nat) : k.ceiling room ≤ k.ceiling (room + 1) := by
  simp only [ceiling, ceiling_succ, Nat.mul_add]
  omega

end Level

/-- The trees of a phrase are no higher than the room allows. -/
def Phrase.Low (room : Nat) : Phrase → Prop
  | nested e => e.height 0 ≤ ceiling room
  | expr k e => e.height 0 ≤ k.ceiling room
  | chain k left whole => whole.height 0 ≤ max (left.height 0) (k.below.ceiling room) + room
  | trail left whole => whole.height 0 ≤ max (left.height 0) (Level.primary.ceiling room) + room
  | exprs es | arguments es => Expr.heights 0 es ≤ ceiling room
  | fields fs => TableField.heights 0 fs ≤ ceiling room
  | field f => f.height 0 ≤ ceiling room
  | stmts _ ss => Stmt.heights 0 ss ≤ ceiling room + 1
  | block _ ss | body ss => Stmt.heights 0 ss ≤ ceiling room
  | stmt o => ∀ s ∈ o, s.height 0 ≤ ceiling room + 1
  | step o => Expr.optionHeight 0 o ≤ ceiling room
  | tail _ s => s.height 0 ≤ ceiling room + 1 ∧ Stmt.alternateHeight 0 (some [s]) ≤ ceiling room

theorem Fits.exists_room {d : Nat} (h : Fits false d) :
    ∃ room, maxDepth - d = room + 1 ∧ maxDepth - (d + 1) = room := by
  have hlt : d < maxDepth := h.resolve_left (by simp)
  exact ⟨maxDepth - (d + 1), by omega, rfl⟩

theorem Derives.low {d : Nat} {ph : Phrase} {ts : List Token} {next : Token} (h : Derives false d ph ts next) :
    ph.Low (maxDepth - d) := by
  induction h with
  | nested hd _ ih =>
    obtain ⟨room, hroom, hroom'⟩ := hd.exists_room
    rw [hroom'] at ih
    rw [hroom]
    simp only [Phrase.Low, Level.ceiling, Level.chains, Level.steps, ceiling_succ] at ih ⊢
    omega
  | chained hk _ _ ih ihc =>
    simp only [Phrase.Low, Level.ceiling_of_isChain hk] at ih ihc ⊢
    omega
  | chainEnd =>
    simp only [Phrase.Low]
    omega
  | @chainStep _ k _ _ _ _ _ _ _ _ _ hd _ _ ih ihc =>
    obtain ⟨room, hroom, hroom'⟩ := hd.exists_room
    have hle := k.below.ceiling_le_succ room
    rw [hroom'] at ih ihc
    rw [hroom]
    simp only [Phrase.Low, Expr.height] at ih ihc ⊢
    omega
  | concatEnd _ _ ih =>
    simp only [Phrase.Low, Level.ceiling, Level.chains, Level.steps] at ih ⊢
    omega
  | concat _ _ hd _ ih ihr =>
    obtain ⟨room, hroom, hroom'⟩ := hd.exists_room
    rw [hroom'] at ihr
    rw [hroom] at ih ⊢
    simp only [Phrase.Low, Expr.height, Level.ceiling, Level.chains, Level.steps, ceiling_succ] at ih ihr ⊢
    omega
  | unary _ hd _ ih =>
    obtain ⟨room, hroom, hroom'⟩ := hd.exists_room
    rw [hroom'] at ih
    rw [hroom]
    simp only [Phrase.Low, Expr.height, Level.ceiling, Level.chains, Level.steps, ceiling_succ] at ih ⊢
    omega
  | unaryEnd _ _ ih | powerEnd _ _ ih =>
    simp only [Phrase.Low, Level.ceiling, Level.chains, Level.steps] at ih ⊢
    omega
  | power _ _ hd _ ih ihr =>
    obtain ⟨room, hroom, hroom'⟩ := hd.exists_room
    rw [hroom'] at ihr
    rw [hroom] at ih ⊢
    simp only [Phrase.Low, Expr.height, Level.ceiling, Level.chains, Level.steps, ceiling_succ] at ih ihr ⊢
    omega
  | access _ _ ih iht =>
    simp only [Phrase.Low, Level.ceiling, Level.chains, Level.steps] at ih iht ⊢
    omega
  | trailEnd =>
    simp only [Phrase.Low]
    omega
  | call hd _ _ ih ihr | methodCall hd _ _ _ _ ih ihr | index hd _ _ _ _ ih ihr =>
    obtain ⟨room, hroom, hroom'⟩ := hd.exists_room
    rw [hroom'] at ih ihr
    rw [hroom]
    simp only [Phrase.Low, Expr.height, Level.ceiling, Level.chains, Level.steps, ceiling_succ] at ih ihr ⊢
    omega
  | member hd _ _ _ ihr =>
    obtain ⟨room, hroom, hroom'⟩ := hd.exists_room
    rw [hroom'] at ihr
    rw [hroom]
    simp only [Phrase.Low, Expr.height, Level.ceiling, Level.chains, Level.steps, ceiling_succ] at ihr ⊢
    omega
  | string | number | identifier | trueWord | falseWord | nilWord | vararg =>
    simp only [Phrase.Low, Expr.height, Level.ceiling, Level.steps]
    omega
  | parens _ _ _ _ ih | table _ _ _ _ ih | function _ _ _ ih =>
    simp only [Phrase.Low, Expr.height, Level.ceiling, Level.steps] at ih ⊢
    omega
  | one _ _ ih =>
    simp only [Phrase.Low, Expr.heights] at ih ⊢
    omega
  | cons _ _ _ ih ihr =>
    simp only [Phrase.Low, Expr.heights] at ih ihr ⊢
    omega
  | noArguments => exact Nat.zero_le _
  | arguments _ _ _ _ ih => exact ih
  | keyed _ _ _ _ _ ihk ih =>
    simp only [Phrase.Low, TableField.height] at ihk ih ⊢
    omega
  | named _ _ _ ih | positional _ _ _ ih => exact ih
  | fieldsEnd => exact Nat.zero_le _
  | fieldsLast _ _ _ _ ih =>
    simp only [Phrase.Low, TableField.heights] at ih ⊢
    omega
  | fieldsCons _ _ _ _ ih ihr =>
    simp only [Phrase.Low, TableField.heights] at ih ihr ⊢
    omega
  | stmtsEnd => exact Nat.zero_le _
  | stmtsSkip _ _ _ _ ihr => exact ihr
  | stmtsCons _ _ _ ih ihr =>
    have hs := ih _ rfl
    simp only [Phrase.Low, Stmt.heights] at ihr ⊢
    omega
  | block hd _ ih =>
    obtain ⟨room, hroom, hroom'⟩ := hd.exists_room
    rw [hroom'] at ih
    rw [hroom]
    simp only [Phrase.Low, ceiling_succ] at ih ⊢
    omega
  | body _ _ ih => exact ih
  | skip => exact fun _ hs => nomatch hs
  | declare | leaveLoop | giveNothing =>
    rintro _ ⟨⟩
    simp only [Stmt.height, Action.height, Expr.optionHeight, Expr.heights]
    omega
  | declareAs _ _ _ _ ih | evaluate _ _ _ _ ih =>
    rintro _ ⟨⟩
    simp only [Phrase.Low, Stmt.height, Action.height, Expr.optionHeight] at ih ⊢
    omega
  | giveBack _ _ _ _ ih | localFunction _ _ _ _ _ ih | define _ _ _ _ _ ih =>
    rintro _ ⟨⟩
    simp only [Phrase.Low, Stmt.height, Action.height] at ih ⊢
    omega
  | conditional _ _ ih =>
    rintro _ ⟨⟩
    exact ih.1
  | whileLoop _ _ _ _ ihc ih | forEach _ _ _ _ _ _ _ _ ihc ih =>
    rintro _ ⟨⟩
    simp only [Phrase.Low, Stmt.height, Action.height] at ihc ih ⊢
    omega
  | assign _ _ _ _ _ _ iht ih =>
    rintro _ ⟨⟩
    simp only [Phrase.Low, Stmt.height, Action.height] at iht ih ⊢
    omega
  | noStep => exact Nat.zero_le _
  | step _ _ ih => exact ih
  | forLoop _ _ _ _ _ _ _ _ _ ihf ihl ihs ihb =>
    rintro _ ⟨⟩
    simp only [Phrase.Low, Stmt.height, Action.height] at ihf ihl ihs ihb ⊢
    omega
  | tailElseif _ _ _ _ _ ihc ihb ihr =>
    simp only [Phrase.Low, Stmt.height, Action.height, Stmt.alternateHeight] at ihc ihb ihr ⊢
    omega
  | @tailElse _ _ _ _ rs _ _ _ _ _ _ _ _ _ _ _ ihc ihb ihr =>
    have hle := Stmt.alternateHeight_some_le (Nat.zero_le 1) rs
    simp only [Phrase.Low, Stmt.height, Action.height, Stmt.alternateHeight] at ihc ihb ihr ⊢
    omega
  | tailEnd _ _ _ _ _ _ ihc ihb =>
    simp only [Phrase.Low, Stmt.height, Action.height, Stmt.alternateHeight] at ihc ihb ⊢
    omega

namespace Elseifs

def word (text : String) : Token := ⟨.keyword, text, 1, 1, none⟩

def name : Token := ⟨.identifier, "x", 1, 1, none⟩

/-- A conditional with this many `elseif` branches, behind its keyword. -/
def tokens : Nat → List Token
  | 0 => [name, word "then", word "end"]
  | n + 1 => name :: word "then" :: word "elseif" :: tokens n

def stmt : Nat → Stmt
  | 0 => .mk 1 (.conditional (.identifier "x") [] none)
  | n + 1 => .mk 1 (.conditional (.identifier "x") [] (some [stmt n]))

theorem height_stmt (n : Nat) : (stmt n).height 1 = n + 2 := by
  induction n with
  | zero => rfl
  | succ n ih =>
    have halternate : Stmt.alternateHeight 1 (some [stmt n]) = (stmt n).height 1 := by
      cases n <;> simp only [stmt, Stmt.alternateHeight, Stmt.height, Action.height]
    rw [stmt, Stmt.height, Action.height, halternate, ih]
    simp only [Expr.height, Stmt.heights]
    omega

theorem derives_name {d : Nat} (h : d < maxDepth) :
    Derives false d (.nested (.identifier "x")) [name] (word "then") := by
  have hc : Level.or.Closes (word "then") := Level.closes_of_is (s := "then") rfl (by decide)
  refine .nested (.inr h) (Level.climb (l := .primary)
    (P := fun k => Derives false (d + 1) (.expr k (.identifier name.text)) [name] (word "then")) (by decide)
    (.identifier rfl) fun k hk _ hbelow => ?_)
  exact hbelow.lift hk (hc.loosen (by cases k <;> decide)) fun _ => rfl

theorem derives_tail (n : Nat) (next : Token) : Derives false 0 (.tail 1 (stmt n)) (tokens n) next := by
  have hname : Derives false 0 (.nested (.identifier "x")) [name] (word "then") := derives_name (by decide)
  have hthen (next : Token) : Maybe "then" [word "then"] next := .inl ⟨_, rfl, rfl⟩
  induction n with
  | zero =>
    have hblock : Derives false 0 (.block ["else", "elseif", "end"] []) [] (word "end") :=
      .block (.inr (by decide)) (.stmtsEnd rfl)
    exact .tailEnd hname (hthen _) hblock rfl rfl (.inl ⟨word "end", rfl, rfl⟩)
  | succ n ih =>
    have hblock : Derives false 0 (.block ["else", "elseif", "end"] []) [] (word "elseif") :=
      .block (.inr (by decide)) (.stmtsEnd rfl)
    exact .tailElseif hname (hthen _) hblock rfl ih

theorem parse_tokens (n : Nat) : Program.parse (word "if" :: tokens n ++ [⟨.eof, "", 1, 1, none⟩]) = .ok [stmt n] := by
  have hstmt : Derives false 0 (.stmt (some (stmt n))) (word "if" :: tokens n) ⟨.eof, "", 1, 1, none⟩ :=
    .conditional rfl (derives_tail n _)
  have hstmts : Derives false 0 (.stmts [] [stmt n]) (word "if" :: tokens n ++ []) ⟨.eof, "", 1, 1, none⟩ :=
    .stmtsCons rfl hstmt (.stmtsEnd rfl)
  rw [List.append_nil] at hstmts
  exact (hstmts.parse rfl).resolve_right (by simp)

end Elseifs

/-- What is read is no higher than the limit on nesting allows, but for the branches of its conditionals. -/
theorem Program.height_of_parse {tokens : List Token} {p : Program} (h : Program.parse tokens = .ok p) :
    Program.height 0 p ≤ 3 * maxDepth * maxDepth + 1 := by
  obtain ⟨ts, t, -, -, hderives⟩ := Program.derives_of_parse h
  exact hderives.low

theorem Program.height_of_parse_elseifs :
    Program.parse (Elseifs.word "if" :: Elseifs.tokens 2 ++ [⟨.eof, "", 1, 1, none⟩]) = .ok [Elseifs.stmt 2] ∧
      Program.height 0 [Elseifs.stmt 2] ≤ 3 * maxDepth * maxDepth + 1 :=
  ⟨Elseifs.parse_tokens 2, Program.height_of_parse (Elseifs.parse_tokens 2)⟩

/-- A conditional can have any number of branches, each in the alternate of the one before it. -/
theorem Program.height_unbounded :
    ¬ ∃ bound, ∀ tokens p, Program.parse tokens = .ok p → Program.height 1 p ≤ bound := by
  rintro ⟨bound, hbound⟩
  have hheight := hbound _ _ (Elseifs.parse_tokens bound)
  simp only [Program.height, Stmt.heights, Elseifs.height_stmt] at hheight
  omega

end ScriptGraph
