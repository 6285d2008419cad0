import ScriptGraph.Proofs.CallFields
import ScriptGraph.Proofs.Forest
import ScriptGraph.Proofs.Progress

namespace ScriptGraph

namespace Outline

mutual

/-- Not more than `room` blocks lie inside each other. -/
def FitsAll (room : Nat) : List Outline → Prop
  | [] => True
  | o :: os => o.Fits room ∧ FitsAll room os

def Fits (room : Nat) : Outline → Prop
  | leaf _ _ => True
  | block _ _ body => 0 < room ∧ FitsAll (room - 1) body
  | branch _ _ consequent alternate => 0 < room ∧ FitsAll (room - 1) consequent ∧ FitsAlternate room alternate

/-- A branching that is all of the alternate goes on at the level of the one before it. -/
def FitsAlternate (room : Nat) : List Outline → Prop
  | [] => True
  | [branch _ _ consequent alternate] => FitsAll (room - 1) consequent ∧ FitsAlternate room alternate
  | o :: os => o.Fits (room - 1) ∧ FitsAll (room - 1) os

end

def isBranch : Outline → Bool
  | branch .. => true
  | _ => false

theorem fitsAlternate_cons {o : Outline} {os : List Outline} (h : o.isBranch = true → os ≠ []) (room : Nat) :
    FitsAlternate room (o :: os) ↔ FitsAll (room - 1) (o :: os) := by
  rw [FitsAll, FitsAlternate]
  rintro kind data consequent alternate rfl rfl
  exact h rfl rfl

theorem fits_mono (os : List Outline) : ∀ {room room' : Nat}, room ≤ room' →
    (FitsAll room os → FitsAll room' os) ∧ (FitsAlternate room os → FitsAlternate room' os) := by
  induction os using listInduction with
  | nil =>
    intro room room' _
    simp [FitsAll, FitsAlternate]
  | leaf kind data os ih =>
    intro room room' hr
    simp only [fitsAlternate_cons (o := .leaf kind data) (by simp [isBranch]), FitsAll, Fits, true_and]
    exact ⟨(ih hr).1, (ih (by omega)).1⟩
  | block kind data body os ihb iho =>
    have hall {room room' : Nat} (hr : room ≤ room') (h : FitsAll room (.block kind data body :: os)) :
        FitsAll room' (.block kind data body :: os) := by
      simp only [FitsAll, Fits] at h ⊢
      obtain ⟨⟨hroom, hbody⟩, hos⟩ := h
      have hbelow : room - 1 ≤ room' - 1 := by omega
      exact ⟨⟨by omega, (ihb hbelow).1 hbody⟩, (iho hr).1 hos⟩
    intro room room' hr
    rw [fitsAlternate_cons (by simp [isBranch]), fitsAlternate_cons (by simp [isBranch])]
    exact ⟨hall hr, hall (by omega)⟩
  | branch kind data consequent alternate os ihc iha iho =>
    have hall {room room' : Nat} (hr : room ≤ room') (h : FitsAll room (.branch kind data consequent alternate :: os)) :
        FitsAll room' (.branch kind data consequent alternate :: os) := by
      simp only [FitsAll, Fits] at h ⊢
      obtain ⟨⟨hroom, hthen, helse⟩, hos⟩ := h
      have hbelow : room - 1 ≤ room' - 1 := by omega
      exact ⟨⟨by omega, (ihc hbelow).1 hthen, (iha hr).2 helse⟩, (iho hr).1 hos⟩
    intro room room' hr
    refine ⟨hall hr, ?_⟩
    cases os with
    | nil =>
      simp only [FitsAlternate]
      have hbelow : room - 1 ≤ room' - 1 := by omega
      exact fun h => ⟨(ihc hbelow).1 h.1, (iha hr).2 h.2⟩
    | cons o os =>
      rw [fitsAlternate_cons (by simp), fitsAlternate_cons (by simp)]
      exact hall (by omega)

theorem Fits.mono {o : Outline} {room room' : Nat} (h : o.Fits room) (hr : room ≤ room') : o.Fits room' := by
  have hone : FitsAll room [o] := by
    simp only [FitsAll, and_true]
    exact h
  have hmono := (fits_mono [o] hr).1 hone
  simp only [FitsAll, and_true] at hmono
  exact hmono

theorem FitsAll.mono {os : List Outline} {room room' : Nat} (h : FitsAll room os) (hr : room ≤ room') :
    FitsAll room' os :=
  (fits_mono os hr).1 h

theorem FitsAll.alternate {os : List Outline} {room : Nat} (h : FitsAll (room - 1) os) : FitsAlternate room os := by
  cases os with
  | nil => simp [FitsAlternate]
  | cons o os =>
    by_cases hb : o.isBranch = true → os ≠ []
    · rwa [fitsAlternate_cons hb]
    · obtain ⟨hbranch, hos⟩ : o.isBranch = true ∧ os = [] := by simpa using hb
      subst hos
      cases o with
      | leaf => cases hbranch
      | block => cases hbranch
      | branch kind data consequent alternate =>
        simp only [FitsAll, Fits, and_true] at h
        obtain ⟨_, hthen, helse⟩ := h
        simp only [FitsAlternate]
        exact ⟨hthen.mono (by omega), (fits_mono alternate (by omega)).2 helse⟩

end Outline

open Outline

/-- The bodies that an expression can bring into a graph fit: its own, if it is a function, and that of its
handler, if it is a statement. -/
structure Expr.Nests (room : Nat) (e : Expr) : Prop where
  body : ∀ names ss, e = .function names ss → 0 < room ∧ FitsAll (room - 1) (Stmt.outlines ss)
  handler : ∀ text, (e.outline text).Fits room

namespace Expr.Nests

variable {room room' : Nat} {e : Expr}

theorem mono (h : e.Nests room) (hr : room ≤ room') : e.Nests room' := by
  refine ⟨fun names ss he => ?_, fun text => (h.handler text).mono hr⟩
  obtain ⟨hroom, hfits⟩ := h.body names ss he
  exact ⟨by omega, hfits.mono (by omega)⟩

/-- An expression that becomes text. -/
theorem text (hf : e.isFunction = false) (hc : e.call? = none) : e.Nests room := by
  refine ⟨fun names ss he => ?_, fun text => ?_⟩
  · rw [he] at hf
    cases hf
  · cases e with
    | call => cases hc
    | methodCall => cases hc
    | _ =>
      rw [outline]
      · simp only [Outline.Fits]
      all_goals simp

theorem function {names : List String} {ss : List Stmt} (hr : 0 < room) (h : FitsAll (room - 1) (Stmt.outlines ss)) :
    (Expr.function names ss).Nests room := by
  refine ⟨fun names' ss' he => ?_, fun text => ?_⟩
  · cases he
    exact ⟨hr, h⟩
  · rw [outline]
    · simp only [Outline.Fits]
    all_goals simp

theorem handlerOutlines {es : List Expr} (h : ∀ e ∈ es, e.Nests room) : FitsAll room (Expr.handlerOutlines es) := by
  rw [Expr.handlerOutlines_eq]
  induction es with
  | nil =>
    rw [Expr.handler, Stmt.outlines]
    simp only [FitsAll]
  | cons e es ih =>
    obtain ⟨he, hes⟩ := List.forall_mem_cons.mp h
    cases e with
    | function names ss =>
      rw [Expr.handler]
      exact (he.body names ss rfl).2.mono (by omega)
    | _ =>
      rw [Expr.handler]
      · exact ih hes
      all_goals simp

/-- A call that has a handler takes a function, so there is a level for it. -/
theorem ofCall {es : List Expr} (h : ∀ e ∈ es, e.Nests (room - 1)) (callee text : String) :
    (Outline.ofCall callee es text (Expr.handlerOutlines es)).Fits room := by
  unfold Outline.ofCall
  cases hm : CallMatch.ofCall? callee es with
  | none => simp only [Outline.Fits]
  | some m =>
    dsimp only
    cases hb : m.body with
    | none => simp only [Option.isSome_none, Bool.false_eq_true, if_false, Outline.Fits]
    | some ss =>
      obtain ⟨-, fs, hfill, -⟩ := CallMatch.ofCall?_eq_some_iff.mp hm
      obtain ⟨names, hmem⟩ := hfill.mem_of_body hb
      have hroom := ((h _ hmem).body names ss rfl).1
      simp only [Option.isSome_some, if_true, Outline.Fits]
      exact ⟨by omega, handlerOutlines h⟩

theorem call {a : Expr} {es : List Expr} (h : ∀ e ∈ es, e.Nests (room - 1)) : (Expr.call a es).Nests room := by
  refine ⟨fun _ _ he => (nomatch he), fun text => ?_⟩
  rw [outline]
  exact ofCall h _ text

theorem methodCall {a : Expr} {method : String} {es : List Expr} (h : ∀ e ∈ es, e.Nests (room - 1)) :
    (Expr.methodCall a method es).Nests room := by
  refine ⟨fun _ _ he => (nomatch he), fun text => ?_⟩
  rw [outline]
  exact ofCall h _ text

end Expr.Nests

/-- The statements of a phrase fit into `room` levels. -/
def Phrase.Nests (room : Nat) : Phrase → Prop
  | nested e => e.Nests (room - 1)
  | expr _ e => e.Nests room
  | chain _ left whole | trail left whole => left.Nests room → whole.Nests room
  | exprs es | arguments es => ∀ e ∈ es, e.Nests (room - 1)
  | fields _ | field _ | step _ => True
  | stmts _ ss => FitsAll room (Stmt.outlines ss)
  | block _ ss | body ss => 0 < room ∧ FitsAll (room - 1) (Stmt.outlines ss)
  | stmt o => ∀ s ∈ o, s.outline.Fits room
  | tail _ s => s.outline.Fits room ∧ s.outline.isBranch = true

theorem Outline.fitsAlternate_singleton {o : Outline} {room : Nat} (h : o.Fits room) (hb : o.isBranch = true) :
    FitsAlternate room [o] := by
  cases o with
  | leaf => cases hb
  | block => cases hb
  | branch kind data consequent alternate =>
    simp only [Fits] at h
    simp only [FitsAlternate]
    exact h.2

/-- A phrase at depth `d` nests at most as deep as is left. -/
theorem Derives.nests {d : Nat} {ph : Phrase} {ts : List Token} {next : Token} (h : Derives false d ph ts next) :
    ph.Nests (maxDepth - d) := by
  have hbinary {room : Nat} {op : BinaryOp} {a b : Expr} : (Expr.binary op a b).Nests room := .text rfl rfl
  induction h with
  | nested _ _ ih => exact ih
  | chained _ _ _ ih ihc => exact ihc ih
  | chainEnd => exact id
  | chainStep _ _ _ _ _ ihc => exact fun _ => (ihc hbinary).mono (by omega)
  | concatEnd _ _ ih => exact ih
  | concat => exact hbinary
  | unary => exact .text rfl rfl
  | unaryEnd _ _ ih => exact ih
  | powerEnd _ _ ih => exact ih
  | power => exact hbinary
  | access _ _ ih iht => exact iht ih
  | trailEnd => exact id
  | call _ _ _ ih ihr => exact fun _ => (ihr (.call ih)).mono (by omega)
  | methodCall _ _ _ _ _ ih ihr => exact fun _ => (ihr (.methodCall ih)).mono (by omega)
  | member _ _ _ _ ihr => exact fun _ => (ihr (.text rfl rfl)).mono (by omega)
  | index _ _ _ _ _ _ ihr => exact fun _ => (ihr (.text rfl rfl)).mono (by omega)
  | string => exact .text rfl rfl
  | number => exact .text rfl rfl
  | identifier => exact .text rfl rfl
  | trueWord => exact .text rfl rfl
  | falseWord => exact .text rfl rfl
  | nilWord => exact .text rfl rfl
  | vararg => exact .text rfl rfl
  | parens _ _ _ _ ih => exact ih.mono (by omega)
  | table => exact .text rfl rfl
  | function _ _ _ ih => exact .function ih.1 ih.2
  | one _ _ ih => exact List.forall_mem_singleton.mpr ih
  | cons _ _ _ ih ihr => exact List.forall_mem_cons.mpr ⟨ih, ihr⟩
  | noArguments =>
    intro e he
    cases he
  | arguments _ _ _ _ ih => exact ih
  | keyed | named | positional | fieldsEnd | fieldsLast | fieldsCons | noStep | step => trivial
  | stmtsEnd => simp only [Phrase.Nests, Stmt.outlines, FitsAll]
  | stmtsSkip _ _ _ _ ihr => exact ihr
  | stmtsCons _ _ _ ih ihr =>
    simp only [Phrase.Nests, Stmt.outlines, FitsAll]
    exact ⟨ih _ rfl, ihr⟩
  | block hd _ ih =>
    have hroom : _ < maxDepth := hd.resolve_left (by simp)
    exact ⟨by omega, ih⟩
  | body _ _ ih => exact ih
  | skip =>
    intro s hs
    cases hs
  | declare | declareAs | giveNothing | giveBack | leaveLoop | assign =>
    rintro _ ⟨⟩
    simp only [Stmt.outline, Action.outline, Outline.Fits]
  | localFunction _ _ _ _ _ ih | define _ _ _ _ _ ih | whileLoop _ _ _ _ _ ih
  | forLoop _ _ _ _ _ _ _ _ _ _ _ _ ih | forEach _ _ _ _ _ _ _ _ _ ih =>
    rintro _ ⟨⟩
    simp only [Stmt.outline, Action.outline, Outline.Fits]
    exact ih
  | conditional _ _ ih =>
    rintro _ ⟨⟩
    exact ih.1
  | evaluate _ _ _ _ ih =>
    rintro _ ⟨⟩
    simp only [Stmt.outline, Action.outline]
    exact (ih.handler _).mono (by omega)
  | tailElseif _ _ _ _ _ _ ihb ihr =>
    simp only [Phrase.Nests, Stmt.outline, Action.outline, Stmt.alternateOutlines, Stmt.outlines, Outline.Fits]
    exact ⟨⟨ihb.1, ihb.2, fitsAlternate_singleton ihr.1 ihr.2⟩, rfl⟩
  | tailElse _ _ _ _ _ _ ihb ihr =>
    simp only [Phrase.Nests, Stmt.outline, Action.outline, Stmt.alternateOutlines, Outline.Fits]
    exact ⟨⟨ihb.1, ihb.2, ihr.2.alternate⟩, rfl⟩
  | tailEnd _ _ _ _ _ _ _ ihb =>
    simp only [Phrase.Nests, Stmt.outline, Action.outline, Stmt.alternateOutlines, Outline.Fits, FitsAlternate]
    exact ⟨⟨ihb.1, ihb.2, trivial⟩, rfl⟩

/-- The program of a token list nests no deeper than the parser allows. -/
theorem Program.fits_of_parse {tokens : List Token} {p : Program} (h : Program.parse tokens = .ok p) :
    FitsAll maxDepth (Stmt.outlines p) := by
  obtain ⟨ts, t, -, -, hderives⟩ := Program.derives_of_parse h
  exact hderives.nests

namespace Recovered

theorem fits_of_scan {limit : Nat} {budget : List Token} {dropped : List ParseError} {s : Cursor} {r : Recovered}
    (hs : s.stop.isEof = true) (h : scan limit budget dropped s = .ok r) :
    FitsAll maxDepth (Stmt.outlines r.program) := by
  have hsound := Parser.sound_statement (Parser.soundInside_ofRoom maxDepth)
  have hnil : FitsAll maxDepth (Stmt.outlines []) := by simp only [Stmt.outlines, FitsAll]
  induction budget generalizing dropped s r with
  | nil =>
    cases h
    exact hnil
  | cons b budget ih =>
    rcases turn s with heof | ⟨heof, ⟨t, ht⟩ | ⟨stmt, t, ht⟩ | ⟨e, t, ht⟩⟩
    · rw [scan_of_atEof heof] at h
      cases h
      exact hnil
    · rw [scan_of_none heof ht] at h
      obtain ⟨ts, hbehind, -⟩ := hsound s none t hs ht
      exact ih (hbehind.stop ▸ hs) h
    · rw [scan_of_some heof ht] at h
      obtain ⟨ts, hbehind, -, hderives⟩ := hsound s (some stmt) t hs ht
      cases hrest : scan limit budget dropped t with
      | error e => rw [hrest] at h; cases h
      | ok rest =>
        rw [hrest] at h
        cases h
        have hfits : stmt.outline.Fits (maxDepth - s.depth) := hderives.nests stmt rfl
        have hothers : FitsAll maxDepth (Stmt.outlines rest.program) := ih (hbehind.stop ▸ hs) hrest
        rw [prepend_program, List.singleton_append, Stmt.outlines, FitsAll]
        exact ⟨hfits.mono (by omega), hothers⟩
    · rw [scan_of_error heof ht] at h
      have hresume := (Parser.statement_failed ht).1.trans (precedes_resume s t)
      have hstop : (resume s t).stop.isEof = true := hresume.stop_eq ▸ hs
      by_cases hroom : dropped.length < limit
      · rw [if_pos hroom] at h
        exact ih hstop h
      · rw [if_neg hroom] at h
        cases h

end Recovered

theorem Program.fits_of_parseRecovering {tokens : List Token} {limit : Nat} {r : Recovered}
    (h : Program.parseRecovering tokens limit = .ok r) : FitsAll maxDepth (Stmt.outlines r.program) :=
  Recovered.fits_of_scan (Cursor.isEof_ofTokens tokens) h

end ScriptGraph
