import ScriptGraph.Proofs.Script
import ScriptGraph.Proofs.WrittenLines

namespace ScriptGraph

open Lexeme

namespace Emitter.TextSpells

theorem of_spells {flush : Bool} {text : String} {ls : List Lexeme} (h : Spells text.toList ls (some '\n'))
    (hn : flush = false → ∀ l ∈ ls, l.kind = .string → '\n' ∉ l.text) : TextSpells flush text ls :=
  ⟨h, fun hf l hl => (h.whole l hl).newline_notMem (hn hf l hl)⟩

theorem keyword {flush : Bool} {s : String} (h : isKeyword s = true) : TextSpells flush s [.keyword s] := by
  refine of_spells ?_ ?_
  · have hword := Spells.keyword s h rfl (@Spells.nil (some '\n'))
    simpa using hword
  · simp [Lexeme.keyword, verbatim]

end Emitter.TextSpells

open Emitter

namespace Script

variable {flush : Bool}

/-- Written anywhere, or if `flush`, at the margin, the script spells the lexemes. -/
def Tells (flush : Bool) (ss : List Script) (ls : List Lexeme) : Prop :=
  ∀ out : Emitter, out.Ready flush → Goes out (writeAll out ss) ls

/-- Written as what follows the first branch of a conditional, with the `end`, the script spells the lexemes. -/
def TellsAlternate (flush : Bool) (ss : List Script) (ls : List Lexeme) : Prop :=
  ∀ out : Emitter, out.Ready flush → Goes out (writeAlternate (out.within "end") ss).closeBlock ls

theorem Tells.nil : Tells flush [] [] := fun out _ => Goes.refl out

theorem Tells.cons {s : Script} {ss : List Script} {ls ms : List Lexeme} (h : Tells flush [s] ls)
    (hs : Tells flush ss ms) : Tells flush (s :: ss) (ls ++ ms) := by
  intro out hr
  have hfirst := h out hr
  simp only [writeAll] at hfirst ⊢
  exact hfirst.trans (hs _ (hfirst.ready hr))

theorem Tells.line {text : String} {ls : List Lexeme} (h : TextSpells flush text ls) :
    Tells flush [.line text] ls := by
  intro out hr
  simp only [writeAll, write]
  exact hr.write h

theorem Tells.block {opener closer : String} {body : List Script} {ls ks ms : List Lexeme}
    (ho : TextSpells flush opener ls) (hc : TextSpells flush closer ms) (hb : Tells false body ks) :
    Tells flush [.block opener closer body] (ls ++ ks ++ ms) := by
  intro out hr
  have hopen := hr.write ho
  have hr' := hopen.ready hr
  obtain ⟨inner, hinner, hgoes⟩ := (hb _ (hr'.within closer)).of_within
  have hclose := (hgoes.ready hr').write hc
  simp only [writeAll, write, openBlock_eq, hinner, closeBlock_within]
  exact (hopen.trans hgoes).trans hclose

/-- A condition and what is done if it holds, then the rest. -/
theorem goes_branch {out : Emitter} (hr : out.Ready flush) {opener : String} {consequent alternate : List Script}
    {ls ks ms : List Lexeme} (ho : TextSpells flush opener ls) (hc : Tells false consequent ks)
    (ha : TellsAlternate flush alternate ms) :
    Goes out (writeAlternate (writeAll ((out.write opener).within "end") consequent) alternate).closeBlock
      (ls ++ ks ++ ms) := by
  have hopen := hr.write ho
  have hr' := hopen.ready hr
  obtain ⟨inner, hinner, hgoes⟩ := (hc _ (hr'.within "end")).of_within
  rw [hinner]
  exact (hopen.trans hgoes).trans (ha inner (hgoes.ready hr'))

theorem Tells.conditional {condition : String} {consequent alternate : List Script} {ls ks ms : List Lexeme}
    (ho : TextSpells flush ("if " ++ condition ++ " then") ls) (hc : Tells false consequent ks)
    (ha : TellsAlternate flush alternate ms) :
    Tells flush [.conditional condition consequent alternate] (ls ++ ks ++ ms) := by
  intro out hr
  simp only [writeAll, write, openBlock_eq]
  exact goes_branch hr ho hc ha

theorem TellsAlternate.nil : TellsAlternate flush [] [.keyword "end"] := by
  intro out hr
  simp only [writeAlternate, closeBlock_within]
  exact hr.write (.keyword rfl)

/-- An `elseif` stands as far out as its `if`. -/
theorem TellsAlternate.elseif {condition : String} {consequent alternate : List Script} {ls ks ms : List Lexeme}
    (ho : TextSpells flush ("elseif " ++ condition ++ " then") ls) (hc : Tells false consequent ks)
    (ha : TellsAlternate flush alternate ms) :
    TellsAlternate flush [.conditional condition consequent alternate] (ls ++ ks ++ ms) := by
  intro out hr
  simp only [writeAlternate, reopen_within]
  exact goes_branch hr ho hc ha

theorem TellsAlternate.otherwise {ss : List Script} {ls : List Lexeme} (h : Tells false ss ls) (hne : ss ≠ [])
    (hno : ∀ condition consequent alternate, ss ≠ [.conditional condition consequent alternate]) :
    TellsAlternate flush ss (.keyword "else" :: (ls ++ [.keyword "end"])) := by
  intro out hr
  have hopen := hr.write (.keyword (s := "else") rfl)
  have hr' := hopen.ready hr
  obtain ⟨inner, hinner, hgoes⟩ := (h _ (hr'.within "end")).of_within
  have hclose := (hgoes.ready hr').write (.keyword (s := "end") rfl)
  rw [writeAlternate_eq _ hne hno, reopen_within, hinner, closeBlock_within]
  have hall := (hopen.trans hgoes).trans hclose
  simpa using hall

/-- The blocks of a script that are not blank, with an empty line below each. -/
def blocksText (unit : String) (ss : List Script) : List Char :=
  ((blocks unit ss).filter fun b => !Text.isBlankText b).flatMap fun b => (b ++ "\n\n").toList

/-- Written block by block, the script spells the lexemes. -/
def TellsBlocks (ss : List Script) (ls : List Lexeme) : Prop :=
  ∀ unit, Text.isBlankText unit = true → ∀ next, Spells (blocksText unit ss) ls next

theorem toList_intercalate {rows : List String} (h : rows ≠ []) :
    ("\n".intercalate rows).toList ++ ['\n'] = rowsText rows := by
  induction rows with
  | nil => exact absurd rfl h
  | cons row rows ih =>
    cases rows with
    | nil => simp
    | cons next rows =>
      rw [String.intercalate_cons_cons, rowsText_cons, ← ih (by simp)]
      simp

/-- A paragraph with an empty line below it, unless it is blank. -/
theorem Tells.spells_paragraph {ss : List Script} {ls : List Lexeme} (h : Tells flush ss ls) {unit : String}
    (hu : Text.isBlankText unit = true) (next : Option Char) :
    Spells (([(writeAll { unit } ss).finish].filter fun b => !Text.isBlankText b).flatMap fun b => (b ++ "\n\n").toList)
      ls next := by
  obtain ⟨rows, hrows, hspell⟩ := h { unit } ⟨hu, fun _ => rfl⟩
  have hfinish : (writeAll { unit } ss).finish = "\n".intercalate rows := by
    rw [hrows]
    rfl
  rw [hfinish]
  cases hb : Text.isBlankText ("\n".intercalate rows) with
  | true =>
    have hblank : (rowsText rows).all Text.isBlank = true := by
      by_cases hr : rows = []
      · simp [hr]
      · rw [← toList_intercalate hr, List.all_append, Bool.and_eq_true]
        exact ⟨hb, by decide⟩
    rw [(hspell next).eq_nil_of_isBlank hblank]
    simpa [hb] using Spells.nil
  | false =>
    have hr : rows ≠ [] := by
      rintro rfl
      exact absurd hb (by decide)
    have hbreak : Spells ['\n'] [] next := Spells.blanks (by decide)
    have hall := (hspell (some '\n')).append hbreak
    rw [← toList_intercalate hr] at hall
    simpa [hb] using hall

theorem TellsBlocks.nil : TellsBlocks [] [] := fun _ _ _ => Spells.nil

/-- All that follows a line belongs to its block. -/
theorem TellsBlocks.line {text : String} {ss : List Script} {ls : List Lexeme} (h : Tells flush (.line text :: ss) ls) :
    TellsBlocks (.line text :: ss) ls := by
  intro unit hu next
  exact h.spells_paragraph hu next

theorem TellsBlocks.cons {s : Script} {ss : List Script} {ls ms : List Lexeme} (h : Tells flush [s] ls)
    (hs : TellsBlocks ss ms) (hp : paragraphs (s :: ss) = [s] :: paragraphs ss) : TellsBlocks (s :: ss) (ls ++ ms) := by
  intro unit hu next
  rw [blocksText, blocks, hp, List.map_cons, ← List.singleton_append, List.filter_append, List.flatMap_append]
  exact (h.spells_paragraph hu _).append (hs unit hu next)

end Script

end ScriptGraph
