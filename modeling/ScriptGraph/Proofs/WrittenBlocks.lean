import ScriptGraph.Proofs.Coverage
import ScriptGraph.Proofs.NodeTexts

namespace ScriptGraph

open Lexeme

/-- The unit of an indentation within lines: blanks, but no line break. -/
structure IsIndent (unit : String) : Prop where
  blank : Text.isBlankText unit = true
  newline : '\n' ∉ unit.toList

instance (unit : String) : Decidable (IsIndent unit) :=
  decidable_of_iff (Text.isBlankText unit = true ∧ '\n' ∉ unit.toList) ⟨fun h => ⟨h.1, h.2⟩, fun h => ⟨h.1, h.2⟩⟩

theorem IsIndent.repeated {unit : String} (h : IsIndent unit) (n : Nat) : IsIndent (Text.repeated unit n) := by
  refine ⟨Text.isBlankText_repeated h.blank n, ?_⟩
  induction n with
  | zero => simp [Text.repeated]
  | succ n ih =>
    rw [Text.repeated, String.toList_append, List.mem_append]
    exact fun hmem => hmem.elim h.newline ih

theorem Text.splitLines_of_notMem {cs : List Char} (hne : cs ≠ []) (h : '\n' ∉ cs) : splitLines cs = [cs] := by
  induction cs with
  | nil => exact absurd rfl hne
  | cons c cs ih =>
    have hc : c ≠ '\n' := fun hc => h (hc ▸ List.mem_cons_self)
    have hcs : '\n' ∉ cs := fun hmem => h (List.mem_cons_of_mem c hmem)
    rw [splitLines_cons hc fun _ hhead => hcs (List.mem_of_head? hhead), firstLine]
    cases cs with
    | nil => rfl
    | cons d cs => rw [ih (List.cons_ne_nil d cs) hcs, List.headD_cons, List.tail_cons]

/-- A comment that starts with a blank is read up to the end of its line. -/
theorem Lexeme.comment_line {cs rest : List Char} (h : '\n' ∉ cs) (hrest : rest.head?.all (· = '\n') = true) :
    comment (' ' :: (cs ++ rest)) = ⟨.comment, ' ' :: cs, none, '-' :: '-' :: ' ' :: cs⟩ := by
  have htext : (' ' :: (cs ++ rest)).takeWhile (· ≠ '\n') = ' ' :: cs := by
    have hcs : (' ' :: cs).takeWhile (· ≠ '\n') = ' ' :: cs := by
      rw [List.takeWhile_eq_self_iff]
      intro c hc
      rw [decide_eq_true_eq]
      rintro rfl
      rcases List.mem_cons.mp hc with hc | hc
      · cases hc
      · exact h hc
    rw [← List.cons_append, takeWhile_append_of_head? (by simpa using hrest), hcs]
  rw [comment, longBracketLevel?]
  · simp only [htext]
  · exact fun _ h => by cases h

/-- A comment on a row of its own counts for nothing. -/
theorem adds_comment {cs : List Char} (h : '\n' ∉ cs) : Adds ('-' :: '-' :: ' ' :: (cs ++ ['\n'])) 0 := by
  intro rest
  have hfirst := first?_comment (' ' :: (cs ++ '\n' :: rest))
  rw [comment_line h (by simp)] at hfirst
  have hsource : '-' :: '-' :: ' ' :: cs ++ '\n' :: rest = '-' :: '-' :: ' ' :: (cs ++ '\n' :: rest) := rfl
  have hlevel := level_cons_lexeme hfirst hsource
  rw [excess_of_kind (by simp), level_cons_gap (first?_of_isBlank (by decide) rest)] at hlevel
  simpa using hlevel

namespace Warning

theorem message_depthExceeded (node : String) (limit : Nat) : (depthExceeded node limit).message =
    "block nesting deeper than " ++ limit.repr ++ " levels at node " ++ node ++ ", subtree omitted" := rfl

theorem message_unreachable (node : String) :
    (unreachable node).message = "node " ++ node ++ " is not reachable from any root" := rfl

theorem newline_notMem_depthExceeded {node : String} (h : '\n' ∉ node.toList) (limit : Nat) :
    '\n' ∉ (depthExceeded node limit).message.toList := by
  have hdigits : '\n' ∉ limit.repr.toList := by
    rw [Nat.toList_repr]
    intro hmem
    exact absurd (Nat.isDigit_of_mem_toDigits (by decide) (by decide) hmem) (by decide)
  rw [message_depthExceeded, String.toList_append, String.toList_append, String.toList_append, String.toList_append,
    List.mem_append, List.mem_append, List.mem_append, List.mem_append, not_or, not_or, not_or, not_or]
  exact ⟨⟨⟨⟨by decide +kernel, hdigits⟩, by decide +kernel⟩, h⟩, by decide +kernel⟩

theorem newline_notMem_unreachable {node : String} (h : '\n' ∉ node.toList) :
    '\n' ∉ (unreachable node).message.toList := by
  rw [message_unreachable, String.toList_append, String.toList_append, List.mem_append, List.mem_append, not_or, not_or]
  exact ⟨⟨by decide +kernel, h⟩, by decide +kernel⟩

end Warning

namespace Emitter

theorem adds_warning {indent : String} (hi : Text.isBlankText indent = true) {w : Warning}
    (hw : '\n' ∉ w.message.toList) : Adds (rowsText ((Text.lines w.comment).map (indented indent))) 0 := by
  have hcomment : w.comment.toList = "-- luavisual".toList ++ [':'] ++ (' ' :: w.message.toList) := by
    simp [Warning.comment]
  have hnewline : '\n' ∉ w.comment.toList := by
    rw [hcomment]
    simp [hw]
  have hlines := Text.splitLines_of_notMem (by simp [hcomment]) hnewline
  have htrim := @Text.trimEndChars_append_of_last "-- luavisual".toList ':' rfl (' ' :: w.message.toList)
  obtain ⟨blanks, hblanks, -⟩ := Text.exists_trimEndChars (' ' :: w.message.toList)
  have hmessage : '\n' ∉ Text.trimEndChars (' ' :: w.message.toList) := by
    intro hmem
    have hall : '\n' ∈ ' ' :: w.message.toList := hblanks ▸ List.mem_append_left blanks hmem
    simp [hw] at hall
  have hrow := @adds_comment ("luavisual:".toList ++ Text.trimEndChars (' ' :: w.message.toList))
    (by simpa using hmessage)
  rw [Text.lines, hlines, List.map_singleton, List.map_singleton, rowsText_cons, toList_indented, hcomment, htrim,
    if_neg (by simp)]
  simpa using hrow.blanks_append hi

/-- `out` goes on as `out'`, by rows that open `k` more blocks than they close. -/
def Raises (out out' : Emitter) (k : Int) : Prop :=
  ∃ rows, out' = { out with lines := out.lines ++ rows } ∧ Adds (rowsText rows) k

namespace Raises

variable {out out' out'' : Emitter} {j k : Int}

theorem refl (out : Emitter) : Raises out out 0 := ⟨[], by simp, .nil⟩

theorem trans (h : Raises out out' j) (h' : Raises out' out'' k) : Raises out out'' (j + k) := by
  obtain ⟨rows, rfl, hrows⟩ := h
  obtain ⟨rows', rfl, hrows'⟩ := h'
  refine ⟨rows ++ rows', by simp, ?_⟩
  rw [rowsText_append]
  exact hrows.append hrows'

theorem unit_eq (h : Raises out out' k) : out'.unit = out.unit := by
  obtain ⟨rows, rfl, -⟩ := h
  rfl

theorem closers_eq (h : Raises out out' k) : out'.closers = out.closers := by
  obtain ⟨rows, rfl, -⟩ := h
  rfl

theorem of_within {inner : Emitter} {closer : String} (h : Raises (out.within closer) inner k) :
    ∃ out', inner = out'.within closer ∧ Raises out out' k := by
  obtain ⟨rows, rfl, hrows⟩ := h
  exact ⟨{ out with lines := out.lines ++ rows }, rfl, rows, rfl, hrows⟩

end Raises

section Steps

variable {out : Emitter} (hu : IsIndent out.unit)
include hu

theorem raises_write {text : String} {k : Int} (h : Sealed text.toList k) : Raises out (out.write text) k := by
  have hi := hu.repeated out.closers.length
  exact ⟨_, rfl, Sealed.rows hi.blank hi.newline h⟩

theorem raises_warning {w : Warning} (hw : '\n' ∉ w.message.toList) : Raises out (out.write w.comment) 0 :=
  ⟨_, rfl, adds_warning (hu.repeated out.closers.length).blank hw⟩

theorem raises_reopen {text : String} (h : Sealed text.toList 0) : Raises out (out.reopen text) 0 := by
  rw [reopen]
  split
  · exact raises_write hu h
  · rename_i closer rest hclosers
    have hwritten := @raises_write { out with closers := rest } hu text 0 h
    obtain ⟨rows, hrows, hadds⟩ := hwritten
    refine ⟨rows, ?_, hadds⟩
    simp only [hrows, hclosers]

end Steps

end Emitter

namespace Event

/-- The texts of the event are sealed, and those around a block open and close just that. -/
def IsSealed : Event → Prop
  | text _ t | turn _ t => Sealed t.toList 0
  | enter _ opener closer => Sealed opener.toList 1 ∧ Sealed closer.toList (-1)
  | cut n _ | stray n => '\n' ∉ n.id.toList
  | silent _ | leave => True

theorem Faithful.isSealed {g : Graph} (hg : ∀ n ∈ g.nodes, n.IsPlain) {e : Event} (h : e.Faithful g) : e.IsSealed := by
  have hemission {n : Node} (hn : n ∈ g.nodes) : (Emission.ofNode n).IsSealed n :=
    Emission.isSealed_ofNode (hg n hn).code (hg n hn).data
  cases e with
  | text n t =>
    obtain ⟨hn, hemit⟩ := h
    have ht := hemission hn
    rcases hemit with hemit | hemit <;> rwa [hemit] at ht
  | silent n => exact trivial
  | cut n limit => exact (hg n h.1).id
  | stray n => exact (hg n h).id
  | leave => exact trivial
  | enter n opener closer =>
    obtain ⟨hn, hemit⟩ := h
    have ht := hemission hn
    rcases hemit with hemit | ⟨hemit, rfl, rfl⟩
    · rwa [hemit] at ht
    · rw [hemit] at ht
      have hif := ((sealed_word "if" 1 (by simp)).spaced ht).spaced
        (sealed_word "then" 0 (by simp))
      exact ⟨by simpa using hif, sealed_word "end" (-1) (by simp)⟩
  | turn n t =>
    cases n with
    | none =>
      obtain rfl : t = "else" := h
      exact sealed_word "else" 0 (by simp)
    | some n =>
      obtain ⟨hn, hemit, rfl⟩ := h
      have ht := hemission hn
      rw [hemit] at ht
      have helseif := ((sealed_word "elseif" 0 (by simp)).spaced ht).spaced
        (sealed_word "then" 0 (by simp))
      simpa [IsSealed] using helseif

end Event

namespace Event

open Emitter (Raises raises_write raises_warning raises_reopen)

/-- What the events open, they close again. -/
def Steady (es : List Event) : Prop := ∀ out : Emitter, IsIndent out.unit → Raises out (writeAll out es) 0

namespace Steady

variable {es es' : List Event}

theorem nil : Steady [] := fun out _ => .refl out

theorem append (h : Steady es) (h' : Steady es') : Steady (es ++ es') := by
  intro out hu
  have hes := h out hu
  rw [writeAll_append]
  exact hes.trans (h' _ (hes.unit_eq ▸ hu))

theorem text {n : Node} {t : String} (h : IsSealed (.text n t)) : Steady [.text n t] := fun _ hu => raises_write hu h

theorem silent (n : Node) : Steady [.silent n] := fun out _ => .refl out

theorem cut {n : Node} {limit : Nat} (h : IsSealed (.cut n limit)) : Steady [.cut n limit] := fun _ hu =>
  raises_warning hu (Warning.newline_notMem_depthExceeded h limit)

theorem stray {n : Node} (h : IsSealed (.stray n)) : Steady [.stray n] := fun _ hu =>
  raises_warning hu (Warning.newline_notMem_unreachable h)

theorem turn {n : Option Node} {t : String} (h : IsSealed (.turn n t)) : Steady [.turn n t] := fun _ hu =>
  raises_reopen hu h

/-- The closer of a block is written when the block is left, at the level of the opener. -/
theorem block {n : Node} {opener closer : String} (h : IsSealed (.enter n opener closer)) (hes : Steady es) :
    Steady (.enter n opener closer :: (es ++ [.leave])) := by
  intro out hu
  have hopen := raises_write hu h.1
  have hwithin : IsIndent ((out.write opener).within closer).unit := hu
  obtain ⟨inner, hinner, hbody⟩ := (hes _ hwithin).of_within
  have hclose := raises_write (hbody.unit_eq ▸ hopen.unit_eq ▸ hu) h.2
  have hlines : writeAll out (.enter n opener closer :: (es ++ [.leave])) = inner.write closer := by
    rw [← Emitter.closeBlock_within, ← hinner]
    exact writeAll_append ((out.write opener).within closer) es [.leave]
  rw [hlines]
  exact (hopen.trans hbody).trans hclose

end Steady

end Event

namespace Graph

open Event (Steady)

theorem Traces.steady {g : Graph} {limit depth : Nat} {seen seen' : List String} {pending : Pending} {es : List Event}
    (h : g.Traces limit depth seen pending es seen') (hes : ∀ e ∈ es, e.IsSealed) : Steady es := by
  induction h with
  | nil | noAlternate => exact .nil
  | done _ _ ih => exact ih hes
  | cons _ _ ih₁ ih₂ =>
    obtain ⟨hes₁, hes₂⟩ := List.forall_mem_append.mp hes
    exact (ih₁ hes₁).append (ih₂ hes₂)
  | line _ _ _ ih =>
    obtain ⟨he, hes⟩ := List.forall_mem_cons.mp hes
    exact (Steady.text he).append (ih hes)
  | skip _ _ _ ih => exact (Steady.silent _).append (ih (List.forall_mem_cons.mp hes).2)
  | terminal _ _ _ => exact .text (List.forall_mem_singleton.mp hes)
  | cut _ _ _ _ => exact .cut (List.forall_mem_singleton.mp hes)
  | block _ _ _ _ ih =>
    obtain ⟨he, hes⟩ := List.forall_mem_cons.mp hes
    exact .block he (ih (List.forall_mem_append.mp hes).1)
  | @conditional _ _ _ _ _ _ es₁ es₂ es₃ _ _ _ _ _ _ ih₁ ih₂ ih₃ =>
    obtain ⟨he, hes⟩ := List.forall_mem_cons.mp hes
    obtain ⟨hes₁, hes⟩ := List.forall_mem_append.mp hes
    obtain ⟨hes₂, hes₃⟩ := List.forall_mem_append.mp hes
    -- all branches stand between the opener and the closer, what follows is behind them
    have hbranches := Steady.block he ((ih₁ hes₁).append (ih₂ hes₂))
    have hafter := ih₃ (List.forall_mem_cons.mp hes₃).2
    simpa using hbranches.append hafter
  | elseif _ _ _ _ ih₁ ih₂ =>
    obtain ⟨he, hes⟩ := List.forall_mem_cons.mp hes
    obtain ⟨hes₁, hes₂⟩ := List.forall_mem_append.mp hes
    exact (Steady.turn he).append ((ih₁ hes₁).append (ih₂ hes₂))
  | otherwise _ _ _ ih =>
    obtain ⟨he, hes⟩ := List.forall_mem_cons.mp hes
    exact (Steady.turn he).append (ih hes)

/-- Each block of a run ends as many blocks as it begins. -/
theorem Drafts.steady {g : Graph} {limit : Nat} {seen seen' : List String} {starts : List (Bool × Node)}
    {blocks : List (List Event)} (h : g.Drafts limit seen starts blocks seen')
    (hes : ∀ e ∈ blocks.flatten, e.IsSealed) : ∀ es ∈ blocks, Steady es := by
  induction h with
  | nil => simp
  | done _ _ ih => exact ih hes
  | @cons _ _ _ isRoot n _ _ _ _ ht _ ih =>
    rw [List.flatten_cons, List.forall_mem_append, List.forall_mem_append] at hes
    obtain ⟨⟨hstray, hblock⟩, hes⟩ := hes
    have hstart : Steady (if isRoot then [] else [.stray n]) := by
      cases isRoot with
      | true => exact .nil
      | false => exact .stray (List.forall_mem_singleton.mp hstray)
    exact List.forall_mem_cons.mpr ⟨hstart.append (ht.steady hblock), ih hes⟩

end Graph

/-- A block with an empty line below it. -/
theorem Event.Steady.adds_paragraph {es : List Event} (h : Steady es) {unit : String} (hu : IsIndent unit)
    (hb : Text.isBlankText (blockText unit es) = false) : Adds (blockText unit es ++ "\n\n").toList 0 := by
  obtain ⟨rows, hrows, hadds⟩ := h { unit } hu
  have hfinish : blockText unit es = "\n".intercalate rows := by
    rw [blockText, hrows]
    rfl
  rw [hfinish] at hb ⊢
  have hne : rows ≠ [] := by
    rintro rfl
    exact absurd hb (by decide)
  -- the first of the two line breaks ends the last row
  have hbreak : Adds ['\n'] 0 := Adds.blanks_append (by decide : ['\n'].all Text.isBlank = true) .nil
  have hparagraph := hadds.append hbreak
  rw [← Script.toList_intercalate hne] at hparagraph
  simpa using hparagraph

namespace Rendered

theorem level_join {unit : String} (hu : IsIndent unit) {blocks : List (List Event)}
    (h : ∀ es ∈ blocks, Event.Steady es) : level (join "" (blocks.map (Event.blockText unit))).toList = 0 := by
  rw [toList_join_empty]
  generalize hpars : (((blocks.map (Event.blockText unit)).filter fun b => !Text.isBlankText b).flatMap
    fun b => (b ++ "\n\n").toList) = paragraphs
  have hadds : Adds paragraphs 0 := by
    subst hpars
    induction blocks with
    | nil => exact .nil
    | cons es blocks ih =>
      obtain ⟨hes, hblocks⟩ := List.forall_mem_cons.mp h
      rw [List.map_cons, List.filter_cons]
      split
      · rename_i hb
        exact (hes.adds_paragraph hu (by simpa using hb)).append (ih hblocks)
      · exact ih hblocks
  obtain ⟨blanks, hblanks, hall⟩ := Text.exists_trimEndChars paragraphs
  have hlevel := level_append_blanks (Text.trimEndChars paragraphs) hall
  rw [← hblanks] at hlevel
  rw [← hlevel, ← List.append_nil paragraphs, hadds]
  rfl

theorem join_of_isBlankText {header : String} (h : Text.isBlankText header = true) (blocks : List String) :
    join header blocks = join "" blocks := by
  have hempty : Text.isBlankText "" = true := rfl
  rw [join, join, h, hempty, if_pos rfl, if_pos rfl]

/-- Without a header, and unless a unit of the indentation holds a line break, the text of plain nodes closes as many
blocks as it opens. A node that is visited leaves the blocks open that were open before, and no others. -/
theorem balanced_ofGraph {g : Graph} (hg : ∀ n ∈ g.nodes, n.IsPlain) {settings : RenderSettings}
    (hclosers : settings.balanceClosers = false) (hu : IsIndent settings.indent) {header : String}
    (hheader : Text.isBlankText header = true) (hdefault : settings.defaultHeader.all Text.isBlankText = true) :
    (Balance.ofText (ofGraph settings g header).text).openers =
      (Balance.ofText (ofGraph settings g header).text).closers ∧
    ∀ (w : Walk) (n : Node), w.out.unit = settings.indent → n ∈ g.nodes →
      (g.visit settings g.nodes.length 0 w n).out.closers = w.out.closers := by
  constructor
  · obtain ⟨blocks, ⟨seen, hdrafts⟩, hblocks, -⟩ := Draft.exists_runs g settings
    have hfaithful := hdrafts.faithful fun _ => Graph.mem_nodes_of_mem_starts
    have hsteady := hdrafts.steady fun e he => (hfaithful e he).isSealed hg
    have hblank : Text.isBlankText (settings.defaultHeader.getD header) = true := by
      cases hd : settings.defaultHeader with
      | none => exact hheader
      | some text => simpa [hd] using hdefault
    have htext : (ofGraph settings g header).text = join "" (blocks.map (Event.blockText settings.indent)) := by
      rw [← hblocks, ← join_of_isBlankText hblank]
      simp [ofGraph, hclosers, hheader]
    have hlevel := level_join hu hsteady
    rw [htext]
    rw [Balance.level_eq] at hlevel
    omega
  · intro w n hunit hn
    obtain ⟨es, seen, htraces, hvisit⟩ := g.follows_visit settings g.nodes.length 0 [n] w
      (List.forall_mem_singleton.mpr hn) (g.unseen_le_length w.visited)
    have hfaithful := htraces.faithful (List.forall_mem_singleton.mpr hn)
    have hsteady := htraces.steady fun e he => (hfaithful e he).isSealed hg
    rw [List.foldl_cons, List.foldl_nil] at hvisit
    rw [hvisit]
    exact (hsteady w.out (hunit ▸ hu)).closers_eq

/-- A cycle that no root leads to, with a branch that is cut off, a branch without a statement, and block words in
strings. -/
theorem balanced_ofGraph_cycle : ∃ (g : Graph) (settings : RenderSettings), (∀ n ∈ g.nodes, n.IsPlain) ∧
    settings.balanceClosers = false ∧ IsIndent settings.indent ∧
    (ofGraph settings g "").warnings = [.unreachable "a", .depthExceeded "d" 2] ∧
    (Balance.ofText (ofGraph settings g "").text).openers = (Balance.ofText (ofGraph settings g "").text).closers ∧
    (g.visit settings g.nodes.length 0 { out := { unit := settings.indent } }
      { id := "a", kind := "logic-loop" }).out.closers = [] := by
  let g : Graph := ⟨[{ id := "a", kind := "logic-loop" },
    { id := "b", kind := "logic-print", data := [("message", .string "end")], position := ⟨0, 100⟩ },
    { id := "c", kind := "logic-if", data := [("condition", .string "x['do']")], position := ⟨0, 200⟩ },
    { id := "d", kind := "logic-for", position := ⟨0, 300⟩ },
    { id := "e", kind := "unheard-of", position := ⟨0, 400⟩ }],
    [{ id := "1", source := "a", target := "b" }, { id := "2", source := "b", target := "c" },
      { id := "3", source := "c", target := "d", handle := .onTrue },
      { id := "4", source := "c", target := "e", handle := .onFalse }, { id := "5", source := "e", target := "a" }]⟩
  have hplain : ∀ n ∈ g.nodes, n.IsPlain := by decide +kernel
  let settings : RenderSettings := { maxDepth := 2, balanceClosers := false }
  have hunit : IsIndent settings.indent := by decide +kernel
  have hbalanced := @balanced_ofGraph g hplain settings rfl hunit "" rfl rfl
  exact ⟨g, settings, hplain, rfl, hunit, by decide +kernel, hbalanced.1, hbalanced.2 _ _ rfl List.mem_cons_self⟩

/-- A line break in the unit of the indentation goes into strings that go over several lines, and ends them there. -/
theorem unbalanced_ofGraph_newline : ∃ g : Graph, (∀ n ∈ g.nodes, n.IsPlain) ∧ Text.isBlankText "\n" = true ∧
    (ofGraph { indent := "\n", balanceClosers := false } g "").text = "while true do\n\nprint('\\\n\nend ')\nend" ∧
    (Balance.ofText (ofGraph { indent := "\n", balanceClosers := false } g "").text).openers = 1 ∧
    (Balance.ofText (ofGraph { indent := "\n", balanceClosers := false } g "").text).closers = 2 := by
  let g : Graph := ⟨[{ id := "a", kind := "logic-loop" },
    { id := "b", kind := "logic-print", data := [("message", .string "\\\nend ")], position := ⟨0, 100⟩ }],
    [{ id := "1", source := "a", target := "b" }]⟩
  refine ⟨g, ?_, rfl, ?_, ?_, ?_⟩
  all_goals decide +kernel

end Rendered

end ScriptGraph
