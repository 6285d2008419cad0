import ScriptGraph.Proofs.LineIndependence
import ScriptGraph.Proofs.Marks
import ScriptGraph.Proofs.PrinterRoundTrip
import ScriptGraph.Proofs.Rendering
import ScriptGraph.Proofs.Requoting

namespace ScriptGraph

/-- What lets a written program be read again: no statement can carry on the one before it, a return comes last in
its block, and no string goes over the end of a line or ends in an unpaired backslash. -/
def rereadable : Rules where
  expr
    | .string value _ => '\n' ∉ value.toList ∧ Lexeme.dangles value.toList = false
    | _ => True
  action a := a.isLoose = false
  block := ReturnLast

theorem ReturnLast.bareReturnLast {ss : List Stmt} (h : ReturnLast ss) : BareReturnLast ss :=
  fun s hs => h s hs []

theorem rereadable_imply_separable : Rules.Imply rereadable rereadable separable where
  expr e h _ := by
    cases e with
    | string => exact h.2
    | _ => trivial
  field _ _ _ := trivial
  action _ h _ := h
  block _ h _ := h.bareReturnLast

theorem rereadable_imply_unbroken : Rules.Imply rereadable rereadable unbroken where
  expr e h _ := by
    cases e with
    | string => exact h.1
    | _ => trivial
  field _ _ _ := trivial
  action _ _ _ := trivial
  block _ _ _ := trivial

theorem rereadable_imply_returnsLast : Rules.Imply rereadable rereadable returnsLast where
  expr _ _ _ := trivial
  field _ _ _ := trivial
  action _ _ _ := trivial
  block _ h _ := h

/-- A text that spells the written form of a program is read as that form, up to the lines. -/
theorem Program.parse_of_spells_canonical {R : Rules} (hR : R.Separates) {p : Program}
    (hp : Program.Every printable (Stmt.canonicalAll p)) (h : Program.Every R (Stmt.canonicalAll p)) {text : String}
    (hs : Spells text.toList (Stmt.lexemesAll (Stmt.canonicalAll p)) none) (firstLine : Nat) :
    (∃ line, Program.parse (tokenize text firstLine) = .error (.tooDeep maxDepth line)) ∨
      ∃ q, Program.parse (tokenize text firstLine) = .ok q ∧
        Stmt.outlines q = Stmt.outlines (Stmt.canonicalAll p) := by
  refine (Program.parse_of_separates hR hp h hs firstLine).imp_right ?_
  rintro ⟨q, hq, hlines⟩
  refine ⟨q, hq, ?_⟩
  calc Stmt.outlines q
    _ = Stmt.outlines (Program.mapLines origin q) := (Stmt.outlines_mapLinesAll origin q).symm
    _ = Stmt.outlines (Stmt.canonicalAll p) := by rw [hlines]; exact Stmt.outlines_mapLinesAll origin _

theorem emission_giveBack_terminal (value : String) : ∃ text,
    emission NodeKind.giveBack.tag (Builder.titled .giveBack [("returnValue", value)]) = .terminal text := by
  rw [Builder.titled, emission_labelled (by decide) _ (by simp) rfl, Emission.ofKind]
  split
  · exact ⟨_, rfl⟩
  · exact ⟨_, rfl⟩

/-- The written program has the script of the program. -/
theorem Stmt.says_canonicalAll (ss : List Stmt) : ∀ scripts, Outline.Says (Stmt.outlines ss) scripts →
    Outline.Says (Stmt.outlines (Stmt.canonicalAll ss)) scripts := by
  induction ss using Stmt.bodyInduction with
  | nil =>
    intro scripts h
    rwa [Stmt.canonicalAll]
  | cons line action ss hb hss =>
    intro scripts h
    rw [Stmt.canonicalAll, Stmt.canonical, Stmt.outlines, Stmt.outline]
    rw [Stmt.outlines, Stmt.outline] at h
    cases action with
    | giveBack values =>
      rw [Action.canonical, Action.outline]
      rw [Action.outline] at h
      obtain ⟨text, he⟩ := emission_giveBack_terminal (", ".intercalate (values.map Expr.text))
      cases h with
      | line hk hline _ =>
        rw [he] at hline
        cases hline
      | last hk hlast => exact .last hk hlast
    | declare | assign | leaveLoop =>
      rw [Action.canonical, Action.outline]
      rw [Action.outline] at h
      exact h.leaf_congr rfl hss
    | define | whileLoop | forLoop | forEach =>
      rw [Action.canonical, Action.outline]
      rw [Action.outline] at h
      exact h.block_congr rfl (hb _ (by simp [Action.bodies])) hss
    | conditional condition consequent alternate =>
      have helse : ∀ scripts, Outline.Says (Stmt.alternateOutlines alternate) scripts →
          Outline.Says (Stmt.alternateOutlines (Action.canonicalAlternate alternate)) scripts := by
        rw [Stmt.alternateOutlines_eq, Stmt.alternateOutlines_eq, Action.getD_canonicalAlternate]
        exact hb _ (by simp [Action.bodies])
      rw [Action.canonical, Action.outline]
      rw [Action.outline] at h
      exact h.branch_congr (hb consequent (by simp [Action.bodies])) helse hss
    | evaluate e =>
      rw [Action.canonical, Action.outline]
      rw [Action.outline] at h
      rcases e.canonical_cases with hsame | ⟨callee, args, m, hc, hm, hcanonical⟩
      · rw [hsame]
        exact h.tail_congr hss
      · have he : emission m.entry.kind m.written.data = emission m.entry.kind m.data := by
          rw [CallMatch.data_written hm, emission_requoted]
        rw [Expr.outline_of_call? hc, Outline.ofCall_of_some hm, Expr.handlerOutlines_eq] at h
        rw [hcanonical, Expr.outline_of_call? (Entry.call?_call (CallMatch.mem_entries hm) _),
          Outline.ofCall_of_some (CallMatch.ofCall?_written hm), Expr.handlerOutlines_requote]
        have hwritten : m.written.body = m.body.map Stmt.canonicalAll := rfl
        cases hbody : m.body with
        | none =>
          rw [hbody] at h
          rw [hwritten, hbody]
          exact h.leaf_congr he hss
        | some body =>
          rw [hbody] at h
          rw [hwritten, hbody]
          exact h.block_congr he (hb _ (Expr.handler_mem_bodies hc)) hss

/-- A program with the outline of the written one is written the same. -/
theorem Rendered.text_of_outlines {layout : Layout} {mark mark' : String} (hl : layout.Descends) {p q : Program}
    (h : Stmt.WritableAll true (Stmt.canonicalAll p)) (hq : Stmt.outlines q = Stmt.outlines (Stmt.canonicalAll p))
    (hfits : Outline.FitsAll maxDepth (Stmt.outlines p)) (hfits' : Outline.FitsAll maxDepth (Stmt.outlines q))
    (header : String) :
    (Rendered.ofGraph {} (Graph.ofProgram layout q mark') header).text =
      (Rendered.ofGraph {} (Graph.ofProgram layout p mark) header).text := by
  obtain ⟨scripts, hscripts⟩ := (Stmt.hasScripts p).told true h
  rw [Rendered.text_ofProgram hl hscripts.script hfits]
  exact Rendered.text_ofProgram hl (hq ▸ Stmt.says_canonicalAll p scripts hscripts.script) hfits' header

/-- What a graph keeps when its text is read again: everything but the mark of its ids and the way in which quoted
values are escaped. -/
structure Graph.Survives (g reread : Graph) : Prop where
  nodes : reread.nodes.length = g.nodes.length
  edges : reread.edges.length = g.edges.length
  sequence : reread.sequence = g.sequence.map Step.requoted
  text : (Rendered.ofGraph {} reread "").text = (Rendered.ofGraph {} g "").text

theorem Graph.survives_of_outlines {layout : Layout} (hl : layout.Descends) {p q : Program}
    (h : Stmt.WritableAll true (Stmt.canonicalAll p)) (hr : Program.Every returnsLast p)
    (hq : Stmt.outlines q = Stmt.outlines (Stmt.canonicalAll p))
    (hfits : Outline.FitsAll maxDepth (Stmt.outlines p)) (hfits' : Outline.FitsAll maxDepth (Stmt.outlines q))
    (mark mark' : String) : (Graph.ofProgram layout p mark).Survives (Graph.ofProgram layout q mark') := by
  have hrequoted := hq.trans (Stmt.outlines_canonicalAll p hr.2 fun _ => hr.1)
  constructor
  · rw [length_nodes_remark layout q mark mark', ofProgram_eq_requoted layout hrequoted]
    exact List.length_map _
  · rw [length_edges_remark layout q mark mark', ofProgram_eq_requoted layout hrequoted]
    rfl
  · rw [sequence_ofProgram hl, sequence_ofProgram hl, hrequoted]
    exact Outline.map_fst_steps_requotedAll _ _ _
  · exact Rendered.text_of_outlines hl h hq hfits hfits' ""

/-- The text of the graph of a program is read as a program with the same graph, up to the escapes of quoted values,
unless it nests too deep; and that graph has the same text. -/
theorem Program.reread_text {s : String} {firstLine : Nat} {p : Program}
    (h : Program.parse (tokenize s firstLine) = .ok p) (hr : Program.Every rereadable p) (mark mark' : String) :
    (∃ line, Program.parse (tokenize (Rendered.ofGraph {} (Graph.ofProgram (.ofSpacing {}) p mark) "").text) =
        .error (.tooDeep maxDepth line)) ∨
      ∃ q, Program.parse (tokenize (Rendered.ofGraph {} (Graph.ofProgram (.ofSpacing {}) p mark) "").text) = .ok q ∧
        (Graph.ofProgram (.ofSpacing {}) p mark).Survives (Graph.ofProgram (.ofSpacing {}) q mark') := by
  have hl := Layout.descends_ofSpacing
  have hseparable := rereadable_imply_separable.program hr hr
  have hp := Program.every_printable h hseparable
  have hwritable := Stmt.WritableAll.of_program hp (rereadable_imply_unbroken.program hr hr)
  have hwritten := separable_settles.program ((Rules.imply_and _ _).program hp hseparable)
  have hfits := Program.fits_of_parse h
  have hspells := Rendered.spells_ofProgram hl hwritable hfits mark
  refine (Program.parse_of_spells_canonical separable_separates ((Rules.and_imply_left _ _).program hwritten hwritten)
    ((Rules.and_imply_right _ _).program hwritten hwritten) hspells 1).imp_right ?_
  rintro ⟨q, hq, hout⟩
  exact ⟨q, hq, Graph.survives_of_outlines hl hwritable (rereadable_imply_returnsLast.program hr hr) hout hfits
    (Program.fits_of_parse hq) mark mark'⟩

theorem Program.reread_text_quote : ∃ p,
    Program.parse (tokenize "while a do print(\"it's\") end") = .ok p ∧ Program.Every rereadable p ∧
    ((∃ line, Program.parse (tokenize (Rendered.ofGraph {} (Graph.ofProgram (.ofSpacing {}) p "-91d3a6f0") "").text) =
        .error (.tooDeep maxDepth line)) ∨
      ∃ q, Program.parse (tokenize (Rendered.ofGraph {} (Graph.ofProgram (.ofSpacing {}) p "-91d3a6f0") "").text) =
          .ok q ∧
        (Graph.ofProgram (.ofSpacing {}) p "-91d3a6f0").Survives (Graph.ofProgram (.ofSpacing {}) q "-0c7d41f2")) := by
  have h : Program.parse (tokenize "while a do print(\"it's\") end") = .ok [.mk 1 (.whileLoop (.identifier "a")
      [.mk 1 (.evaluate (.call (.identifier "print") [.string "it's" '"']))])] := by decide +kernel
  have hr : Program.Every rereadable [.mk 1 (.whileLoop (.identifier "a")
      [.mk 1 (.evaluate (.call (.identifier "print") [.string "it's" '"']))])] := by
    simp only [Program.Every, Stmt.EveryAll, Stmt.Every, Action.Every, Expr.Every, Expr.EveryAll,
      rereadable, ReturnLast, List.dropLast_singleton, List.not_mem_nil, false_implies, implies_true, and_true,
      true_and]
    decide
  exact ⟨_, h, hr, Program.reread_text h hr _ _⟩

end ScriptGraph
