import ScriptGraph.Document
import ScriptGraph.Proofs.BelowHeaders
import ScriptGraph.Proofs.Formatting
import ScriptGraph.Proofs.TextRoundTrip

namespace ScriptGraph

open Lexeme

/-- Blanks above a text are no part of what it spells. -/
theorem Spells.of_blanks_append {as bs : List Char} {ls : List Lexeme} {next : Option Char}
    (h : Spells (as ++ bs) ls next) (ha : as.all Text.isBlank = true) : Spells bs ls next := by
  have hdrop := h.dropBlanks
  rw [List.dropWhile_append_of_pos (List.all_eq_true.mp ha)] at hdrop
  have hblank : (bs.takeWhile Text.isBlank).all Text.isBlank = true := List.all_takeWhile
  have hspells := Spells.blanks_append hblank hdrop
  rwa [List.takeWhile_append_dropWhile] at hspells

/-- What lets the text of a program be read as what was written: the written statements can be stacked, and no string
of a block that is indented goes over the end of a line. -/
structure Program.Stackable (p : Program) : Prop where
  stacked : Program.Every stackable (Stmt.canonicalAll p)
  indented : ∀ s ∈ Stmt.canonicalAll p, ∀ body ∈ s.action.indented, Stmt.EveryAll unbroken body

theorem Program.Stackable.every_printable {p : Program} (h : p.Stackable) (hp : Program.Every legible p) :
    Program.Every printable (Stmt.canonicalAll p) :=
  (imply_printable fun _ _ h => h).program (legible_settles.program hp) h.stacked

theorem Program.Stackable.writable {p : Program} (h : p.Stackable)
    (hp : Program.Every printable (Stmt.canonicalAll p)) :
    Stmt.WritableAll true (Stmt.canonicalAll p) := by
  refine ⟨(printable_imply_writable.program hp hp).2, fun s hs body hbody => ?_⟩
  have hprintable := (Stmt.everyAll_iff.mp hp.2 s hs).action_every.indented body hbody
  have hunbroken := h.indented s hs body hbody
  rw [Stmt.everyAll_iff] at hprintable hunbroken ⊢
  exact fun t ht => (imply_writable false).cases.statement t (hprintable t ht) (hunbroken t ht)

/-- The token with which the written program starts. -/
def Program.leadToken (p : Program) : Token :=
  (p.head?.map (·.action.canonical.leadToken)).getD (.endOfInput 0 0)

namespace Header

end Header

/-- The first token of a text stands behind blanks. -/
theorem placed_eq_cons {ps : List Piece} {next : Option Char} (hp : Clean ps next) {l : Lexeme} {ls : List Lexeme}
    (hl : lexemesOf ps = l :: ls) (p : Place) : ∃ as bs ts, sourceOf ps = as ++ bs ∧ as.all Text.isBlank = true ∧
      placed p ps = l.token (p.after as) :: ts := by
  induction ps generalizing p with
  | nil => cases hl
  | cons q ps ih =>
    cases q with
    | gap c =>
      obtain ⟨as, bs, ts, hsource, has, hts⟩ := ih hp.2 hl (p.step c)
      refine ⟨c :: as, bs, ts, ?_, ?_, hts⟩
      · rw [sourceOf_gap, hsource, List.cons_append]
      · rw [List.all_cons, hp.1, has]
        rfl
    | lexeme l' =>
      obtain ⟨rfl, -⟩ := List.cons.inj hl
      exact ⟨[], sourceOf (.lexeme l' :: ps), _, rfl, rfl, rfl⟩

theorem Spells.exists_first {text : String} {ls : List Lexeme} (h : Spells text.toList ls none) (hne : ls ≠ []) :
    ∃ as bs b ts, text.toList = as ++ bs ∧ as.all Text.isBlank = true ∧ tokenize text = b :: ts ∧
      b.line = 1 + as.count '\n' := by
  obtain ⟨l, ls, rfl⟩ := List.exists_cons_of_ne_nil hne
  have hkind := Lexeme.kind_ne_comment_of_whole (h.whole l List.mem_cons_self)
  obtain ⟨ps, hsource, hl, hp⟩ := h
  obtain ⟨as, bs, ts, happend, has, hts⟩ := placed_eq_cons hp hl ⟨1, 1⟩
  have hpieces : pieces text.toList = ps := by rw [← hsource, pieces_sourceOf hp]
  have htokens : tokenize text = l.token (Place.after ⟨1, 1⟩ as) :: ts.filter (·.kind ≠ .comment) := by
    rw [tokenize, rawTokens, Nat.max_self, hpieces, hts]
    exact List.filter_cons_of_pos (decide_eq_true hkind)
  exact ⟨as, bs, _, _, hsource.symm.trans happend, has, htokens, Place.line_after _ as⟩

/-- The written body goes on where the script was cut: only blanks stand above its first action, and below a header
there is one. -/
structure SourceParts.Resumes (header body : String) : Prop where
  blank : Text.isBlankText (ofText body).header = true
  action : header ≠ "" → Header.firstRootLine {} (tokenize body) ≠ none

namespace SourceParts

variable {header body : String} {next : Token}

/-- The body that goes on where the script was cut spells what the written body does. -/
theorem Resumes.spells_body (h : Resumes header body) (hc : Header.Closed header next)
    (hbody : header ≠ "" → next.Leads body) {ls : List Lexeme}
    (hs : Spells body.toList ls none) : Spells (ofText (Rendered.above header ++ body)).body.toList ls none := by
  cases hfound : Header.firstRootLine {} (tokenize body) with
  | none =>
    have hempty : header = "" := by
      by_contra hne
      exact h.action hne hfound
    rw [ofText_above_none hc hbody hfound, Rendered.above, if_pos hempty, String.empty_append]
    exact hs
  | some line =>
    have happend := header_append_body body
    rw [← happend, String.toList_append] at hs
    rw [(ofText_above hc hbody hfound).2]
    exact hs.of_blanks_append h.blank

end SourceParts

namespace Reading

variable {s : String}

end Reading

end ScriptGraph
