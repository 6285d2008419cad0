import ScriptGraph.Proofs.Indentation
import ScriptGraph.Proofs.Requoting

namespace ScriptGraph

open Lexeme

/-- The text holds no comment, no string without its closing quote, and no word that opens or closes a block. -/
def Inert (s : String) : Prop :=
  ∀ l ∈ lexemesOf (pieces s.toList), l.isLoose = false ∧ l.opens = false ∧ l.closes = false

instance (s : String) : Decidable (Inert s) := inferInstanceAs (Decidable (∀ l ∈ _, _))

theorem sealed_iff {cs : List Char} {k : Int} :
    Sealed cs k ↔ (∀ l ∈ lexemesOf (pieces cs), l.isLoose = false) ∧ level cs = k :=
  ⟨fun h => ⟨h.closed, h.level_eq⟩, fun h => ⟨h.1, h.2⟩⟩

instance (cs : List Char) (k : Int) : Decidable (Sealed cs k) := decidable_of_iff _ sealed_iff.symm

theorem Inert.sealed {s : String} (h : Inert s) : Sealed s.toList 0 := by
  refine ⟨fun l hl => (h l hl).1, ?_⟩
  have hopens : (lexemesOf (pieces s.toList)).countP opens = 0 :=
    List.countP_eq_zero.mpr fun l hl => by simp [(h l hl).2.1]
  have hcloses : (lexemesOf (pieces s.toList)).countP closes = 0 :=
    List.countP_eq_zero.mpr fun l hl => by simp [(h l hl).2.2]
  rw [level, excess, hopens, hcloses]
  rfl

namespace Sealed

variable {cs : List Char} {k : Int}

theorem dropWhile (h : Sealed cs k) : Sealed (cs.dropWhile Text.isBlank) k := by
  induction cs with
  | nil => exact h
  | cons c cs ih =>
    by_cases hc : Text.isBlank c = true
    · rw [List.dropWhile_cons_of_pos hc]
      exact ih (h.of_gap (first?_of_isBlank hc cs))
    · rwa [List.dropWhile_cons_of_neg hc]

theorem trimEnd (h : Sealed cs k) : Sealed (Text.trimEndChars cs) k := by
  obtain ⟨blanks, hcs, hblanks⟩ := Text.exists_trimEndChars cs
  have hlevel := level_append_blanks (Text.trimEndChars cs) hblanks
  rw [← hcs, h.level_eq] at hlevel
  refine ⟨?_, hlevel.symm⟩
  have hclosed := h.closed
  rcases lexemesOf_pieces_append_blanks (Text.trimEndChars cs) hblanks with
    hsame | ⟨ls, l, m, -, hm, hloose, hkind, hopen⟩
  · rw [← hcs] at hsame
    rwa [hsame] at hclosed
  · -- a comment or an open string would still be one with the blanks
    rw [← hcs] at hm
    have hm' : m.isLoose = false := hclosed m (by simp [hm])
    have hsame : m.isLoose = true := by
      rcases Bool.or_eq_true_iff.mp hloose with hcomment | hstring
      · simpa [isLoose, hkind] using Or.inl (by simpa using hcomment)
      · have hk : l.kind = .string := by simpa using (Bool.and_eq_true_iff.mp hstring).1
        simp [isLoose, hopen hk]
    rw [hsame] at hm'
    cases hm'

theorem trim {s : String} (h : Sealed s.toList k) : Sealed (Text.trim s).toList k := by
  rw [Text.trim, String.toList_ofList]
  exact h.dropWhile.trimEnd

/-- A literal for any string. -/
theorem quoted (s : String) : Sealed (Text.quoted s).toList 0 := by
  have hbody := IsEscaped.quotedBody s.toList
  have hwhole : (literal (String.ofList (Text.quotedBody s.toList)) '\'').Whole :=
    .literal _ _ (by simpa using hbody.isContent) (by simpa using hbody.dangles_eq_false)
  have hspells : Spells (Text.quoted s).toList [literal (String.ofList (Text.quotedBody s.toList)) '\''] none := by
    have hlexeme := Spells.lexeme hwhole (@endsBefore_literal _ _ none)
    simpa [Text.quoted, literal] using hlexeme
  have hlexemes := hspells.lexemesOf_pieces
  refine ⟨?_, ?_⟩
  · rw [hlexemes]
    exact List.forall_mem_singleton.mpr (by simp [isLoose, isUnclosed, literal])
  · rw [level, hlexemes]
    exact excess_of_kind (by simp [literal])

end Sealed

/-- The words that statements are made of and what stands for missing data, with the blocks that each opens. -/
@[simp] def Emission.words : List (String × Int) :=
  [("function", 1), ("if", 1), ("do", 1), ("end", -1)] ++
    ["local", "while", "for", "in", "=", "return", "then", "else", "elseif"].map (·, 0) ++
    ["myFunction", "true", "i", "1", "10", "_, value", "pairs(\x7b\x7d)", "myVar", "nil"].map (·, 0)

theorem Emission.sealed_words : ∀ word ∈ words, Sealed word.1.toList word.2 := by
  decide +kernel

theorem sealed_word (s : String) (k : Int) (h : (s, k) ∈ Emission.words) : Sealed s.toList k :=
  Emission.sealed_words (s, k) h

/-- The field that an argument is copied from, unless it is quoted. -/
def Arg.plainKey? : Arg → Option String
  | .handler .. => some handlerParams
  | .field f => if f.style = .quoted then none else some f.name

/-- The fields of a node of this kind that are copied into its text: conditions, names, values, parameters and the
arguments that are not quoted. -/
def NodeKind.plainKeys (n : Node) : NodeKind → List String
  | .function => ["functionName", "parameters"]
  | .conditional | .whileLoop => ["condition"]
  | .forLoop => ["loopVar", "startVal", "endVal", "step"]
  | .forEach => ["variables", "iterable"]
  | .giveBack => ["returnValue"]
  | .declaration => ["varName", "varValue"]
  | .code => []
  | .call first => (n.catalogued?.getD first).args.filterMap Arg.plainKey?

def Node.plainKeys (n : Node) : List String := ((NodeKind.ofTag? n.kind).map (NodeKind.plainKeys n)).getD []

/-- The data of the fields are inert. -/
def Node.InertIn (n : Node) (keys : List String) : Prop := ∀ key ∈ keys, ∀ s ∈ n.text? key, Inert s

instance (n : Node) (keys : List String) : Decidable (n.InertIn keys) := inferInstanceAs (Decidable (∀ key ∈ keys, _))

/-- The node has no code of its own, its id fits into a comment, and what is copied from it is inert. -/
structure Node.IsPlain (n : Node) : Prop where
  code : n.codeBlock? = none
  id : '\n' ∉ n.id.toList
  data : n.InertIn n.plainKeys

instance (n : Node) : Decidable n.IsPlain :=
  decidable_of_iff (n.codeBlock? = none ∧ '\n' ∉ n.id.toList ∧ n.InertIn n.plainKeys)
    ⟨fun h => ⟨h.1, h.2.1, h.2.2⟩, fun h => ⟨h.code, h.id, h.data⟩⟩

namespace Node.InertIn

variable {n : Node} {keys : List String} {key : String}

theorem text (h : n.InertIn keys) (hk : key ∈ keys) {s : String} (hs : n.text? key = some s) : Sealed s.toList 0 :=
  (h key hk s hs).sealed

theorem filled (h : n.InertIn keys) (hk : key ∈ keys) {s : String} (hs : n.filled? key = some s) : Sealed s.toList 0 :=
  h.text hk (Option.filter_eq_some_iff.mp hs).1

theorem textOr (h : n.InertIn keys) (key fallback : String) (hk : key ∈ keys) (hf : (fallback, 0) ∈ Emission.words) :
    Sealed (n.textOr key fallback).toList 0 := by
  rw [Node.textOr]
  cases hs : n.filled? key with
  | none => exact sealed_word fallback 0 hf
  | some s => exact h.filled hk hs

end Node.InertIn

/-- The texts by which the node is written are sealed, and those around a block open and close just that. -/
def Emission.IsSealed (n : Node) : Emission → Prop
  | line text | terminal text => Sealed text.toList 0
  | block opener closer => Sealed opener.toList 1 ∧ Sealed closer.toList (-1)
  | conditional => Sealed (Graph.conditionText n).toList 0
  | skip => True

section Statements

variable {n : Node}

theorem Sealed.spaced {as bs : List Char} {j k : Int} (ha : Sealed as j) (hb : Sealed bs k) :
    Sealed (as ++ ' ' :: bs) (j + k) :=
  ha.join rfl hb

theorem Sealed.comma {as bs : List Char} {j k : Int} (ha : Sealed as j) (hb : Sealed bs k) :
    Sealed (as ++ ',' :: ' ' :: bs) (j + k) :=
  ha.join rfl (hb.cons rfl)

/-- The head of a loop. -/
theorem Sealed.upto_do {cs : List Char} (h : Sealed cs 0) : Sealed (cs ++ " do".toList) 1 :=
  h.spaced (sealed_word "do" 1 (by simp))

theorem sealed_function (h : n.InertIn ["functionName", "parameters"]) : (Emission.ofKind n .function).IsSealed n := by
  have hname := h.textOr "functionName" "myFunction" (by simp) (by simp)
  have hparams : Sealed ((n.text? "parameters").getD "").toList 0 := by
    cases hs : n.text? "parameters" with
    | none => exact .nil
    | some s => exact h.text (by simp) hs
  have hfunction := ((sealed_word "function" 1 (by simp)).spaced hname).join (c := '(') rfl
    (hparams.trim.join (c := ')') rfl .nil)
  refine ⟨?_, sealed_word "end" (-1) (by simp)⟩
  split
  · simpa using (sealed_word "local" 0 (by simp)).spaced hfunction
  · simpa using hfunction

theorem sealed_conditional (h : n.InertIn ["condition"]) : (Emission.ofKind n .conditional).IsSealed n :=
  h.textOr "condition" "true" (by simp) (by simp)

theorem sealed_whileLoop (h : n.InertIn ["condition"]) : (Emission.ofKind n .whileLoop).IsSealed n := by
  have hcondition := h.textOr "condition" "true" (by simp) (by simp)
  have hwhile := (sealed_word "while" 0 (by simp)).spaced hcondition
  exact ⟨by simpa using hwhile.upto_do, sealed_word "end" (-1) (by simp)⟩

theorem sealed_forLoop (h : n.InertIn ["loopVar", "startVal", "endVal", "step"]) :
    (Emission.ofKind n .forLoop).IsSealed n := by
  have hvar := h.textOr "loopVar" "i" (by simp) (by simp)
  have hstart := h.textOr "startVal" "1" (by simp) (by simp)
  have hend := h.textOr "endVal" "10" (by simp) (by simp)
  have hrange := ((sealed_word "for" 0 (by simp)).spaced hvar).spaced
    ((sealed_word "=" 0 (by simp)).spaced (hstart.comma hend))
  refine ⟨?_, sealed_word "end" (-1) (by simp)⟩
  cases hs : n.filled? "step" with
  | none => simpa using hrange.upto_do
  | some step =>
    have hstep := hrange.comma (h.filled (by simp) hs)
    simpa using hstep.upto_do

theorem sealed_forEach (h : n.InertIn ["variables", "iterable"]) : (Emission.ofKind n .forEach).IsSealed n := by
  have hvars := h.textOr "variables" "_, value" (by simp) (by simp)
  have hiterable := h.textOr "iterable" "pairs(\x7b\x7d)" (by simp) (by simp)
  have hfor := ((sealed_word "for" 0 (by simp)).spaced hvars).spaced
    ((sealed_word "in" 0 (by simp)).spaced hiterable)
  exact ⟨by simpa using hfor.upto_do, sealed_word "end" (-1) (by simp)⟩

theorem sealed_giveBack (h : n.InertIn ["returnValue"]) : (Emission.ofKind n .giveBack).IsSealed n := by
  rw [Emission.ofKind]
  cases hs : n.filled? "returnValue" with
  | none => exact sealed_word "return" 0 (by simp)
  | some value =>
    have hreturn := (sealed_word "return" 0 (by simp)).spaced (h.filled (by simp) hs)
    simpa [Emission.IsSealed] using hreturn

theorem sealed_declaration (h : n.InertIn ["varName", "varValue"]) : (Emission.ofKind n .declaration).IsSealed n := by
  have hname := h.textOr "varName" "myVar" (by simp) (by simp)
  have hvalue := h.textOr "varValue" "nil" (by simp) (by simp)
  have hlocal := (sealed_word "local" 0 (by simp)).spaced (hname.spaced
    ((sealed_word "=" 0 (by simp)).spaced hvalue))
  simpa [Emission.ofKind, Emission.IsSealed] using hlocal

end Statements

namespace Sealed

variable {cs : List Char} {k : Int} {texts : List String}

theorem append_commaed (h : Sealed cs k) (ht : ∀ text ∈ texts, Sealed text.toList 0) :
    Sealed (cs ++ (Text.commaed texts).toList) k := by
  induction texts generalizing cs with
  | nil => simpa using h
  | cons text texts ih =>
    obtain ⟨htext, htexts⟩ := List.forall_mem_cons.mp ht
    have hnext := h.comma htext
    rw [Int.add_zero] at hnext
    simpa using ih hnext htexts

theorem join_append (h : Sealed cs k) (ht : ∀ text ∈ texts, Sealed text.toList 0) :
    Sealed ((String.join (texts.map (· ++ ", "))).toList ++ cs) k := by
  induction texts with
  | nil => simpa using h
  | cons text texts ih =>
    obtain ⟨htext, htexts⟩ := List.forall_mem_cons.mp ht
    have hnext := htext.comma (ih htexts)
    rw [Int.zero_add] at hnext
    simpa [String.join_cons] using hnext

theorem intercalate (ht : ∀ text ∈ texts, Sealed text.toList 0) : Sealed (", ".intercalate texts).toList 0 := by
  cases texts with
  | nil => exact .nil
  | cons text texts =>
    obtain ⟨htext, htexts⟩ := List.forall_mem_cons.mp ht
    have hsplit := Text.commaed_eq_intercalate (List.cons_ne_nil text texts)
    rw [Text.commaed_cons, String.append_assoc, String.append_right_inj] at hsplit
    rw [← hsplit, String.toList_append]
    exact htext.append_commaed htexts

end Sealed

/-- What is written for an argument on which the node has no data. -/
def Arg.fallback : Arg → String
  | .handler params _ => params
  | .field f => f.default

theorem Catalogue.sealed_texts : ∀ e ∈ entries,
    Sealed e.callee.toList 0 ∧ ∀ arg ∈ e.args, Sealed arg.fallback.toList 0 := by
  decide +kernel

namespace CallText

variable {n : Node} {keys : List String}

theorem sealed_fieldText? (h : n.InertIn keys) {f : FieldSpec} (hk : ∀ key ∈ (Arg.field f).plainKey?, key ∈ keys)
    (hf : Sealed f.default.toList 0) : ∀ text ∈ fieldText? n f, Sealed text.toList 0 := by
  intro text htext
  rw [Option.mem_def, fieldText?] at htext
  split at htext
  · -- a quoted field may hold anything
    split at htext
    · obtain rfl := Option.some.inj htext
      exact .quoted _
    · split at htext
      · cases htext
      · obtain rfl := Option.some.inj htext
        exact .quoted _
  all_goals
    rename_i hstyle
    have hmem : f.name ∈ keys := hk f.name (by simp [Arg.plainKey?, hstyle])
    split at htext
    · rename_i hs
      obtain rfl := Option.some.inj htext
      exact h.filled hmem hs
    · split at htext
      · cases htext
      · obtain rfl := Option.some.inj htext
        exact hf

/-- The arguments and parameters that are found so far are sealed. -/
structure Parts.IsSealed (p : Parts) : Prop where
  before : ∀ text ∈ p.before, Sealed text.toList 0
  params : ∀ text ∈ p.params, Sealed text.toList 0
  behind : ∀ text ∈ p.behind, Sealed text.toList 0

namespace Parts.IsSealed

variable {p : Parts}

theorem add (hp : p.IsSealed) (h : n.InertIn keys) {arg : Arg} (hk : ∀ key ∈ arg.plainKey?, key ∈ keys)
    (hf : Sealed arg.fallback.toList 0) : (p.add n arg).IsSealed := by
  cases arg with
  | handler params optional =>
    have hparams {s : String} (hs : Sealed s.toList 0) : ({ p with params := some s } : Parts).IsSealed :=
      ⟨hp.before, by simpa using hs, hp.behind⟩
    rw [Parts.add]
    split
    · rename_i hs
      exact hparams (h.text (hk _ rfl) hs)
    · split
      · exact hp
      · exact hparams hf
  | field f =>
    have htext := sealed_fieldText? h hk hf
    rw [Parts.add]
    split
    · exact hp
    · rename_i text hs
      have hone : ∀ text' ∈ [text], Sealed text'.toList 0 := List.forall_mem_singleton.mpr (htext text hs)
      split
      · exact ⟨hp.before, hp.params, List.forall_mem_append.mpr ⟨hp.behind, hone⟩⟩
      · exact ⟨List.forall_mem_append.mpr ⟨hp.before, hone⟩, hp.params, hp.behind⟩

theorem foldl (hp : p.IsSealed) (h : n.InertIn keys) {args : List Arg}
    (hk : ∀ arg ∈ args, ∀ key ∈ arg.plainKey?, key ∈ keys) (hf : ∀ arg ∈ args, Sealed arg.fallback.toList 0) :
    (args.foldl (Parts.add n) p).IsSealed := by
  induction args generalizing p with
  | nil => exact hp
  | cons arg args ih =>
    obtain ⟨hk, hks⟩ := List.forall_mem_cons.mp hk
    obtain ⟨hf, hfs⟩ := List.forall_mem_cons.mp hf
    exact ih (hp.add h hk hf) hks hfs

end Parts.IsSealed

end CallText

theorem sealed_call {n : Node} {e : Entry} (he : e ∈ Catalogue.entries)
    (h : n.InertIn (e.args.filterMap Arg.plainKey?)) : (Emission.ofCallText (.ofNode e n)).IsSealed n := by
  obtain ⟨hcallee, hfallback⟩ := Catalogue.sealed_texts e he
  have hparts : (e.args.foldl (CallText.Parts.add n) {}).IsSealed :=
    CallText.Parts.IsSealed.foldl ⟨by simp, by simp, by simp⟩ h
      (fun arg harg key hkey => List.mem_filterMap.mpr ⟨arg, harg, hkey⟩) hfallback
  rw [CallText.ofNode]
  split
  · have hcall := hcallee.join (c := '(') rfl ((Sealed.intercalate hparts.before).join (c := ')') rfl .nil)
    simpa [Emission.ofCallText, Emission.IsSealed] using hcall
  · rename_i params hs
    have hhandler := (sealed_word "function" 1 (by simp)).join (c := '(') rfl
      ((hparts.params params hs).join (c := ')') rfl .nil)
    have hopener := hcallee.join (c := '(') rfl (hhandler.join_append hparts.before)
    have hcloser := ((sealed_word "end" (-1) (by simp)).append_commaed hparts.behind).join (c := ')') rfl .nil
    refine ⟨by simpa using hopener, ?_⟩
    simpa [Text.commaed] using hcloser

theorem NodeKind.mem_entries_of_ofTag? {tag : String} {first : Entry} (h : ofTag? tag = some (.call first)) :
    first ∈ Catalogue.entries := by
  obtain ⟨hk, -⟩ | ⟨_, hfirst, hk⟩ := ofTag?_cases h
  · simp [structural] at hk
  · obtain rfl := NodeKind.call.inj hk
    exact (Catalogue.mem_ofKind hfirst).1

/-- A node without code of its own is written by sealed texts, if what is copied from it is inert. -/
theorem Emission.isSealed_ofNode {n : Node} (hcode : n.codeBlock? = none) (h : n.InertIn n.plainKeys) :
    (Emission.ofNode n).IsSealed n := by
  rw [Emission.ofNode, hcode]
  rw [Node.plainKeys] at h
  cases hkind : NodeKind.ofTag? n.kind with
  | none => exact trivial
  | some kind =>
    rw [hkind] at h
    cases kind with
    | function => exact sealed_function h
    | conditional => exact sealed_conditional h
    | code => exact trivial
    | whileLoop => exact sealed_whileLoop h
    | forLoop => exact sealed_forLoop h
    | forEach => exact sealed_forEach h
    | giveBack => exact sealed_giveBack h
    | declaration => exact sealed_declaration h
    | call first =>
      refine sealed_call ?_ h
      cases he : n.catalogued? with
      | none => exact NodeKind.mem_entries_of_ofTag? hkind
      | some e => exact (Catalogue.mem_ofKind (Node.mem_of_catalogued? he)).1

end ScriptGraph
