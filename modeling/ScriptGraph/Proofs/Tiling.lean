import Mathlib.Data.List.Infix
import ScriptGraph.Proofs.Boundaries

namespace ScriptGraph

namespace Lexeme

/-- The characters that some lexeme starts with. -/
def isStart (c : Char) : Bool :=
  isLetter c || isDigit c || ['"', '\'', '~'].contains c || shortOperators.contains c || marks.contains c

/-- Operators of several characters start like one of a single character, or with a tilde. -/
theorem head_mem_of_longOperators : ∀ op ∈ longOperators, ∀ c ∈ op.head?, c ∈ shortOperators ∨ c = '~' := by
  simp [longOperators, shortOperators]

theorem isStart_of_symbol? {c : Char} {cs : List Char} {l : Lexeme} (h : symbol? c cs = some l) :
    isStart c = true := by
  unfold symbol? at h
  split at h
  · rename_i op hop
    have hfits := List.find?_some hop
    have hpre : op <+: c :: cs := List.isPrefixOf_iff_prefix.mp hfits
    have hmem := List.mem_of_find?_eq_some hop
    cases op with
    | nil => exact absurd hmem (by decide)
    | cons d op =>
      obtain rfl : d = c := (List.cons_prefix_cons.mp hpre).1
      rcases head_mem_of_longOperators _ hmem d rfl with hshort | rfl
      · simp [isStart, hshort]
      · rfl
  split at h
  · rename_i hshort
    simp only [isStart, hshort, Bool.or_true, Bool.true_or]
  split at h
  · rename_i hmark
    simp only [isStart, hmark, Bool.or_true]
  · cases h

theorem isStart_of_first? {c : Char} {cs : List Char} {l : Lexeme} (h : first? c cs = some l) :
    isStart c = true := by
  unfold first? at h
  split at h
  · rename_i hdash
    obtain rfl : c = '-' := by simpa using (Bool.and_eq_true_iff.mp hdash).1
    rfl
  split at h
  · rename_i hquote
    have hc : c = '"' ∨ c = '\'' := by simpa using hquote
    rcases hc with rfl | rfl <;> rfl
  split at h
  · rename_i hnumber
    rcases Bool.or_eq_true_iff.mp hnumber with hdigit | hdot
    · simp [isStart, hdigit]
    · obtain rfl : c = '.' := by simpa using (Bool.and_eq_true_iff.mp hdot).1
      rfl
  split at h
  · rename_i hletter
    simp [isStart, hletter]
  · exact isStart_of_symbol? h

/-- A start character starts a lexeme whatever follows, but a tilde needs an equals sign. -/
theorem isSome_first? {c : Char} (h : isStart c = true) {cs : List Char} (ht : c = '~' → cs.head? = some '=') :
    (first? c cs).isSome = true := by
  unfold first?
  split
  · rfl
  split
  · rfl
  split
  · rfl
  split
  · rfl
  · rename_i _ hquote hnumber hletter
    unfold symbol?
    split
    · rfl
    rename_i hlong
    split
    · rfl
    split
    · rfl
    -- only the tilde is left, and it stands before its equals sign
    · rename_i hshort hmark
      have hdigit : ¬ isDigit c = true := by
        intro hd
        simp [hd] at hnumber
      have htilde : c = '~' := by
        simp only [isStart, hdigit, hletter, hshort, hmark, Bool.or_false, Bool.false_or] at h
        simp_all
      subst htilde
      obtain ⟨cs, rfl⟩ := List.head?_eq_some_iff.mp (ht rfl)
      simp [longOperators, List.isPrefixOf] at hlong

theorem isStart_iff {c : Char} : isStart c = true ↔ ∃ cs l, first? c cs = some l := by
  constructor
  · intro h
    obtain ⟨l, hl⟩ := Option.isSome_iff_exists.mp (@isSome_first? c h ['='] fun _ => rfl)
    exact ⟨['='], l, hl⟩
  · rintro ⟨cs, l, hl⟩
    exact isStart_of_first? hl

def opener (level : Nat) : List Char := '[' :: List.replicate level '=' ++ ['[']

def closer (level : Nat) : List Char := ']' :: List.replicate level '=' ++ [']']

theorem longBracketLevel?_eq_some_iff {cs : List Char} {level : Nat} :
    longBracketLevel? cs = some level ↔ opener level <+: cs := by
  constructor
  · intro h
    unfold longBracketLevel? at h
    split at h
    · rename_i cs
      simp only [Option.ite_none_right_eq_some, Option.some.injEq] at h
      obtain ⟨hhead, hlevel⟩ := h
      rw [hlevel] at hhead
      obtain ⟨rest, hrest⟩ := List.head?_eq_some_iff.mp hhead
      have hsigns : cs.takeWhile (· = '=') = List.replicate level '=' := by
        refine List.eq_replicate_iff.mpr ⟨hlevel, fun c hc => ?_⟩
        simpa using List.mem_takeWhile_imp hc
      obtain ⟨tail, htail⟩ := List.takeWhile_prefix (l := cs) (· = '=')
      have htail' : tail = '[' :: rest := by
        rw [← hrest, ← htail, hsigns, List.drop_left' List.length_replicate]
      refine ⟨rest, ?_⟩
      rw [← htail, hsigns, htail', opener]
      simp
    · cases h
  · rintro ⟨rest, rfl⟩
    have hsigns : (List.replicate level '=' ++ '[' :: rest).takeWhile (· = '=') = List.replicate level '=' := by
      rw [List.takeWhile_append_of_pos (by simp)]
      simp
    simp [opener, longBracketLevel?, hsigns]

/-- The mark a text is divided at does not occur before it. -/
theorem not_infix_splitBefore {mark : List Char} (hmark : mark ≠ []) (cs : List Char) :
    ¬ mark <:+: (splitBefore mark cs).1 := by
  induction cs with
  | nil =>
    intro h
    exact hmark (List.infix_nil.mp h)
  | cons c cs ih =>
    rw [splitBefore]
    split
    · intro h
      exact hmark (List.infix_nil.mp h)
    · rename_i hp
      intro h
      rcases List.infix_cons_iff.mp h with hfront | hlater
      · have hbefore : c :: (splitBefore mark cs).1 <+: c :: cs :=
          (List.prefix_cons_inj c).mpr ⟨_, splitBefore_append mark cs⟩
        exact hp (List.isPrefixOf_iff_prefix.mpr (hfront.trans hbefore))
      · exact ih hlater

end Lexeme

/-- Does the text end here, or at least the line? -/
def endsLine (cs : List Char) : Prop := cs.head?.all (· = '\n') = true

open Lexeme

/-- The token is written as `slice` in front of `rest`. A string may lack its closing quote only at the end of a line,
a long comment its closing bracket only at the end of the text. -/
def Token.CutFrom (t : Token) (slice rest : List Char) : Prop :=
  Cut t.kind t.text.toList t.quote ∧
  match t.kind with
  | .string => ∃ q, t.quote = some q ∧
      (slice = q :: t.text.toList ++ [q] ∨ slice = q :: t.text.toList ∧ endsLine rest)
  | .comment =>
      (slice = '-' :: '-' :: t.text.toList ∧ '\n' ∉ t.text.toList ∧ (∀ level, ¬ opener level <+: t.text.toList) ∧
        endsLine rest) ∨
      ∃ level, ¬ closer level <:+: t.text.toList ∧
        (slice = '-' :: '-' :: opener level ++ t.text.toList ++ closer level ∨
          slice = '-' :: '-' :: opener level ++ t.text.toList ∧ rest = [])
  | _ => slice = t.text.toList

namespace Lexeme

theorem drop_length_of_append {as bs cs : List Char} (h : as ++ bs = cs) : cs.drop as.length = bs := by
  rw [← h, List.drop_left]

theorem endsLine_takeWhile (cs : List Char) : endsLine (cs.drop (cs.takeWhile (· ≠ '\n')).length) := by
  induction cs with
  | nil => rfl
  | cons c cs ih =>
    by_cases hc : c = '\n'
    · simp [endsLine, hc]
    · simpa [hc] using ih

/-- A string's content stops at the quote or where the line does. -/
theorem stringBody_stops (quote : Char) (cs : List Char) :
    (cs.drop (stringBody quote cs).length).head? = some quote ∨ endsLine (cs.drop (stringBody quote cs).length) := by
  fun_induction stringBody quote cs with
  | case1 => exact .inr rfl
  | case2 c cs ih => simpa using ih
  | case3 c cs hpair hstop =>
    have hc : c = quote ∨ c = '\n' := by simpa using hstop
    rcases hc with rfl | rfl
    · exact .inl rfl
    · exact .inr rfl
  | case4 c cs hpair hstop ih => simpa using ih

/-- Only strings and comments are written differently from their text. -/
theorem eq_verbatim_of_first? {c : Char} {cs : List Char} {l : Lexeme} (h : first? c cs = some l)
    (hdash : ¬ (c = '-' ∧ cs.head? = some '-')) (hquote : ¬ (c = '"' ∨ c = '\'')) :
    ∃ kind text, l = verbatim kind text ∧ kind ≠ .string ∧ kind ≠ .comment := by
  unfold first? at h
  rw [if_neg (by simpa using hdash), if_neg (by simpa using hquote)] at h
  split at h
  · obtain rfl := Option.some.inj h
    exact ⟨_, _, rfl, by decide, by decide⟩
  split at h
  · obtain rfl := Option.some.inj h
    exact ⟨_, _, rfl, by split <;> decide, by split <;> decide⟩
  unfold symbol? at h
  split at h
  · obtain rfl := Option.some.inj h
    exact ⟨_, _, rfl, by decide, by decide⟩
  split at h
  · obtain rfl := Option.some.inj h
    exact ⟨_, _, rfl, by decide, by decide⟩
  split at h
  · obtain rfl := Option.some.inj h
    exact ⟨_, _, rfl, by decide, by decide⟩
  · cases h

section CutFrom

variable {c : Char} {cs rest : List Char} (p : Place)

theorem cutFrom_verbatim {kind : TokenKind} {text : List Char} (hcut : Cut kind text none)
    (hstring : kind ≠ .string) (hcomment : kind ≠ .comment) :
    ((verbatim kind text).token p).CutFrom text rest := by
  refine ⟨by simpa [verbatim, token] using hcut, ?_⟩
  cases kind with
  | string => exact absurd rfl hstring
  | comment => exact absurd rfl hcomment
  | _ => simp [verbatim, token]

theorem cutFrom_string (hq : c = '"' ∨ c = '\'') (hrest : (string c cs).source ++ rest = c :: cs) :
    ((string c cs).token p).CutFrom (string c cs).source rest := by
  refine ⟨by simpa [token] using cut_of_first? (first?_quote hq cs), c, rfl, ?_⟩
  simp only [string, token, String.toList_ofList] at hrest ⊢
  by_cases hclosed : (cs.drop (stringBody c cs).length).head? = some c
  · left
    rw [if_pos hclosed]
  · right
    rw [if_neg hclosed, List.append_nil] at hrest ⊢
    have hcs : stringBody c cs ++ rest = cs := (List.cons.inj hrest).2
    have hstop := (stringBody_stops c cs).resolve_left hclosed
    rw [drop_length_of_append hcs] at hstop
    exact ⟨rfl, hstop⟩

theorem cutFrom_comment (hrest : (comment cs).source ++ rest = '-' :: '-' :: cs) :
    ((comment cs).token p).CutFrom (comment cs).source rest := by
  refine ⟨by simp [token, kind_comment, Cut], ?_⟩
  simp only [token, kind_comment, String.toList_ofList]
  unfold comment at hrest ⊢
  cases hlevel : longBracketLevel? cs with
  | none =>
    simp only [hlevel, List.cons_append, List.cons.injEq, true_and] at hrest
    have hends := endsLine_takeWhile cs
    refine .inl ⟨rfl, ?_, ?_, ?_⟩
    · intro hmem
      simpa using List.mem_takeWhile_imp hmem
    · intro level hopen
      rw [longBracketLevel?_eq_some_iff.mpr (hopen.trans (List.takeWhile_prefix _))] at hlevel
      cases hlevel
    · rwa [drop_length_of_append hrest] at hends
  | some level =>
    obtain ⟨tail, rfl⟩ := longBracketLevel?_eq_some_iff.mp hlevel
    have hlen : (opener level).length = level + 2 := by simp [opener]
    refine .inr ⟨level, ?_⟩
    have hmark : closer level ≠ [] := by simp [closer]
    simp only [hlevel, ← hlen, List.drop_left, List.take_left, ← closer.eq_def] at hrest ⊢
    refine ⟨not_infix_splitBefore hmark tail, ?_⟩
    by_cases hfound : (splitBefore (closer level) tail).2 = []
    · right
      have hsplit := splitBefore_append (closer level) tail
      rw [hfound, List.append_nil] at hsplit
      rw [hfound, List.take_nil, List.append_nil] at hrest ⊢
      rw [hsplit] at hrest
      exact ⟨rfl, by simpa using hrest⟩
    · left
      rw [← List.prefix_iff_eq_take.mp (prefix_of_splitBefore hfound)]

theorem cutFrom_of_first? {l : Lexeme} (h : first? c cs = some l) (hrest : l.source ++ rest = c :: cs) :
    (l.token p).CutFrom l.source rest := by
  by_cases hdash : c = '-' ∧ cs.head? = some '-'
  · obtain ⟨rfl, hhead⟩ := hdash
    obtain ⟨cs, rfl⟩ : ∃ ds, cs = '-' :: ds := List.head?_eq_some_iff.mp hhead
    obtain rfl : comment cs = l := Option.some.inj h
    exact cutFrom_comment p hrest
  by_cases hquote : c = '"' ∨ c = '\''
  · obtain rfl : string c cs = l := Option.some.inj ((first?_quote hquote cs).symm.trans h)
    exact cutFrom_string p hquote hrest
  · obtain ⟨kind, text, rfl, hstring, hcomment⟩ := eq_verbatim_of_first? h hdash hquote
    exact cutFrom_verbatim p (cut_of_first? h) hstring hcomment

end CutFrom

end Lexeme

/-- The number of the line that is reached behind `done`, if the first one has the number `first`. -/
def lineBehind (first : Nat) (done : List Char) : Nat := first + done.count '\n'

/-- The column that is reached behind `done`, counted from one. -/
def columnBehind (done : List Char) : Nat := (done.reverse.takeWhile (· ≠ '\n')).length + 1

theorem Place.after_eq (first : Nat) (done : List Char) :
    (⟨first, 1⟩ : Place).after done = ⟨lineBehind first done, columnBehind done⟩ := by
  induction done using List.reverseRecOn with
  | nil => rfl
  | append_singleton done c ih =>
    rw [after_append, ih]
    by_cases hc : c = '\n'
    · subst hc
      simp [after, step, lineBehind, columnBehind, Nat.add_assoc]
    · simp [after, step, lineBehind, columnBehind, hc]

/-- The tokens are cut one after the other from the text `ahead`, which stands behind `done`, and each has the place
where its slice starts. A character between two slices is one that `isGap` allows in front of what follows it. -/
inductive Tiled (isGap : Char → List Char → Prop) (first : Nat) : List Char → List Char → List Token → Prop
  | stop (done : List Char) :
      Tiled isGap first done [] [.endOfInput (lineBehind first done) (columnBehind done)]
  | gap {done : List Char} {c : Char} {ahead : List Char} {ts : List Token} (hc : isGap c ahead)
      (hrest : Tiled isGap first (done ++ [c]) ahead ts) : Tiled isGap first done (c :: ahead) ts
  | token {done slice ahead : List Char} {t : Token} {ts : List Token} (hcut : t.CutFrom slice ahead)
      (hline : t.line = lineBehind first done) (hcolumn : t.column = columnBehind done)
      (hrest : Tiled isGap first (done ++ slice) ahead ts) : Tiled isGap first done (slice ++ ahead) (t :: ts)

/-- A character that belongs to no token: no token starts with it, or it is a tilde without its equals sign. -/
def IsGap (c : Char) (ahead : List Char) : Prop :=
  Text.isBlank c = true ∨ isStart c = false ∨ c = '~' ∧ ahead.head? ≠ some '='

theorem isGap_of_first? {c : Char} {cs : List Char} (h : first? c cs = none) : IsGap c cs := by
  by_cases hstart : isStart c = true
  · refine .inr (.inr ?_)
    by_contra hcon
    have hsome : (first? c cs).isSome = true := by
      apply isSome_first? hstart
      intro ht
      by_contra hhead
      exact hcon ⟨ht, hhead⟩
    rw [h] at hsome
    cases hsome
  · exact .inr (.inl (by simpa using hstart))

theorem tiled_placed (first : Nat) (done ahead : List Char) :
    Tiled IsGap first done ahead (placed ((⟨first, 1⟩ : Place).after done) (pieces ahead)) := by
  induction hn : ahead.length using Nat.strongRecOn generalizing done ahead with
  | ind n ih =>
    subst hn
    cases ahead with
    | nil =>
      rw [Place.after_eq]
      exact .stop done
    | cons c cs =>
      cases hfirst : first? c cs with
      | none =>
        have hrest := ih cs.length (by simp) (done ++ [c]) cs rfl
        rw [Place.after_append] at hrest
        rw [pieces_cons_gap hfirst]
        exact .gap (isGap_of_first? hfirst) hrest
      | some l =>
        obtain ⟨⟨rest, hrest⟩, hne⟩ := source_prefix_of_first? hfirst
        have hlen : rest.length < (c :: cs).length := by
          have hpos := List.length_pos_iff.mpr hne
          rw [← hrest, List.length_append]
          omega
        have hgo := ih rest.length hlen (done ++ l.source) rest rfl
        rw [Place.after_append] at hgo
        rw [pieces_cons_lexeme hfirst, drop_length_of_append hrest, ← hrest]
        refine .token (cutFrom_of_first? _ hfirst hrest) ?_ ?_ hgo
        · exact congrArg Place.line (Place.after_eq first done)
        · exact congrArg Place.column (Place.after_eq first done)

/-- The tokens of a text tile it: their slices stand in it in order and without overlap, each at the line and column
that its token names, and only characters that no token starts with, or a tilde that no equals sign follows, stand
between them. -/
theorem tiled_rawTokens (source : String) (firstLine : Nat) :
    Tiled IsGap (max firstLine 1) [] source.toList (rawTokens source firstLine) :=
  tiled_placed (max firstLine 1) [] source.toList

/-- A tilde can be left out although it starts the token of the inequality sign. -/
theorem not_tiled_tilde :
    rawTokens "~=" = [⟨.operator, "~=", 1, 1, none⟩, .endOfInput 1 3] ∧
    ¬ Tiled (fun c _ => Text.isBlank c = true ∨ isStart c = false) 1 [] ['~'] (rawTokens "~") := by
  refine ⟨by decide +kernel, ?_⟩
  have htokens : rawTokens "~" = [.endOfInput 1 2] := by decide +kernel
  rw [htokens]
  generalize htext : ['~'] = text
  intro h
  cases h with
  | gap hc hrest =>
    obtain ⟨rfl, -⟩ := List.cons.inj htext
    rcases hc with hc | hc <;> cases hc
  | token hcut _ _ _ => exact hcut.1

end ScriptGraph
