import ScriptGraph.Header
import ScriptGraph.Proofs.Cutting
import ScriptGraph.Proofs.Legible
import ScriptGraph.Proofs.ParserComplete
import ScriptGraph.Proofs.SyntaxEquality
import ScriptGraph.Proofs.Truncation

namespace ScriptGraph

theorem Text.count_splitAfterLines (n : Nat) (cs : List Char) :
    (splitAfterLines n cs).1.count '\n' = min n (cs.count '\n') := by
  induction cs generalizing n with
  | nil => cases n <;> simp [splitAfterLines]
  | cons c cs ih =>
    cases n with
    | zero => simp [splitAfterLines]
    | succ n =>
      by_cases hc : c = '\n'
      · simp [splitAfterLines, hc, ih]
      · simp [splitAfterLines, hc, ih]

namespace Header

variable {s : State} {t : Token} {ts as bs : List Token} {line : Nat}

/-- What is known behind a token. -/
def State.pass (s : State) (t : Token) : State :=
  { s.atToken t with accessed := t.is "." || t.is ":", depth := nest (s.atToken t).depth t }

/-- Is an action called at the first token, where the line starts outside all blocks and brackets? -/
def State.finds (s : State) (ts : List Token) : Bool :=
  s.depth = 0 && s.lineDepth = 0 && !s.accessed && callees.any (startsCall · ts)

theorem firstRootLine_cons (s : State) (t : Token) (ts : List Token) :
    firstRootLine s (t :: ts) =
      if (s.atToken t).finds (t :: ts) = true then some t.line else firstRootLine (s.pass t) ts := rfl

namespace State

theorem depth_atToken (s : State) (t : Token) : (s.atToken t).depth = s.depth := by
  unfold atToken
  split <;> rfl

theorem line_atToken (s : State) (t : Token) : (s.atToken t).line = t.line := by
  unfold atToken
  split
  · exact Eq.symm ‹_›
  · rfl

theorem line_pass (s : State) (t : Token) : (s.pass t).line = t.line := s.line_atToken t

theorem depth_pass (s : State) (t : Token) : (s.pass t).depth = nest s.depth t := by
  unfold pass
  rw [depth_atToken]

theorem depth_foldl_pass (s : State) (ts : List Token) : (ts.foldl pass s).depth = ts.foldl nest s.depth := by
  induction ts generalizing s with
  | nil => rfl
  | cons t ts ih => rw [List.foldl_cons, ih, depth_pass, List.foldl_cons]

theorem line_foldl_pass (hs : s.line < line) (hts : ∀ t ∈ ts, t.line < line) : (ts.foldl pass s).line < line := by
  induction ts generalizing s with
  | nil => exact hs
  | cons t ts ih =>
    obtain ⟨ht, hts⟩ := List.forall_mem_cons.mp hts
    apply ih _ hts
    rwa [line_pass]

end State

/-- Names with dots between them. -/
def dotted : List Token → Bool
  | [] => false
  | [c] => c.isName
  | c :: d :: callee => c.isName && d.is "." && dotted callee

theorem dotted_callees : ∀ callee ∈ callees, dotted callee = true := by
  decide +kernel

theorem isName_of_startsCall {callee : List Token} (hc : dotted callee = true)
    (h : startsCall callee (t :: ts) = true) :
    t.isName = true := by
  cases callee with
  | nil => cases hc
  | cons c callee =>
    have hname : c.isName = true := by
      cases callee with
      | nil => exact hc
      | cons d callee =>
        simp only [dotted, Bool.and_eq_true] at hc
        exact hc.1.1
    simp only [startsCall, Bool.and_eq_true, beq_iff_eq] at h
    rw [Token.isName_iff, ← h.1.1]
    exact Token.isName_iff.mp hname

theorem State.isName_of_finds (h : s.finds (t :: ts) = true) : t.isName = true := by
  simp only [finds, Bool.and_eq_true, List.any_eq_true] at h
  obtain ⟨-, callee, hmem, hstarts⟩ := h
  exact isName_of_startsCall (dotted_callees callee hmem) hstarts

/-- No dotted name goes from the tokens `as` on to `bs`. -/
def Severed (as bs : List Token) : Prop :=
  ∀ b ∈ bs.head?, b.is "." = false ∧ (b.isName = true → ∀ a ∈ as.getLast?, a.is "." = false)

theorem Severed.tail {a a' : Token} (h : Severed (a :: a' :: as) bs) : Severed (a' :: as) bs := by
  unfold Severed at h ⊢
  rwa [List.getLast?_cons_cons] at h

/-- A call whose name starts before the cut is the same whatever follows, if its parenthesis is there. -/
theorem startsCall_append {callee cs : List Token} (hc : dotted callee = true) (hne : as ≠ []) (hcut : Severed as bs)
    (hopen : startsCall [] bs = true → startsCall [] cs = true) (h : startsCall callee (as ++ bs) = true) :
    startsCall callee (as ++ cs) = true := by
  obtain ⟨a, as, rfl⟩ := List.exists_cons_of_ne_nil hne
  fun_induction dotted callee generalizing a as with
  | case1 => cases hc
  | case2 c =>
    rw [List.cons_append, startsCall, Bool.and_eq_true] at h
    rw [List.cons_append, startsCall, Bool.and_eq_true]
    refine ⟨h.1, ?_⟩
    have hparen := h.2
    cases as with
    | nil => exact hopen hparen
    | cons a' as => exact hparen
  | case3 c d callee ih =>
    simp only [Bool.and_eq_true] at hc
    obtain ⟨⟨-, hd⟩, hcallee⟩ := hc
    have hdot {t : Token} {ts : List Token} (hcall : startsCall (d :: callee) (t :: ts) = true) : t.is "." = true := by
      simp only [startsCall, Bool.and_eq_true, beq_iff_eq] at hcall
      rw [Token.is_iff] at hd ⊢
      rwa [hcall.1.1, hcall.1.2] at hd
    rw [List.cons_append, startsCall, Bool.and_eq_true] at h
    rw [List.cons_append, startsCall, Bool.and_eq_true]
    refine ⟨h.1, ?_⟩
    have hrest := h.2
    cases as with
    | nil =>
      cases bs with
      | nil => cases hrest
      | cons b bs =>
        have hb := hdot hrest
        rw [(hcut b rfl).1] at hb
        cases hb
    | cons a' as =>
      have ha' := hdot hrest
      rw [List.cons_append, startsCall, Bool.and_eq_true] at hrest
      rw [List.cons_append, startsCall, Bool.and_eq_true]
      refine ⟨hrest.1, ?_⟩
      have hcall := hrest.2
      cases as with
      | nil =>
        cases bs with
        | nil => cases callee <;> cases hcall
        | cons b bs =>
          -- the dot before the cut would lead to a name behind it
          have hname := isName_of_startsCall hcallee hcall
          rw [(hcut b rfl).2 hname a' rfl] at ha'
          cases ha'
      | cons a'' as => exact ih hcallee a'' as (List.cons_ne_nil a'' as) hcut.tail.tail hcall

/-- An action that is found before the cut is found whatever follows, if its parenthesis is there. -/
theorem State.finds_append {a : Token} {cs : List Token} (hcut : Severed (a :: as) bs)
    (hopen : startsCall [] bs = true → startsCall [] cs = true) (h : s.finds (a :: (as ++ bs)) = true) :
    s.finds (a :: (as ++ cs)) = true := by
  simp only [finds, Bool.and_eq_true, List.any_eq_true] at h ⊢
  obtain ⟨hstate, callee, hmem, hcall⟩ := h
  have hdotted := dotted_callees callee hmem
  exact ⟨hstate, callee, hmem, startsCall_append hdotted (List.cons_ne_nil a as) hcut hopen hcall⟩

/-- An action is called on the line that is found. -/
theorem exists_of_firstRootLine (h : firstRootLine s ts = some line) :
    ∃ t ∈ ts, t.line = line ∧ t.isName = true := by
  induction ts generalizing s with
  | nil => cases h
  | cons t ts ih =>
    rw [firstRootLine_cons] at h
    split at h
    · rename_i hfound
      exact ⟨t, List.mem_cons_self, Option.some.inj h, State.isName_of_finds hfound⟩
    · obtain ⟨u, hu, hline⟩ := ih h
      exact ⟨u, List.mem_cons_of_mem t hu, hline⟩

end Header

theorem Program.derives_of_parse_append {ts : List Token} {stop : Token} {p : Program} (hts : ∀ t ∈ ts, t.isEof = false)
    (hstop : stop.isEof = true) (h : Program.parse (ts ++ [stop]) = .ok p) : Derives false 0 (.stmts [] p) ts stop := by
  obtain ⟨us, c, hbehind, heof, hderives⟩ := Program.derives_of_parse h
  have hcursor : Cursor.ofTokens (ts ++ [stop]) = ⟨ts, stop, 0⟩ := by simp [Cursor.ofTokens, hstop]
  rw [hcursor] at hbehind
  have hpending : ts = us ++ c.pending := hbehind.pending
  have hempty : c.pending = [] := by
    cases hc : c.pending with
    | nil => rfl
    | cons t rest =>
      have hmem : t ∈ ts := by
        rw [hpending, hc]
        simp
      have hpeek : c.peek = t := by rw [Cursor.peek, hc, List.headD_cons]
      rw [hpeek, hts t hmem] at heof
      cases heof
  have hpeek : c.peek = stop := by
    rw [Cursor.peek, hempty]
    exact hbehind.stop
  rw [hempty, List.append_nil] at hpending
  rwa [hpending, ← hpeek]

instance (cs : List Char) : Decidable (EndsLine cs) :=
  decidable_of_iff ((pieces cs).getLast? = some (.gap '\n')) List.getLast?_eq_some_iff

namespace SourceParts

/-- The last statement of the header, read on its own. -/
def lastStmt? (parts : SourceParts) : Option Stmt :=
  (Program.parse (tokenize parts.header)).toOption.bind List.getLast?

/-- Can the header end before the token: no statement goes over the cut? -/
def endsBefore (parts : SourceParts) (b : Token) : Bool :=
  b.is ";" || !breaksOff (tokenize parts.header).dropLast &&
    ((tokenize parts.header).dropLast.getLast?.any (·.is ";") || parts.lastStmt?.all (!·.action.goesOn b))

/-- What lets a script be cut between two statements where its body starts: the line break there belongs to no token,
no block or bracket is open before it, and the header can end there. -/
structure Apart (parts : SourceParts) : Prop where
  whole : parts.header = "" ∨ EndsLine parts.header.toList
  closed : height (tokenize parts.header).dropLast = 0
  parted : ∀ b ∈ (tokenize parts.body parts.bodyLine).head?, parts.endsBefore b = true

instance (parts : SourceParts) : Decidable parts.Apart :=
  decidable_of_iff (_ ∧ _ ∧ _) ⟨fun h => ⟨h.1, h.2.1, h.2.2⟩, fun h => ⟨h.whole, h.closed, h.parted⟩⟩

variable {s : String}

theorem ofText_of_none (h : Header.firstRootLine {} (tokenize s) = none) : ofText s = ⟨"", s, 1⟩ := by
  rw [ofText, h]

/-- A header comes before an action. -/
theorem firstRootLine_eq (h : (ofText s).header ≠ "") :
    Header.firstRootLine {} (tokenize s) = some (ofText s).bodyLine := by
  cases hfound : Header.firstRootLine {} (tokenize s) with
  | none =>
    rw [ofText_of_none hfound] at h
    exact (h rfl).elim
  | some line => rw [ofText, hfound]

theorem header_append_body (s : String) : (ofText s).header ++ (ofText s).body = s := by
  unfold ofText
  split
  · exact String.empty_append
  · rw [← String.ofList_append, Text.splitAfterLines_append, String.ofList_toList]

/-- The body starts on the line behind the header. -/
theorem bodyLine_eq (s : String) : (ofText s).bodyLine = 1 + (ofText s).header.toList.count '\n' := by
  unfold ofText
  split
  · rfl
  · rename_i line hline
    obtain ⟨t, ht, rfl, -⟩ := Header.exists_of_firstRootLine hline
    have hmem := line_of_mem_tokenize ht
    have hcount := Text.count_splitAfterLines (t.line - 1) s.toList
    simp only [String.toList_ofList, hcount]
    omega

/-- Cut behind whole tokens, the parts have the tokens of the script. -/
theorem tokenize_eq (h : EndsLine (ofText s).header.toList) :
    tokenize s = (tokenize (ofText s).header).dropLast ++ tokenize (ofText s).body (ofText s).bodyLine := by
  have happend := h.tokenize_append (ofText s).body 1
  rwa [header_append_body, Nat.max_self, ← bodyLine_eq] at happend

theorem line_lt_bodyLine (h : EndsLine (ofText s).header.toList) :
    ∀ a ∈ (tokenize (ofText s).header).dropLast, a.line < (ofText s).bodyLine := by
  intro a ha
  have hline := h.line_lt ha
  rwa [Nat.max_self, ← bodyLine_eq] at hline

/-- The action is in the body. -/
theorem exists_mem_body (hne : (ofText s).header ≠ "") (h : EndsLine (ofText s).header.toList) :
    ∃ t ∈ tokenize (ofText s).body (ofText s).bodyLine, t.isEof = false := by
  obtain ⟨t, ht, hline, hname⟩ := Header.exists_of_firstRootLine (firstRootLine_eq hne)
  rw [tokenize_eq h] at ht
  rcases List.mem_append.mp ht with ht | ht
  · exact absurd hline (Nat.ne_of_lt (line_lt_bodyLine h t ht))
  · exact ⟨t, ht, Token.isEof_of_isName hname⟩

theorem ended_of_endsBefore {parts : SourceParts} {as : List Token} {line column : Nat} {b : Token}
    (has : tokenize parts.header = as ++ [.endOfInput line column]) (h : parts.endsBefore b = true) :
    Ended false 0 (.endOfInput line column) as b := by
  simp only [endsBefore, has, List.dropLast_concat, Bool.or_eq_true, Bool.and_eq_true, Bool.not_eq_true'] at h
  refine h.imp_right fun h => ⟨h.1, h.2.imp_right fun hlast q s hq => ?_⟩
  have hparse := (hq.parse rfl).resolve_right (by simp)
  have hs : parts.lastStmt? = some s := by simp [lastStmt?, has, hparse, Except.toOption]
  simpa [hs] using hlast

end SourceParts

/-- A script is cut between two statements where its body starts, if no token, block or statement goes over the
cut. -/
theorem Program.parse_parts {s : String} {p : Program} (h : Program.parse (tokenize s) = .ok p)
    (hs : (SourceParts.ofText s).Apart) :
    ∃ q r, Program.parse (tokenize (SourceParts.ofText s).header) = .ok q ∧
      Program.parse (tokenize (SourceParts.ofText s).body (SourceParts.ofText s).bodyLine) = .ok r ∧ q ++ r = p := by
  have hjoin := SourceParts.header_append_body s
  have hline := SourceParts.bodyLine_eq s
  by_cases hempty : (SourceParts.ofText s).header = ""
  · rw [hempty, String.empty_append] at hjoin
    have hfirst : (SourceParts.ofText s).bodyLine = 1 := by
      rw [hline, hempty]
      rfl
    rw [hempty, hjoin, hfirst]
    exact ⟨[], p, rfl, h, rfl⟩
  · have hends := hs.whole.resolve_left hempty
    have htokens := SourceParts.tokenize_eq hends
    obtain ⟨t, ht, hteof⟩ := SourceParts.exists_mem_body hempty hends
    obtain ⟨as, line, column, has, hlegible⟩ := tokenize_eq_append (SourceParts.ofText s).header 1
    obtain ⟨bs, line', column', hbs, hlegible'⟩ :=
      tokenize_eq_append (SourceParts.ofText s).body (SourceParts.ofText s).bodyLine
    have hheight := hs.closed
    have hcut := hs.parted
    rw [has, List.dropLast_concat] at hheight htokens
    rw [hbs] at hcut htokens ht
    have hne : bs ≠ [] := by
      rintro rfl
      rw [List.nil_append, List.mem_singleton] at ht
      rw [ht] at hteof
      cases hteof
    obtain ⟨b, bs, rfl⟩ := List.exists_cons_of_ne_nil hne
    have hsolid : ∀ t ∈ as ++ b :: bs, t.isEof = false := by
      intro t ht
      rcases List.mem_append.mp ht with ht | ht
      · exact (hlegible t ht).isEof
      · exact (hlegible' t ht).isEof
    rw [htokens, ← List.append_assoc] at h
    have hderives := Program.derives_of_parse_append hsolid rfl h
    have hended : ∀ c ∈ (b :: bs).head?, Ended false 0 (Token.endOfInput line column) as c :=
      fun c hc => SourceParts.ended_of_endsBefore has (hcut c hc)
    obtain ⟨q, r, hqr, hq, hr⟩ := hderives.cut rfl hne hheight hended
    have hheader := (hq.parse rfl).resolve_right (by simp)
    have hbody := (hr.parse rfl).resolve_right (by simp)
    rw [has, hbs]
    exact ⟨q, r, hheader, hbody, hqr.symm⟩

theorem Program.parse_parts_loop : ∃ p q r,
    Program.parse (tokenize "while a b() end\n(y)() CreateThread(f)") = .ok p ∧
      (SourceParts.ofText "while a b() end\n(y)() CreateThread(f)").Apart ∧
      Program.parse (tokenize "while a b() end\n") = .ok q ∧
      Program.parse (tokenize "(y)() CreateThread(f)" 2) = .ok r ∧ q ++ r = p := by
  have hparts : SourceParts.ofText "while a b() end\n(y)() CreateThread(f)" =
      ⟨"while a b() end\n", "(y)() CreateThread(f)", 2⟩ := by decide +kernel
  have hapart : (SourceParts.ofText "while a b() end\n(y)() CreateThread(f)").Apart := by decide +kernel
  have hparse : Program.parse (tokenize "while a b() end\n(y)() CreateThread(f)") =
      .ok [.mk 1 (.whileLoop (.identifier "a") [.mk 1 (.evaluate (.call (.identifier "b") []))]),
        .mk 2 (.evaluate (.call (.identifier "y") [])),
        .mk 2 (.evaluate (.call (.identifier "CreateThread") [.identifier "f"]))] := by decide +kernel
  obtain ⟨q, r, hq, hr, hqr⟩ := Program.parse_parts hparse hapart
  rw [hparts] at hq hr
  exact ⟨_, q, r, hparse, hapart, hq, hr, hqr⟩

/-- A statement can go on over the line break before the body. -/
theorem Program.parse_header_fails : ∃ p, Program.parse (tokenize "local x =\nCreateThread(f)") = .ok p ∧
    (SourceParts.ofText "local x =\nCreateThread(f)").header = "local x =\n" ∧
    Program.parse (tokenize "local x =\n") = .error (.unexpected "end of input" 2 1) := by
  have hparse : Program.parse (tokenize "local x =\nCreateThread(f)") =
      .ok [.mk 1 (.declare "x" (some (.call (.identifier "CreateThread") [.identifier "f"])))] := by decide +kernel
  have hheader : (SourceParts.ofText "local x =\nCreateThread(f)").header = "local x =\n" := by decide +kernel
  have hfails : Program.parse (tokenize "local x =\n") = .error (.unexpected "end of input" 2 1) := by rfl
  exact ⟨_, hparse, hheader, hfails⟩

/-- Read on its own, the body has those tokens of the script that stand on its lines, if no token goes over the cut. -/
theorem SourceParts.tokenize_body {s : String}
    (h : (ofText s).header = "" ∨ EndsLine (ofText s).header.toList) :
    tokenize (ofText s).body (ofText s).bodyLine = (tokenize s).filter ((ofText s).bodyLine ≤ ·.line) ∧
      tokenize (ofText s).body (ofText s).bodyLine <:+ tokenize s := by
  have hbehind : (tokenize (ofText s).body (ofText s).bodyLine).filter ((ofText s).bodyLine ≤ ·.line) =
      tokenize (ofText s).body (ofText s).bodyLine := by
    rw [List.filter_eq_self]
    intro t ht
    exact decide_eq_true (Nat.le_trans (Nat.le_max_left _ _) (line_of_mem_tokenize ht).1)
  rcases h with hempty | hends
  · have hbody := header_append_body s
    have hline : (ofText s).bodyLine = 1 := by
      rw [bodyLine_eq, hempty]
      rfl
    rw [hempty, String.empty_append] at hbody
    rw [hbody, hline] at hbehind ⊢
    exact ⟨hbehind.symm, List.suffix_refl _⟩
  · have hbefore : (tokenize (ofText s).header).dropLast.filter ((ofText s).bodyLine ≤ ·.line) = [] := by
      rw [List.filter_eq_nil_iff]
      intro t ht
      simpa using line_lt_bodyLine hends t ht
    rw [tokenize_eq hends, List.filter_append, hbefore, hbehind, List.nil_append]
    exact ⟨rfl, List.suffix_append _ _⟩

theorem SourceParts.tokenize_body_below_string :
    EndsLine (ofText "x = 'a\\\nb' --[[\n]] -- c\n --[[\n]]\nCreateThread(f)").header.toList ∧
      tokenize "CreateThread(f)" 6 =
        (tokenize "x = 'a\\\nb' --[[\n]] -- c\n --[[\n]]\nCreateThread(f)").filter (6 ≤ ·.line) := by
  have hparts : ofText "x = 'a\\\nb' --[[\n]] -- c\n --[[\n]]\nCreateThread(f)" =
      ⟨"x = 'a\\\nb' --[[\n]] -- c\n --[[\n]]\n", "CreateThread(f)", 6⟩ := by decide +kernel
  have hends : EndsLine (ofText "x = 'a\\\nb' --[[\n]] -- c\n --[[\n]]\nCreateThread(f)").header.toList := by
    decide +kernel
  have hbody := (tokenize_body (.inr hends)).1
  rw [hparts] at hbody
  exact ⟨hends, hbody⟩

/-- A comment that ends on the line of the first action is cut in two. -/
theorem SourceParts.tokenize_body_in_comment :
    ofText "--[[\n]] CreateThread(f)" = ⟨"--[[\n", "]] CreateThread(f)", 2⟩ ∧
      ((tokenize "--[[\n]] CreateThread(f)").filter (2 ≤ ·.line)).map (·.text) = ["CreateThread", "(", "f", ")", ""] ∧
      (tokenize "]] CreateThread(f)" 2).map (·.text) = ["]", "]", "CreateThread", "(", "f", ")", ""] := by
  decide +kernel

end ScriptGraph
