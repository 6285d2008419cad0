import Mathlib.Data.List.Find
import Mathlib.Data.List.TakeWhile
import ScriptGraph.Token.Scan

namespace ScriptGraph

namespace Lexeme

theorem isDigit_iff {c : Char} : isDigit c = true ↔ 48 ≤ c.toNat ∧ c.toNat ≤ 57 := by
  simp only [isDigit, Bool.and_eq_true, decide_eq_true_eq]
  exact Iff.rfl

theorem isLetter_iff {c : Char} : isLetter c = true ↔
    (97 ≤ c.toNat ∧ c.toNat ≤ 122) ∨ (65 ≤ c.toNat ∧ c.toNat ≤ 90) ∨ c = '_' := by
  simp only [isLetter, Bool.or_eq_true, Bool.and_eq_true, decide_eq_true_eq, or_assoc]
  exact Iff.rfl

theorem isWordChar_of_isLetter {c : Char} (h : isLetter c = true) : isWordChar c = true := by
  simp [isWordChar, h]

theorem isWordChar_of_isDigit {c : Char} (h : isDigit c = true) : isWordChar c = true := by
  simp [isWordChar, h]

theorem isLetter_eq_false_of_isDigit {c : Char} (h : isDigit c = true) : isLetter c = false := by
  rw [isDigit_iff] at h
  rw [Bool.eq_false_iff, ne_eq, isLetter_iff]
  rintro (h' | h' | rfl)
  · omega
  · omega
  · exact absurd h.2 (by decide)

/-- Every lexeme starts with a visible character of the basic block. -/
theorem graphic_of_first? {c : Char} {cs : List Char} {l : Lexeme} (h : first? c cs = some l) :
    32 < c.toNat ∧ c.toNat < 127 := by
  have single : ∀ d : Char, c = d → 32 < d.toNat → d.toNat < 127 → 32 < c.toNat ∧ c.toNat < 127 := by
    rintro d rfl h1 h2
    exact ⟨h1, h2⟩
  unfold first? at h
  split at h
  · rename_i hc
    simp only [Bool.and_eq_true, decide_eq_true_eq] at hc
    exact single '-' hc.1 (by decide) (by decide)
  split at h
  · rename_i hc
    simp only [Bool.or_eq_true, decide_eq_true_eq] at hc
    rcases hc with hc | hc
    · exact single '"' hc (by decide) (by decide)
    · exact single '\'' hc (by decide) (by decide)
  split at h
  · rename_i hc
    simp only [Bool.or_eq_true, Bool.and_eq_true, decide_eq_true_eq, isDigit_iff] at hc
    rcases hc with hc | hc
    · omega
    · exact single '.' hc.1 (by decide) (by decide)
  split at h
  · rename_i hc
    rw [isLetter_iff] at hc
    rcases hc with hc | hc | hc
    · omega
    · omega
    · exact single '_' hc (by decide) (by decide)
  unfold symbol? at h
  split at h
  · rename_i op hop
    have hmem := List.mem_of_find?_eq_some hop
    have hpre := List.find?_some hop
    simp only [longOperators, List.mem_cons, List.not_mem_nil, or_false] at hmem
    rcases hmem with rfl | rfl | rfl | rfl | rfl | rfl | rfl | rfl | rfl | rfl | rfl <;>
    · simp only [List.isPrefixOf, Bool.and_eq_true, beq_iff_eq] at hpre
      exact single _ hpre.1.symm (by decide) (by decide)
  split at h
  · rename_i hc
    simp only [shortOperators, List.contains_eq_mem, List.mem_cons, List.not_mem_nil, or_false,
      decide_eq_true_eq] at hc
    rcases hc with hc | hc | hc | hc | hc | hc | hc | hc | hc | hc | hc <;>
      exact single _ hc (by decide) (by decide)
  split at h
  · rename_i hc
    simp only [marks, List.contains_eq_mem, List.mem_cons, List.not_mem_nil, or_false,
      decide_eq_true_eq] at hc
    rcases hc with hc | hc | hc | hc | hc | hc | hc | hc | hc <;>
      exact single _ hc (by decide) (by decide)
  · exact absurd h (by simp)

theorem first?_of_isBlank {c : Char} (h : Text.isBlank c = true) (cs : List Char) :
    first? c cs = none := by
  have hn : c.toNat ≤ 32 ∨ 127 ≤ c.toNat := by
    simp only [Text.isBlank, Text.blankRanges, List.any_cons, List.any_nil, Bool.or_eq_true,
      Bool.and_eq_true, decide_eq_true_eq, Bool.or_false] at h
    omega
  cases hl : first? c cs with
  | none => rfl
  | some l =>
    have := graphic_of_first? hl
    omega

/-- A letter or underscore, then letters, digits and underscores. -/
def IsWord (text : List Char) : Prop :=
  ∃ c cs, text = c :: cs ∧ isLetter c = true ∧ cs.all isWordChar = true

/-- A number literal, read in one piece. -/
def IsNumber (text : List Char) : Prop :=
  number text = text ∧ ∃ c cs, text = c :: cs ∧ (isDigit c || (c = '.' && startsDigit cs)) = true

/-- What may stand between two quotes. -/
def IsContent (quote : Char) (text : List Char) : Prop :=
  (quote = '"' ∨ quote = '\'') ∧ stringBody quote text = text

def IsOperator (text : List Char) : Prop :=
  text ∈ longOperators ∨ ∃ c ∈ shortOperators, text = [c]

/-- Does the text end in a backslash that has nothing to escape? -/
def dangles : List Char → Bool
  | [] => false
  | ['\\'] => true
  | '\\' :: _ :: cs => dangles cs
  | _ :: cs => dangles cs

def keyword (s : String) : Lexeme := verbatim .keyword s.toList

def name (s : String) : Lexeme := verbatim .identifier s.toList

def numeral (s : String) : Lexeme := verbatim .number s.toList

def operator (s : String) : Lexeme := verbatim .operator s.toList

def mark (s : String) : Lexeme := verbatim .punctuation s.toList

def literal (value : String) (quote : Char) : Lexeme :=
  ⟨.string, value.toList, some quote, quote :: value.toList ++ [quote]⟩

/-- The lexemes that the scanner finds again when it reads them alone. -/
inductive Whole : Lexeme → Prop
  | keyword (s : String) (h : IsWord s.toList) (hk : isKeyword s = true) : Whole (keyword s)
  | name (s : String) (h : IsWord s.toList) (hk : isKeyword s = false) : Whole (name s)
  | numeral (s : String) (h : IsNumber s.toList) : Whole (numeral s)
  | operator (s : String) (h : IsOperator s.toList) : Whole (operator s)
  | mark (s : String) (c : Char) (hc : c ∈ marks) (h : s.toList = [c]) : Whole (mark s)
  | literal (value : String) (quote : Char) (h : IsContent quote value.toList)
      (hd : dangles value.toList = false) : Whole (literal value quote)

/-- Does the lexeme end before `next`? Words and numbers must not run on, and an operator must not
be the start of a longer one, of a comment or of a number. -/
def endsBefore (l : Lexeme) (next : Option Char) : Bool :=
  next.all fun c =>
    match l.kind with
    | .keyword | .identifier => !isWordChar c
    | .number => !isWordChar c && !(['.', '+', '-'].contains c)
    | .operator =>
      !(longOperators.any fun op => (l.text ++ [c]).isPrefixOf op) && !(l.text = ['-'] && c = '-') &&
        !(l.text = ['.'] && isDigit c)
    | _ => true

theorem takeWhile_append_of_head? {p : Char → Bool} {cs rest : List Char}
    (h : rest.head?.all (!p ·) = true) : (cs ++ rest).takeWhile p = cs.takeWhile p := by
  have hrest : rest.takeWhile p = [] := by
    cases rest with
    | nil => rfl
    | cons c rest =>
      have hc : p c = false := by simpa using h
      simp [hc]
  rw [List.takeWhile_append, hrest, List.append_nil]
  split
  · rename_i hl
    exact ((List.takeWhile_sublist p).eq_of_length hl).symm
  · rfl

theorem drop_append_of_takeWhile (p : Char → Bool) (cs rest : List Char) :
    (cs ++ rest).drop (cs.takeWhile p).length = cs.drop (cs.takeWhile p).length ++ rest :=
  List.drop_append_of_le_length (List.takeWhile_sublist p).length_le

/-- Can a number end before `rest`? -/
def numberEnds (rest : List Char) : Bool :=
  rest.head?.all fun c => !isWordChar c && !(['.', '+', '-'].contains c)

theorem fraction_append {cs rest : List Char} (h : numberEnds rest = true) :
    fraction (cs ++ rest) = fraction cs := by
  match cs with
  | [] =>
    cases rest with
    | nil => rfl
    | cons c rest =>
      have hc : c ≠ '.' := by rintro rfl; simp [numberEnds] at h
      simp [fraction, hc]
  | c :: cs =>
    by_cases hc : c = '.'
    · subst hc
      have hd : rest.head?.all (!isDigit ·) = true := by
        cases rest <;> simp_all [numberEnds, isWordChar]
      have hh : ((cs ++ rest).head? = some '.') ↔ (cs.head? = some '.') := by
        cases cs with
        | nil => cases rest <;> simp_all [numberEnds]
        | cons d ds => simp
      simp only [List.cons_append, fraction, hh, takeWhile_append_of_head? hd]
    · simp [fraction, hc]

theorem exponent_append {cs rest : List Char} (h : numberEnds rest = true) :
    exponent (cs ++ rest) = exponent cs := by
  have hd : rest.head?.all (!isDigit ·) = true := by
    cases rest <;> simp_all [numberEnds, isWordChar]
  match cs with
  | [] =>
    cases rest with
    | nil => rfl
    | cons c rest =>
      have he : c ≠ 'e' ∧ c ≠ 'E' := by
        constructor <;> rintro rfl <;> exact absurd h (by simp [numberEnds]; decide)
      simp [exponent, he]
  | e :: cs =>
    have hs : ((cs ++ rest).head?.filter fun c => c = '+' || c = '-') =
        (cs.head?.filter fun c => c = '+' || c = '-') := by
      cases cs with
      | nil =>
        cases rest with
        | nil => rfl
        | cons c rest =>
          have hc : c ≠ '+' ∧ c ≠ '-' := by simp_all [numberEnds]
          simp [hc]
      | cons d ds => rfl
    have hl : ((cs.head?.filter fun c => c = '+' || c = '-').toList).length ≤ cs.length := by
      cases cs with
      | nil => simp
      | cons d ds => cases h : Option.filter (fun c => decide (c = '+') || decide (c = '-')) (some d) <;>
          simp [h]
    simp only [List.cons_append, exponent, hs, List.drop_append_of_le_length hl,
      takeWhile_append_of_head? hd]

theorem fraction_length_le (cs : List Char) : (fraction cs).length ≤ cs.length := by
  unfold fraction
  split
  · split
    · simp
    · simpa using (List.takeWhile_sublist isDigit).length_le
  · simp

theorem decimal_append (cs : List Char) {rest : List Char} (h : numberEnds rest = true) :
    decimal (cs ++ rest) = decimal cs := by
  have hd : rest.head?.all (!isDigit ·) = true := by
    cases rest <;> simp_all [numberEnds, isWordChar]
  have hl : (cs.takeWhile isDigit).length + (fraction (cs.drop (cs.takeWhile isDigit).length)).length
      ≤ cs.length := by
    have h1 := fraction_length_le (cs.drop (cs.takeWhile isDigit).length)
    have h2 := (List.takeWhile_sublist (l := cs) isDigit).length_le
    rw [List.length_drop] at h1
    omega
  simp only [decimal, takeWhile_append_of_head? hd, drop_append_of_takeWhile, fraction_append h,
    List.drop_append_of_le_length hl, exponent_append h]

theorem number_eq_decimal {c : Char} (hc : c ≠ '0') (cs : List Char) :
    number (c :: cs) = decimal (c :: cs) := by
  unfold number
  split
  · rename_i heq
    exact absurd (List.cons.inj heq).1 hc
  · rfl

theorem number_append (cs : List Char) {rest : List Char} (hcs : cs ≠ []) (h : numberEnds rest = true) :
    number (cs ++ rest) = number cs := by
  have hx : rest.head?.all (!isHexDigit ·) = true := by
    cases rest with
    | nil => rfl
    | cons c rest =>
      have hw : isWordChar c = false := by simp_all [numberEnds]
      simp only [List.head?_cons, Option.all_some, Bool.not_eq_eq_eq_not, Bool.not_true]
      simp only [isWordChar, isLetter, isHexDigit, Bool.or_eq_false_iff, Bool.and_eq_false_iff,
        decide_eq_false_iff_not] at hw ⊢
      have hmono : ∀ a b : Char, a ≤ b → ¬ c ≤ b → ¬ c ≤ a := fun a b hab hcb hca =>
        hcb (Char.le_trans hca hab)
      refine ⟨⟨hw.2, ?_⟩, ?_⟩
      · exact hw.1.1.1.imp_right (hmono 'f' 'z' (by decide))
      · exact hw.1.1.2.imp_right (hmono 'F' 'Z' (by decide))
  match cs with
  | [] => exact absurd rfl hcs
  | c :: cs =>
    by_cases hc : c = '0'
    · subst hc
      cases cs with
      | nil =>
        cases rest with
        | nil => rfl
        | cons d rest =>
          have hd : d ≠ 'x' ∧ d ≠ 'X' := by
            constructor <;> rintro rfl <;> exact absurd h (by simp [numberEnds]; decide)
          simpa [number, hd] using decimal_append ['0'] h
      | cons x cs =>
        by_cases hxx : x = 'x' ∨ x = 'X'
        · simp [number, hxx, takeWhile_append_of_head? hx]
        · simpa [number, hxx] using decimal_append ('0' :: x :: cs) h
    · rw [List.cons_append, number_eq_decimal hc, number_eq_decimal hc]
      exact decimal_append (c :: cs) h

theorem takeWhile_takeWhile_append {p : Char → Bool} {cs rest : List Char}
    (h : rest.head?.all (!p ·) = true) : (cs.takeWhile p ++ rest).takeWhile p = cs.takeWhile p := by
  rw [takeWhile_append_of_head? h]
  exact List.takeWhile_eq_self_iff.mpr fun _ hx => List.mem_takeWhile_imp hx

/-- A fraction starts with its point, an exponent with its letter. -/
theorem fraction_head? (cs : List Char) : (fraction cs).head?.all (· = '.') = true := by
  unfold fraction
  split
  · split <;> simp
  · rfl

theorem exponent_head? (cs : List Char) : (exponent cs).head?.all (fun c => c = 'e' || c = 'E') = true := by
  cases cs with
  | nil => rfl
  | cons e cs =>
    simp only [exponent]
    split
    · rename_i h
      rw [Bool.and_eq_true] at h
      simpa using h.1
    · rfl

theorem fraction_fraction {cs rest : List Char}
    (h : rest.head?.all (fun c => c = 'e' || c = 'E') = true) :
    fraction (fraction cs ++ rest) = fraction cs := by
  have hd : rest.head?.all (!isDigit ·) = true := by
    cases rest with
    | nil => rfl
    | cons c rest =>
      have hc : c = 'e' ∨ c = 'E' := by simpa using h
      rcases hc with rfl | rfl <;> rfl
  match cs with
  | [] =>
    cases rest with
    | nil => rfl
    | cons c rest =>
      have hc : c ≠ '.' := by rintro rfl; simp at h
      simp [fraction, hc]
  | c :: cs =>
    by_cases hc : c = '.'
    · subst hc
      by_cases hdot : cs.head? = some '.'
      · cases rest with
        | nil => simp [fraction, hdot]
        | cons c rest =>
          have hc : c ≠ '.' := by rintro rfl; simp at h
          simp [fraction, hdot, hc]
      · have hh : ¬ (cs.takeWhile isDigit ++ rest).head? = some '.' := by
          cases hw : cs.takeWhile isDigit with
          | nil => cases rest <;> simp_all; rintro rfl; simp at h
          | cons d ds =>
            have := List.mem_takeWhile_imp (hw ▸ List.mem_cons_self : d ∈ cs.takeWhile isDigit)
            simp only [List.cons_append, List.head?_cons, Option.some.injEq]
            rintro rfl
            exact absurd this (by decide)
        simp only [fraction, hdot, if_false, List.cons_append, hh, takeWhile_takeWhile_append hd]
    · cases rest with
      | nil => simp [fraction, hc]
      | cons d rest =>
        have hd' : d ≠ '.' := by rintro rfl; simp at h
        simp [fraction, hc, hd']

theorem exponent_exponent (cs : List Char) : exponent (exponent cs) = exponent cs := by
  match cs with
  | [] => rfl
  | e :: cs =>
    simp only [exponent]
    generalize hs : (cs.head?.filter fun c => c = '+' || c = '-').toList = sign
    generalize hd : (cs.drop sign.length).takeWhile isDigit = digits
    by_cases he : ((e = 'e' || e = 'E') && !digits.isEmpty) = true
    · have hall : ∀ d ∈ digits, isDigit d = true := fun d hm => List.mem_takeWhile_imp (hd ▸ hm)
      have hnil : digits ≠ [] := by
        rintro rfl
        simp at he
      have hsign : ((sign ++ digits).head?.filter fun c => c = '+' || c = '-').toList = sign := by
        cases sign with
        | cons d ds =>
          cases cs with
          | nil => simp at hs
          | cons a as =>
            rw [List.head?_cons, Option.filter_some] at hs
            split at hs
            · rename_i ha
              obtain ⟨rfl, rfl⟩ : a = d ∧ ds = [] := by simpa [eq_comm] using hs
              simp [Option.filter_some, ha]
            · simp at hs
        | nil =>
          obtain ⟨d, ds, rfl⟩ := List.exists_cons_of_ne_nil hnil
          have hdig := hall d (by simp)
          have hne : d ≠ '+' ∧ d ≠ '-' := by
            constructor <;> rintro rfl <;> exact absurd hdig (by decide)
          simp [Option.filter_some, hne]
      have htake : digits.takeWhile isDigit = digits := List.takeWhile_eq_self_iff.mpr hall
      simp only [he, if_true, List.cons_append, hsign, List.drop_left, htake]
    · simp only [he, if_false, Bool.false_eq_true]

/-- The characters of a decimal number. -/
theorem mem_decimal {c : Char} {cs : List Char} (h : c ∈ decimal cs) :
    isDigit c = true ∨ c ∈ ['.', 'e', 'E', '+', '-'] := by
  simp only [decimal, List.mem_append] at h
  rcases h with (h | h) | h
  · exact .inl (List.mem_takeWhile_imp h)
  · revert h
    generalize cs.drop _ = r
    intro h
    unfold fraction at h
    split at h
    · split at h
      · simp at h
      · rcases List.mem_cons.mp h with rfl | h
        · simp
        · exact .inl (List.mem_takeWhile_imp h)
    · simp at h
  · revert h
    generalize cs.drop _ = r
    intro h
    cases r with
    | nil => simp [exponent] at h
    | cons e r =>
      simp only [exponent] at h
      split at h
      · rename_i he
        simp only [Bool.and_eq_true, Bool.or_eq_true, decide_eq_true_eq] at he
        simp only [List.cons_append, List.mem_cons, List.mem_append] at h
        rcases h with rfl | h | h
        · rcases he.1 with rfl | rfl <;> simp
        · rw [Option.mem_toList, Option.filter_eq_some_iff] at h
          simp only [Bool.or_eq_true, decide_eq_true_eq] at h
          rcases h.2 with rfl | rfl <;> simp
        · exact .inl (List.mem_takeWhile_imp h)
      · simp at h

theorem decimal_decimal (cs : List Char) : decimal (decimal cs) = decimal cs := by
  simp only [decimal]
  generalize hw : cs.takeWhile isDigit = whole
  generalize hf : fraction (cs.drop whole.length) = part
  generalize he : exponent (cs.drop (whole.length + part.length)) = power
  have hpower : power.head?.all (fun c => c = 'e' || c = 'E') = true := he ▸ exponent_head? _
  have hpart : part.head?.all (· = '.') = true := hf ▸ fraction_head? _
  have hrest : (part ++ power).head?.all (!isDigit ·) = true := by
    cases part with
    | cons d ds =>
      obtain rfl : d = '.' := by simpa using hpart
      rfl
    | nil =>
      cases power with
      | nil => rfl
      | cons d ds =>
        have hc : d = 'e' ∨ d = 'E' := by simpa using hpower
        rcases hc with rfl | rfl <;> rfl
  have h1 : (whole ++ part ++ power).takeWhile isDigit = whole := by
    rw [List.append_assoc, ← hw]
    exact takeWhile_takeWhile_append hrest
  have h2 : fraction (part ++ power) = part := by
    rw [← hf]
    exact fraction_fraction hpower
  have h3 : exponent power = power := by
    rw [← he]
    exact exponent_exponent _
  have hdrop : (whole ++ part ++ power).drop whole.length = part ++ power := by
    rw [List.append_assoc, List.drop_left]
  rw [h1, hdrop, h2, ← List.length_append, List.drop_left, h3]

/-- A number that was cut from a text is read again as it is. -/
theorem number_number (cs : List Char) : number (number cs) = number cs := by
  have hdec : ∀ ds, number (decimal ds) = decimal ds := by
    intro ds
    cases hds : decimal ds with
    | nil => rfl
    | cons c rest =>
      by_cases hc : c = '0'
      · subst hc
        cases rest with
        | nil => rfl
        | cons x rest =>
          have hx : ¬ (x = 'x' ∨ x = 'X') := by
            have hm : x ∈ decimal ds := by simp [hds]
            rintro (rfl | rfl) <;> exact absurd (mem_decimal hm) (by decide)
          have := decimal_decimal ds
          rw [hds] at this
          simpa [number, hx] using this
      · rw [number_eq_decimal hc, ← hds, decimal_decimal]
  match cs with
  | [] => exact hdec []
  | c :: cs =>
    by_cases hc : c = '0'
    · subst hc
      cases cs with
      | nil => exact hdec ['0']
      | cons x cs =>
        by_cases hx : x = 'x' ∨ x = 'X'
        · have htake : (cs.takeWhile isHexDigit).takeWhile isHexDigit = cs.takeWhile isHexDigit :=
            List.takeWhile_eq_self_iff.mpr fun _ h => List.mem_takeWhile_imp h
          simp [number, hx, htake]
        · simpa [number, hx] using hdec ('0' :: x :: cs)
    · rw [number_eq_decimal hc]
      exact hdec (c :: cs)

/-- The lexeme a text starts with. -/
def scan? : List Char → Option Lexeme
  | [] => none
  | c :: cs => first? c cs

theorem scan?_word {text rest : List Char} (h : IsWord text)
    (he : rest.head?.all (!isWordChar ·) = true) :
    scan? (text ++ rest) =
      some (verbatim (if isKeyword (String.ofList text) then .keyword else .identifier) text) := by
  obtain ⟨c, cs, rfl, hc, hcs⟩ := h
  have hne : ∀ d : Char, isLetter d = false → c ≠ d := by
    rintro d hd rfl
    simp [hc] at hd
  have hdigit : isDigit c = false := by
    cases hd : isDigit c with
    | false => rfl
    | true => simp [isLetter_eq_false_of_isDigit hd] at hc
  have htake : (c :: (cs ++ rest)).takeWhile isWordChar = c :: cs := by
    rw [← List.cons_append, takeWhile_append_of_head? he]
    exact List.takeWhile_eq_self_iff.mpr (by
      simpa [isWordChar_of_isLetter hc] using hcs)
  simp only [List.cons_append, scan?, first?, hne '-' rfl, hne '"' rfl, hne '\'' rfl, hne '.' rfl,
    hdigit, hc, word, htake]
  simp

theorem scan?_number {text rest : List Char} (h : IsNumber text) (he : numberEnds rest = true) :
    scan? (text ++ rest) = some (verbatim .number text) := by
  obtain ⟨hn, c, cs, rfl, hc⟩ := h
  have hne : ∀ d : Char, d ≠ '.' → isDigit d = false → c ≠ d := by
    rintro d hd1 hd2 rfl
    simp [hd1, hd2] at hc
  have hstart : (isDigit c || (c = '.' && startsDigit (cs ++ rest))) = true := by
    cases cs with
    | nil => simpa [startsDigit] using Or.inl (by simpa [startsDigit] using hc)
    | cons d ds => simpa [startsDigit] using hc
  have hnum := number_append (c :: cs) (by simp) he
  rw [List.cons_append] at hnum
  simp only [List.cons_append, scan?, first?, hne '-' (by decide) rfl, hne '"' (by decide) rfl,
    hne '\'' (by decide) rfl, hstart, hnum, hn]
  simp

theorem scan?_mark {c : Char} (hc : c ∈ marks) (rest : List Char) :
    scan? (c :: rest) = some (verbatim .punctuation [c]) := by
  simp only [marks, List.mem_cons, List.not_mem_nil, or_false] at hc
  rcases hc with rfl | rfl | rfl | rfl | rfl | rfl | rfl | rfl | rfl <;> rfl

theorem first?_eq_symbol? {c : Char} {cs : List Char}
    (hc : isDigit c = false ∧ isLetter c = false ∧ c ≠ '"' ∧ c ≠ '\'')
    (hdash : ¬ (c = '-' ∧ cs.head? = some '-')) (hdot : ¬ (c = '.' ∧ startsDigit cs = true)) :
    first? c cs = symbol? c cs := by
  simp only [first?, hc, Bool.and_eq_true, Bool.or_eq_true, decide_eq_true_eq, hdash, hdot,
    Bool.false_eq_true, or_self, if_false]

/-- Of two operators, one that is no longer than the text at hand is a prefix of it or not,
whatever follows. -/
theorem isPrefixOf_append {op text rest : List Char}
    (h : ∀ c ∈ rest.head?, (text ++ [c]).isPrefixOf op = false) :
    op.isPrefixOf (text ++ rest) = op.isPrefixOf text := by
  rw [Bool.eq_iff_iff, List.isPrefixOf_iff_prefix, List.isPrefixOf_iff_prefix]
  refine ⟨fun hp => ?_, fun hp => hp.trans (List.prefix_append _ _)⟩
  rcases List.prefix_or_prefix_of_prefix hp (List.prefix_append text rest) with hp' | ⟨tail, rfl⟩
  · exact hp'
  · obtain ⟨u, rfl⟩ := (List.prefix_append_right_inj text).mp hp
    cases tail with
    | nil => simp
    | cons c tail =>
      have := h c (by simp)
      rw [← Bool.not_eq_true, List.isPrefixOf_iff_prefix] at this
      exact absurd ⟨tail, by simp⟩ this

theorem scan?_operator {text rest : List Char} (h : IsOperator text)
    (he : endsBefore (verbatim .operator text) rest.head? = true) :
    scan? (text ++ rest) = some (verbatim .operator text) := by
  have hfind : longOperators.find? (·.isPrefixOf (text ++ rest)) =
      longOperators.find? (·.isPrefixOf text) := by
    refine List.find?_congr fun op hop => isPrefixOf_append fun c hc => ?_
    have := he
    simp only [endsBefore, Option.mem_def.mp hc, Option.all_some, verbatim, Bool.and_eq_true,
      Bool.not_eq_eq_eq_not, Bool.not_true, List.any_eq_false, Bool.not_eq_true] at this
    exact this.1.1 op hop
  have hnext : ∀ c, rest.head? = some c → ¬ (text = ['-'] ∧ c = '-') ∧
      ¬ (text = ['.'] ∧ isDigit c = true) := by
    intro c hc
    have := he
    simp only [endsBefore, hc, Option.all_some, verbatim, Bool.and_eq_true, Bool.not_eq_eq_eq_not,
      Bool.not_true, Bool.and_eq_false_iff, decide_eq_false_iff_not] at this
    constructor
    · rintro ⟨h1, h2⟩
      simp [h1, h2] at this
    · rintro ⟨h1, h2⟩
      simp [h1, h2] at this
  have hsymbol : ∀ c cs, text = c :: cs → symbol? c (cs ++ rest) = symbol? c cs := by
    rintro c cs rfl
    simp only [symbol?, ← List.cons_append, hfind]
  have hfirst : ∀ c cs, text = c :: cs →
      (isDigit c = false ∧ isLetter c = false ∧ c ≠ '"' ∧ c ≠ '\'') →
      (cs.head?.all fun d => d ≠ '-' && !isDigit d) = true → scan? (text ++ rest) = symbol? c cs := by
    rintro c cs rfl hc hcs
    rw [← hsymbol c cs rfl]
    cases cs with
    | nil =>
      refine first?_eq_symbol? hc ?_ ?_
      · rintro ⟨rfl, hd⟩
        exact (hnext '-' hd).1 ⟨rfl, rfl⟩
      · rintro ⟨rfl, hd⟩
        obtain ⟨d, hd1, hd2⟩ := (Option.any_eq_true _ _).mp hd
        exact (hnext d hd1).2 ⟨rfl, hd2⟩
    | cons d ds =>
      simp only [List.head?_cons, Option.all_some, Bool.and_eq_true, decide_eq_true_eq,
        Bool.not_eq_eq_eq_not, Bool.not_true] at hcs
      refine first?_eq_symbol? hc ?_ ?_
      · rintro ⟨-, hd⟩
        exact hcs.1 (Option.some.inj hd)
      · rintro ⟨-, hd⟩
        simp [startsDigit, hcs.2] at hd
  rcases h with h | ⟨c, h, rfl⟩
  · simp only [longOperators, List.mem_cons, List.not_mem_nil, or_false] at h
    rcases h with rfl | rfl | rfl | rfl | rfl | rfl | rfl | rfl | rfl | rfl | rfl <;>
      exact hfirst _ _ rfl (by decide) (by decide)
  · simp only [shortOperators, List.mem_cons, List.not_mem_nil, or_false] at h
    rcases h with rfl | rfl | rfl | rfl | rfl | rfl | rfl | rfl | rfl | rfl | rfl <;>
      exact hfirst _ _ rfl (by decide) rfl

theorem stringBody_escape (quote c : Char) (cs : List Char) :
    stringBody quote ('\\' :: c :: cs) = '\\' :: c :: stringBody quote cs := by
  rw [stringBody]

theorem stringBody_cons {quote c : Char} (hc : c ≠ '\\') (cs : List Char) :
    stringBody quote (c :: cs) = if c = quote || c = '\n' then [] else c :: stringBody quote cs := by
  rw [stringBody]
  rintro _ _ rfl
  exact absurd rfl hc

theorem stringBody_stringBody {quote : Char} (hq : quote ≠ '\\') (cs : List Char) :
    stringBody quote (stringBody quote cs) = stringBody quote cs := by
  fun_induction stringBody quote cs with
  | case1 => rfl
  | case2 c cs ih => rw [stringBody_escape, ih]
  | case3 c cs hne h => rfl
  | case4 c cs hne h ih =>
    by_cases hc : c = '\\'
    · subst hc
      cases cs with
      | nil => simp [stringBody, hq.symm]
      | cons d ds => exact absurd rfl (hne d ds rfl)
    · rw [stringBody_cons hc, if_neg h, ih]

/-- The content of a string ends at the first stop behind it that no backslash keeps. -/
theorem stringBody_append {quote stop : Char} (hq : quote ≠ '\\') (hstop : stop = quote ∨ stop = '\n')
    {text : List Char} (h : stringBody quote text = text) (hd : dangles text = false) (rest : List Char) :
    stringBody quote (text ++ stop :: rest) = text := by
  fun_induction dangles text with
  | case1 =>
    have hne : stop ≠ '\\' := by
      rcases hstop with rfl | rfl
      · exact hq
      · decide
    rw [List.nil_append, stringBody_cons hne, if_pos (by simpa using hstop)]
  | case2 => simp at hd
  | case3 c cs ih =>
    rw [stringBody_escape] at h
    simp only [List.cons_append, stringBody_escape]
    rw [ih (by simpa using h) hd]
  | case4 c cs hne1 hne2 ih =>
    have hc : c ≠ '\\' := by
      rintro rfl
      cases cs with
      | nil => exact hne1 rfl rfl
      | cons d ds => exact hne2 d ds rfl rfl
    rw [stringBody_cons hc] at h
    split at h
    · simp at h
    · rename_i hstop
      rw [List.cons_append, stringBody_cons hc, if_neg hstop, ih (by simpa using h) hd]

theorem scan?_literal {value : String} {quote : Char} (h : IsContent quote value.toList)
    (hd : dangles value.toList = false) (rest : List Char) :
    scan? ((literal value quote).source ++ rest) = some (literal value quote) := by
  have hq : quote ≠ '\\' := by rcases h.1 with rfl | rfl <;> decide
  have hbody := stringBody_append hq (.inl rfl) h.2 hd rest
  have hfirst : ∀ cs, first? quote cs = some (string quote cs) := by
    intro cs
    rcases h.1 with rfl | rfl <;> rfl
  simp only [literal, List.cons_append, List.append_assoc, List.nil_append, scan?, hfirst, string,
    hbody, List.drop_left, List.head?_cons, if_true]

/-- The scanner finds a lexeme again if nothing behind it could belong to it. -/
theorem scan?_of_whole {l : Lexeme} (h : Whole l) (rest : List Char)
    (he : endsBefore l rest.head? = true) : scan? (l.source ++ rest) = some l := by
  cases h with
  | keyword s h hk => simpa [keyword, verbatim, hk] using scan?_word h he
  | name s h hk => simpa [name, verbatim, hk] using scan?_word h he
  | numeral s h => exact scan?_number h he
  | operator s h => exact scan?_operator h he
  | mark s c hc h => simpa [mark, verbatim, h] using scan?_mark hc rest
  | literal value quote h hd => exact scan?_literal h hd rest

theorem source_ne_nil_of_whole {l : Lexeme} (h : Whole l) : l.source ≠ [] := by
  cases h with
  | keyword s h hk => obtain ⟨c, cs, h, -⟩ := h; simp [keyword, verbatim, h]
  | name s h hk => obtain ⟨c, cs, h, -⟩ := h; simp [name, verbatim, h]
  | numeral s h => obtain ⟨-, c, cs, h, -⟩ := h; simp [numeral, verbatim, h]
  | operator s h =>
    rcases h with h | ⟨c, -, h⟩
    · intro hs
      have hnil : s.toList = [] := hs
      rw [hnil] at h
      exact absurd h (by decide)
    · simp [operator, verbatim, h]
  | mark s c hc h => simp [mark, verbatim, h]
  | literal value quote h hd => simp [literal]

end Lexeme

end ScriptGraph
