import Mathlib.Data.List.Forall2
import ScriptGraph.Json.Reader
import ScriptGraph.Json.Writer

namespace ScriptGraph.Json

namespace Reader

def IsBlank (gap : List Char) : Prop := ∀ c ∈ gap, isSpace c = true

theorem IsBlank.skip_append {gap : List Char} (h : IsBlank gap) (cs : List Char) : skip (gap ++ cs) = skip cs :=
  List.dropWhile_append_of_pos h

theorem value_blank {gap : List Char} (h : IsBlank gap) (depth : Nat) (cs : List Char) :
    value depth (gap ++ cs) = value depth cs := by
  cases depth <;> simp only [value, valueOver, h.skip_append]

theorem entry_blank {gap : List Char} (h : IsBlank gap) (read : Reader Json) (cs : List Char) :
    entry read (gap ++ cs) = entry read cs := by
  simp only [entry, h.skip_append]

section Strings

variable (cs : List Char)

theorem string_plain {c : Char} (hq : c ≠ '"') (hb : c ≠ '\\') (hc : ¬ c.toNat < 0x20) :
    string (c :: cs) = (string cs).map fun read => (c :: read.1, read.2) := by
  rw [string] <;> simp [hq, hb, hc, Option.map_eq_bind, Function.comp_def]

theorem string_short {c e : Char} (hu : c ≠ 'u') (he : escape? c = some e) :
    string ('\\' :: c :: cs) = (string cs).map fun read => (e :: read.1, read.2) := by
  rw [string] <;> simp [hu, he, Option.map_eq_bind, Function.comp_def]

theorem string_long {a b c d : Char} {n : Nat} (h : hex? a b c d = some n) (hn : n < 0xD800) :
    string ('\\' :: 'u' :: a :: b :: c :: d :: cs) = (string cs).map fun read => (Char.ofNat n :: read.1, read.2) := by
  have hhigh : isHighSurrogate n = false := by
    rw [isHighSurrogate, decide_eq_false (by omega), Bool.false_and]
  have hlow : isLowSurrogate n = false := by
    rw [isLowSurrogate, decide_eq_false (by omega), Bool.false_and]
  rw [string]
  simp [h, hhigh, hlow, Option.map_eq_bind, Function.comp_def]

theorem hex?_digitChar : ∀ n < 0x20, hex? '0' '0' (Nat.digitChar (n / 16)) (Nat.digitChar (n % 16)) = some n := by
  decide

/-- One character of a string is read as it was. -/
theorem string_escaped (c : Char) : string (escaped c ++ cs) = (string cs).map fun read => (c :: read.1, read.2) := by
  unfold escaped
  split
  case h_8 hq hb _ _ _ _ _ =>
    split
    case isTrue hc =>
      have hlong := string_long cs (hex?_digitChar c.toNat hc) (by omega)
      rwa [Char.ofNat_toNat] at hlong
    case isFalse hc => exact string_plain cs hq hb hc
  all_goals
    rw [List.cons_append, List.cons_append, List.nil_append]
    exact string_short cs (by decide) rfl

theorem string_flatMap_escaped (s : List Char) : string (s.flatMap escaped ++ '"' :: cs) = some (s, cs) := by
  induction s with
  | nil => rw [List.flatMap_nil, List.nil_append, string]
  | cons c s ih => rw [List.flatMap_cons, List.append_assoc, string_escaped, ih, Option.map_some]

end Strings

theorem toList_quoted (s : String) (cs : List Char) :
    (quoted s).toList ++ cs = '"' :: (s.toList.flatMap escaped ++ '"' :: cs) := by
  simp [quoted]

/-- No number goes on with this text. -/
def Ends (rest : List Char) : Prop := ∀ c ∈ rest.head?, isDigit c = false ∧ c ≠ '.' ∧ c ≠ 'e' ∧ c ≠ 'E'

theorem Ends.cons {c : Char} (h : c ∈ [' ', '\t', '\n', '\r', ',', ']', '\x7d']) (cs : List Char) : Ends (c :: cs) := by
  intro d hd
  obtain rfl : c = d := Option.some.inj hd
  have hall : [' ', '\t', '\n', '\r', ',', ']', '\x7d'].all
      (fun c => decide (isDigit c = false ∧ c ≠ '.' ∧ c ≠ 'e' ∧ c ≠ 'E')) = true := by decide
  exact of_decide_eq_true (List.all_eq_true.mp hall c h)

theorem IsBlank.ends {gap rest : List Char} (h : IsBlank gap) (hrest : Ends rest) : Ends (gap ++ rest) := by
  cases gap with
  | nil => exact hrest
  | cons c gap =>
    have hspace := h c List.mem_cons_self
    simp only [isSpace, Bool.or_eq_true, decide_eq_true_eq] at hspace
    apply Ends.cons
    simp [← or_assoc, hspace]

/-- The reader takes the text for this value. -/
def Takes {α : Type} (read : Reader α) (text : List Char) (a : α) : Prop :=
  ∀ rest, Ends rest → read (text ++ rest) = some (a, rest)

theorem takes_string (depth : Nat) (s : String) : Takes (value depth) (quoted s).toList (.string s) := by
  intro rest _
  have hskip : skip ('"' :: (s.toList.flatMap escaped ++ '"' :: rest)) =
      '"' :: (s.toList.flatMap escaped ++ '"' :: rest) := rfl
  rw [toList_quoted]
  cases depth <;> simp [value, valueOver, hskip, string_flatMap_escaped]

theorem takes_bool (depth : Nat) (b : Bool) : Takes (value depth) (scalar (.bool b)).toList (.bool b) := by
  intro rest _
  cases depth <;> cases b <;> rfl

theorem takes_null (depth : Nat) : Takes (value depth) (scalar .null).toList .null := by
  intro rest _
  cases depth <;> rfl

/-- The reader passes over blanks and takes nothing in front of a closing bracket. -/
structure Skipping {α : Type} (read : Reader α) (close : Char) : Prop where
  blank : ∀ {gap}, IsBlank gap → ∀ cs, read (gap ++ cs) = read cs
  refuses : ∀ {cs rest}, skip cs = close :: rest → read cs = none

theorem skipping_value (depth : Nat) : Skipping (value depth) ']' where
  blank h := value_blank h depth
  refuses h := by cases depth <;> simp [value, valueOver, h, number, whole?, isDigit]

theorem skipping_entry (read : Reader Json) : Skipping (entry read) '\x7d' where
  blank h := entry_blank h read
  refuses h := by simp [entry, h]

/-- A key and its value, with blanks behind the colon. -/
theorem Takes.entry {read : Reader Json} {close : Char} (hread : Skipping read close) {text : List Char} {v : Json}
    (h : Takes read text v) (key : String) {gap : List Char} (hgap : IsBlank gap) :
    Takes (entry read) ((quoted key).toList ++ ':' :: gap ++ text) (key, v) := by
  intro rest hrest
  have hskip (cs : List Char) : skip ('"' :: cs) = '"' :: cs := rfl
  have hcolon (cs : List Char) : skip (':' :: cs) = ':' :: cs := rfl
  rw [List.append_assoc, List.append_assoc, toList_quoted, Reader.entry, hskip]
  simp only [string_flatMap_escaped, hcolon, List.cons_append, Option.bind_eq_bind, Option.bind_some,
    hread.blank hgap, h rest hrest, String.ofList_toList]
  rfl

/-- What arrays and objects have between their brackets. -/
def sequence {α : Type} (read : Reader α) (close : Char) : List Char → Reader (List α)
  | [], _ => none
  | _ :: budget, cs => do
    let (a, rest) ← read cs
    match skip rest with
    | c :: rest =>
      if c = ',' then
        let (as, rest) ← sequence read close budget rest
        return (a :: as, rest)
      else if c = close then return ([a], rest)
      else none
    | [] => none

theorem items_eq (read : Reader Json) (budget cs : List Char) : items read budget cs = sequence read ']' budget cs := by
  induction budget generalizing cs with
  | nil => rfl
  | cons b budget ih =>
    rw [items, sequence]
    congr 1
    funext result
    obtain ⟨a, rest⟩ := result
    dsimp only
    cases skip rest with
    | nil => rfl
    | cons c rest => split <;> simp_all

theorem entries_eq (read : Reader Json) (budget cs : List Char) :
    entries read budget cs = sequence (entry read) '\x7d' budget cs := by
  induction budget generalizing cs with
  | nil => rfl
  | cons b budget ih =>
    rw [entries, sequence]
    congr 1
    funext result
    obtain ⟨a, rest⟩ := result
    dsimp only
    cases skip rest with
    | nil => rfl
    | cons c rest => split <;> simp_all

/-- Texts behind commas. -/
def listed (gap : List Char) (texts : List (List Char)) : List Char := texts.flatMap fun text => ',' :: gap ++ text

theorem listed_cons_append (gap text : List Char) (texts : List (List Char)) (cs : List Char) :
    listed gap (text :: texts) ++ cs = ',' :: ((gap ++ text) ++ (listed gap texts ++ cs)) := by
  simp [listed]

theorem length_le_listed (gap : List Char) (texts : List (List Char)) : texts.length ≤ (listed gap texts).length := by
  induction texts with
  | nil => exact Nat.zero_le _
  | cons text texts ih =>
    simp only [listed, List.flatMap_cons, List.length_append, List.length_cons] at ih ⊢
    omega

section Sequences

variable {α : Type} {read : Reader α} {close : Char} (hread : Skipping read close)
  (hclose : close = ']' ∨ close = '\x7d') {gap tail : List Char} (hgap : IsBlank gap) (htail : IsBlank tail)
include hread hclose hgap htail

theorem sequence_listed {text : List Char} {a : α} (h : Takes read text a) {texts : List (List Char)} {as : List α}
    (hs : List.Forall₂ (Takes read) texts as) (rest budget : List Char) (hb : texts.length < budget.length) :
    sequence read close budget (text ++ (listed gap texts ++ (tail ++ close :: rest))) = some (a :: as, rest) := by
  have hskip : skip (close :: rest) = close :: rest := by rcases hclose with rfl | rfl <;> rfl
  have hends : Ends (close :: rest) := by rcases hclose with rfl | rfl <;> exact .cons (by simp) rest
  have hcomma : close ≠ ',' := by rcases hclose with rfl | rfl <;> decide
  obtain ⟨b, budget, rfl⟩ := List.exists_cons_of_length_pos (Nat.zero_lt_of_lt hb)
  induction hs generalizing text a b budget with
  | nil =>
    rw [sequence, listed, List.flatMap_nil, List.nil_append, h _ (htail.ends hends)]
    simp [htail.skip_append, hskip, hcomma]
  | @cons text' a' texts as h' hs ih =>
    have hsecond : Takes read (gap ++ text') a' := by
      intro rest hrest
      rw [List.append_assoc, hread.blank hgap, h' rest hrest]
    obtain ⟨b', budget, rfl⟩ := List.exists_cons_of_length_pos (Nat.zero_lt_of_lt (Nat.lt_of_succ_lt_succ hb))
    have hrest := ih hsecond b' budget (Nat.lt_of_succ_lt_succ hb)
    have hskip (cs : List Char) : skip (',' :: cs) = ',' :: cs := rfl
    rw [listed_cons_append, sequence, h _ (.cons (by simp) _)]
    simp [-List.append_assoc, hskip, hrest]

/-- What stands between the brackets is not taken for a closing bracket, and is read as a whole. -/
theorem sequence_bracketed {text : List Char} {a : α} (h : Takes read text a) {texts : List (List Char)} {as : List α}
    (hs : List.Forall₂ (Takes read) texts as) {rest cs : List Char}
    (hcs : cs = gap ++ (text ++ (listed gap texts ++ (tail ++ close :: rest)))) :
    (∀ cs', skip cs ≠ close :: cs') ∧ sequence read close cs cs = some (a :: as, rest) := by
  have hfirst : Takes read (gap ++ text) a := by
    intro rest hrest
    rw [List.append_assoc, hread.blank hgap, h rest hrest]
  have hlength : texts.length < cs.length := by
    have := length_le_listed gap texts
    simp only [hcs, List.length_append, List.length_cons]
    omega
  have hall := sequence_listed hread hclose hgap htail hfirst hs rest cs hlength
  rw [List.append_assoc, ← hcs] at hall
  refine ⟨fun cs' hcs' => ?_, hall⟩
  obtain ⟨b, budget, hb⟩ := List.exists_cons_of_length_pos (Nat.zero_lt_of_lt hlength)
  nth_rewrite 1 [hb] at hall
  rw [sequence, hread.refuses hcs'] at hall
  cases hall

end Sequences

theorem takes_array {depth : Nat} {gap tail : List Char} (hgap : IsBlank gap) (htail : IsBlank tail) {text : List Char}
    {v : Json} (h : Takes (value depth) text v) {texts : List (List Char)} {vs : List Json}
    (hs : List.Forall₂ (Takes (value depth)) texts vs) :
    Takes (value (depth + 1)) ('[' :: (gap ++ (text ++ (listed gap texts ++ (tail ++ [']']))))) (.array (v :: vs)) := by
  intro rest _
  have hcs : gap ++ (text ++ (listed gap texts ++ (tail ++ [']']))) ++ rest =
      gap ++ (text ++ (listed gap texts ++ (tail ++ ']' :: rest))) := by simp
  obtain ⟨hopen, hall⟩ := sequence_bracketed (skipping_value depth) (.inl rfl) hgap htail h hs hcs
  change array (value depth) (gap ++ (text ++ (listed gap texts ++ (tail ++ [']']))) ++ rest) = _
  unfold array
  split
  case h_1 cs hskip => exact absurd hskip (hopen cs)
  case h_2 => rw [items_eq, hall, Option.map_some]

theorem takes_object {depth : Nat} {gap tail : List Char} (hgap : IsBlank gap) (htail : IsBlank tail) {text : List Char}
    {e : String × Json} (h : Takes (entry (value depth)) text e) {texts : List (List Char)} {es : List (String × Json)}
    (hs : List.Forall₂ (Takes (entry (value depth))) texts es) :
    Takes (value (depth + 1)) ('\x7b' :: (gap ++ (text ++ (listed gap texts ++ (tail ++ ['\x7d'])))))
      (.object (e :: es)) := by
  intro rest _
  have hcs : gap ++ (text ++ (listed gap texts ++ (tail ++ ['\x7d']))) ++ rest =
      gap ++ (text ++ (listed gap texts ++ (tail ++ '\x7d' :: rest))) := by simp
  obtain ⟨hopen, hall⟩ := sequence_bracketed (skipping_entry (value depth)) (.inr rfl) hgap htail h hs hcs
  change object (value depth) (gap ++ (text ++ (listed gap texts ++ (tail ++ ['\x7d']))) ++ rest) = _
  unfold object
  split
  case h_1 cs hskip => exact absurd hskip (hopen cs)
  case h_2 => rw [entries_eq, hall, Option.map_some]

end Reader

open Reader

/-- A value that its texts lead back to: arrays and objects nest at most `depth` deep, and every number is a double
whose text is taken for it. -/
inductive Readable : Nat → Json → Prop
  | null {depth : Nat} : Readable depth .null
  | bool {depth : Nat} (b : Bool) : Readable depth (.bool b)
  | string {depth : Nat} (s : String) : Readable depth (.string s)
  | double {depth : Nat} {x : Float} (h : Takes (value depth) (scalar (.double x)).toList (.double x)) :
    Readable depth (.double x)
  | array {depth : Nat} {items : List Json} (h : ∀ v ∈ items, Readable depth v) : Readable (depth + 1) (.array items)
  | object {depth : Nat} {entries : List (String × Json)} (h : ∀ e ∈ entries, Readable depth e.2) :
    Readable (depth + 1) (.object entries)

theorem isBlank_nil : IsBlank [] := List.forall_mem_nil _

theorem forall₂_takes {α : Type} {read : Reader α} {text : α → List Char} {as : List α}
    (h : ∀ a ∈ as, Takes read (text a) a) : List.Forall₂ (Takes read) (as.map text) as :=
  List.forall₂_map_left_iff.mpr (List.forall₂_same.mpr h)

theorem takes_array_nil (depth : Nat) : Takes (value (depth + 1)) (scalar (.array [])).toList (.array []) := by
  intro rest _
  rfl

theorem takes_object_nil (depth : Nat) : Takes (value (depth + 1)) (scalar (.object [])).toList (.object []) := by
  intro rest _
  rfl

/-- The value holds no other ones. -/
def IsFlat : Json → Prop
  | array (_ :: _) | object (_ :: _) => False
  | _ => True

/-- An entry whose value is written by `write`, with `space` behind the colon. -/
def entryText (write : Json → List Char) (space : List Char) (e : String × Json) : List Char :=
  (quoted e.1).toList ++ ':' :: space ++ write e.2

/-- A way to write values: what a value holds starts behind the gap of the next level, and its bracket is closed
behind the gap of its own. -/
structure Writes (write : Nat → Json → List Char) (gap : Nat → List Char) (space : List Char) : Prop where
  gap_blank : ∀ level, IsBlank (gap level)
  space_blank : IsBlank space
  flat : ∀ level {v}, v.IsFlat → write level v = (scalar v).toList
  array : ∀ level v vs, write level (.array (v :: vs)) = '[' :: (gap (level + 1) ++ (write (level + 1) v ++
    (listed (gap (level + 1)) (vs.map (write (level + 1))) ++ (gap level ++ [']']))))
  object : ∀ level e es, write level (.object (e :: es)) = '\x7b' :: (gap (level + 1) ++
    (entryText (write (level + 1)) space e ++
      (listed (gap (level + 1)) (es.map (entryText (write (level + 1)) space)) ++ (gap level ++ ['\x7d']))))

/-- Whatever the gaps, a text leads back to the value. -/
theorem Writes.takes {write : Nat → Json → List Char} {gap : Nat → List Char} {space : List Char}
    (hw : Writes write gap space) {depth : Nat} {v : Json} (h : Readable depth v) :
    ∀ level, Takes (value depth) (write level v) v := by
  have hflat {depth : Nat} {v : Json} (hv : v.IsFlat) (h : Takes (value depth) (scalar v).toList v) (level : Nat) :
      Takes (value depth) (write level v) v := by
    rw [hw.flat level hv]
    exact h
  induction h with
  | null => exact hflat trivial (takes_null _)
  | bool b => exact hflat trivial (takes_bool _ b)
  | string s => exact hflat trivial (takes_string _ s)
  | double h => exact hflat trivial h
  | @array depth items _ ih =>
    cases items with
    | nil => exact hflat trivial (takes_array_nil depth)
    | cons v vs =>
      intro level
      obtain ⟨hv, hvs⟩ := List.forall_mem_cons.mp fun w hw => ih w hw (level + 1)
      rw [hw.array]
      exact takes_array (hw.gap_blank _) (hw.gap_blank _) hv (forall₂_takes hvs)
  | @object depth entries _ ih =>
    cases entries with
    | nil => exact hflat trivial (takes_object_nil depth)
    | cons e es =>
      intro level
      have hentry : ∀ f ∈ e :: es, Takes (entry (value depth)) (entryText (write (level + 1)) space f) f :=
        fun f hf => (ih f hf (level + 1)).entry (skipping_value depth) f.1 hw.space_blank
      obtain ⟨he, hes⟩ := List.forall_mem_cons.mp hentry
      rw [hw.object]
      exact takes_object (hw.gap_blank _) (hw.gap_blank _) he (forall₂_takes hes)

theorem toList_compactItems (vs : List Json) :
    (compactItems vs).toList = listed [] (vs.map fun v => (compact v).toList) := by
  induction vs with
  | nil => rfl
  | cons v vs ih => simp [compactItems, ih, listed]

theorem toList_compactEntries (es : List (String × Json)) :
    (compactEntries es).toList = listed [] (es.map (entryText (fun v => (compact v).toList) [])) := by
  induction es with
  | nil => rfl
  | cons e es ih => simp [compactEntries, ih, listed, entryText]

theorem writes_compact : Writes (fun _ v => (compact v).toList) (fun _ => []) [] where
  gap_blank _ := isBlank_nil
  space_blank := isBlank_nil
  flat _ v hv := by
    cases v with
    | array items => cases items <;> simp_all [IsFlat, compact]
    | object entries => cases entries <;> simp_all [IsFlat, compact]
    | _ => simp [compact]
  array _ v vs := by simp [compact, toList_compactItems]
  object _ e es := by simp [compact, toList_compactEntries, entryText]

theorem toList_prettyItems (level : Nat) (vs : List Json) :
    (prettyItems level vs).toList = listed (lineStart level).toList (vs.map fun v => (pretty level v).toList) := by
  induction vs with
  | nil => rfl
  | cons v vs ih => simp [prettyItems, ih, listed]

theorem toList_prettyEntries (level : Nat) (es : List (String × Json)) : (prettyEntries level es).toList =
    listed (lineStart level).toList (es.map (entryText (fun v => (pretty level v).toList) [' '])) := by
  induction es with
  | nil => rfl
  | cons e es ih => simp [prettyEntries, ih, listed, entryText]

theorem isBlank_lineStart (level : Nat) : IsBlank (lineStart level).toList := by
  have hindent : IsBlank (Text.repeated "  " level).toList := by
    induction level with
    | zero => simp [Text.repeated, IsBlank]
    | succ level ih => simpa [Text.repeated, IsBlank, isSpace] using ih
  simpa [lineStart, IsBlank, isSpace] using hindent

theorem writes_pretty :
    Writes (fun level v => (pretty level v).toList) (fun level => (lineStart level).toList) [' '] where
  gap_blank := isBlank_lineStart
  space_blank := by simp [IsBlank, isSpace]
  flat _ v hv := by
    cases v with
    | array items => cases items <;> simp_all [IsFlat, pretty]
    | object entries => cases entries <;> simp_all [IsFlat, pretty]
    | _ => simp [pretty]
  array _ v vs := by simp [pretty, toList_prettyItems]
  object _ e es := by simp [pretty, toList_prettyEntries, entryText]

/-- A text that is taken for a value is read as it, with blanks behind it. -/
theorem read?_of_takes {text gap : String} {v : Json} (h : Takes (value maxDepth) text.toList v)
    (hgap : IsBlank gap.toList) : read? (text ++ gap) = some v := by
  have hends : Ends gap.toList := by
    have hnil : Ends [] := by simp [Ends]
    simpa using hgap.ends hnil
  have hskip : skip gap.toList = [] := by simpa [skip] using hgap.skip_append []
  rw [read?, String.toList_append, h gap.toList hends]
  simp [hskip]

end ScriptGraph.Json
