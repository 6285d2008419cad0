import Mathlib.Data.Nat.Factorization.Basic
import ScriptGraph.Proofs.JsonText
import ScriptGraph.Proofs.WholeDoubles

/-- The first number at which a function has a value. -/
theorem List.findSome?_range {α : Type} {f : Nat → Option α} {k n : Nat} {a : α} (hk : k < n)
    (hnone : ∀ j < k, f j = none) (h : f k = some a) : (List.range n).findSome? f = some a := by
  have hrange : List.range n = List.range k ++ k :: List.range' (k + 1) (n - k - 1) := by
    have happend := @List.range'_append_1 0 k (n - k - 1 + 1)
    rw [Nat.zero_add] at happend
    rw [List.range_eq_range', List.range_eq_range', ← List.range'_succ, happend]
    congr 1
    omega
  exact List.findSome?_eq_some_iff.mpr ⟨_, _, _, hrange, h, fun j hj => hnone j (List.mem_range.mp hj)⟩

namespace ScriptGraph

open Float.Model Float.Model.UnpackedFloat

namespace Decimal

/-- The numbers that round to a whole number hold no other one. -/
structure Interval.IsAround (i : Interval) (n : Nat) : Prop where
  value : i.value = n * i.unit
  wide : 2 < i.unit
  low : i.low < i.value ∧ i.value ≤ i.low + 2
  high : i.value < i.high ∧ i.high ≤ i.value + 2

theorem Interval.IsAround.contains {i : Interval} {n : Nat} (h : i.IsAround n) (k : Nat) :
    i.contains k 1 = decide (k = n) := by
  obtain ⟨hvalue, hwide, hlow, hhigh⟩ := h
  -- a neighbour is farther away than the ends of the interval
  have hapart {a b : Nat} (hlt : a < b) : a * i.unit + i.unit ≤ b * i.unit := by
    rw [← Nat.succ_mul]
    exact Nat.mul_le_mul_right _ hlt
  have houtside (hne : k ≠ n) : k * i.unit < i.low ∨ i.high < k * i.unit := by
    rcases Nat.lt_or_gt_of_ne hne with hlt | hlt
    · have := hapart hlt
      omega
    · have := hapart hlt
      omega
  unfold Interval.contains
  rw [Nat.mul_one, Nat.mul_one]
  by_cases heq : k = n
  · subst heq
    rw [decide_eq_true rfl, ← hvalue]
    split <;> rw [Bool.and_eq_true, decide_eq_true_iff, decide_eq_true_iff] <;> omega
  · have := houtside heq
    rw [decide_eq_false heq]
    split <;> rw [Bool.and_eq_false_iff, decide_eq_false_iff_not, decide_eq_false_iff_not] <;> omega

/-- The coarse grids that the number is on give its digits, the others nothing. -/
theorem Interval.IsAround.onGrid? {i : Interval} {n : Nat} (h : i.IsAround n) (p : Nat) :
    i.onGrid? p = if 10 ^ p ∣ n then some ⟨n / 10 ^ p, p⟩ else none := by
  have hunit : 0 < i.unit := Nat.zero_lt_of_lt h.wide
  have hup : Nat.pow 10 (p : Int).toNat = 10 ^ p := rfl
  have hden : Nat.pow 10 (-(p : Int)).toNat = 1 := by rw [Int.toNat_neg_natCast]
  have hbelow : i.value * 1 / (i.unit * 10 ^ p) = n / 10 ^ p := by
    rw [h.value, Nat.mul_one, Nat.mul_comm n, Nat.mul_div_mul_left _ _ hunit]
  have habove : (n / 10 ^ p + 1) * 10 ^ p ≠ n := by
    rw [Nat.mul_comm]
    exact (Nat.lt_mul_div_succ n (Nat.pow_pos (by decide))).ne'
  unfold Interval.onGrid?
  simp only [hup, hden, hbelow, h.contains, habove, decide_false]
  by_cases hdvd : 10 ^ p ∣ n
  · rw [if_pos hdvd, Nat.div_mul_cancel hdvd, decide_eq_true rfl]
  · rw [if_neg hdvd, decide_eq_false fun heq => hdvd (Dvd.intro_left _ heq)]

/-- The digits of a number with zeros behind them. -/
theorem toDigits_mul_pow {q : Nat} (hq : 0 < q) (z : Nat) :
    Nat.toDigits 10 (q * 10 ^ z) = Nat.toDigits 10 q ++ List.replicate z '0' := by
  induction z with
  | zero => simp
  | succ z ih =>
    have hpos : 0 < q * 10 ^ z := Nat.mul_pos hq (Nat.pow_pos (by decide))
    have hzero : Nat.toDigits 10 0 = ['0'] := rfl
    have hstep := Nat.toDigits_append_toDigits (by decide : 1 < 10) hpos (by decide : 0 < 10)
    rw [ih, hzero, Nat.add_zero, Nat.mul_comm 10, Nat.mul_assoc, ← Nat.pow_succ] at hstep
    rw [← hstep, List.replicate_succ', List.append_assoc]

theorem digitCount_mul_pow {q : Nat} (hq : 0 < q) (z : Nat) : digitCount (q * 10 ^ z) = digitCount q + z := by
  rw [digitCount, toDigits_mul_pow hq, List.length_append, List.length_replicate, digitCount]

/-- The shortest decimal of a whole number leaves out the zeros at its end. -/
theorem Interval.IsAround.shortest {i : Interval} {q z : Nat} (h : i.IsAround (q * 10 ^ z)) (hq : ¬ 10 ∣ q)
    (hlt : q * 10 ^ z < 10 ^ 17) : i.shortest = ⟨q, z⟩ := by
  have hpos : 0 < q := Nat.pos_of_ne_zero fun hzero => hq (hzero ▸ Nat.dvd_zero 10)
  have hunit : 0 < i.unit := Nat.zero_lt_of_lt h.wide
  have hcount : 0 < digitCount q := Nat.length_toDigits_pos
  have htop : magnitude i.value i.unit = ((digitCount q + z : Nat) : Int) - 1 := by
    have hle : i.unit ≤ i.value := h.value ▸ Nat.le_mul_of_pos_left _ (Nat.mul_pos hpos (Nat.pow_pos (by decide)))
    rw [Decimal.magnitude, if_pos hle, h.value, Nat.mul_div_cancel _ hunit, digitCount_mul_pow hpos]
  have hcoarse : ∀ k < digitCount q - 1, i.onGrid? (Decimal.magnitude i.value i.unit - Int.ofNat k) = none := by
    intro k hk
    obtain ⟨p, hp⟩ := Nat.exists_eq_add_of_lt hk
    have hplace : Decimal.magnitude i.value i.unit - Int.ofNat k = ((z + (p + 1) : Nat) : Int) := by
      rw [htop, Int.ofNat_eq_natCast]
      omega
    rw [hplace, h.onGrid?, if_neg]
    rw [Nat.pow_add, Nat.mul_comm q, Nat.mul_dvd_mul_iff_left (Nat.pow_pos (by decide))]
    exact fun hdvd => hq ((Nat.dvd_mul_left 10 (10 ^ p)).trans hdvd)
  have hfine : i.onGrid? (Decimal.magnitude i.value i.unit - Int.ofNat (digitCount q - 1)) = some ⟨q, z⟩ := by
    have hplace : Decimal.magnitude i.value i.unit - Int.ofNat (digitCount q - 1) = (z : Int) := by
      rw [htop, Int.ofNat_eq_natCast]
      omega
    rw [hplace, h.onGrid?, if_pos (Nat.dvd_mul_left _ _), Nat.mul_div_cancel _ (Nat.pow_pos (by decide))]
  have hle : digitCount q ≤ 17 := by
    apply (Nat.length_toDigits_le_iff (by decide) (by decide)).mpr
    exact lt_of_le_of_lt (Nat.le_mul_of_pos_right q (Nat.pow_pos (by decide))) hlt
  unfold Interval.shortest
  dsimp only
  rw [List.findSome?_range (by omega) hcoarse hfine]
  rfl

/-- The places of a double that is a whole number. -/
theorem Interval.isAround_ofBinary {n s : Nat} (hpos : 0 < n) (narrow : Bool) :
    (Interval.ofBinary ⟨n * 2 ^ s, -(s : Int), narrow⟩).IsAround n := by
  have hlong : 0 < n * 2 ^ s := Nat.mul_pos hpos (Nat.two_pow_pos s)
  have hup : 1 <<< (-(s : Int)).toNat = 1 := by rw [Int.toNat_neg_natCast, Nat.shiftLeft_zero]
  have hunit : 4 <<< (-(-(s : Int))).toNat = 4 * 2 ^ s := by rw [Int.neg_neg, Int.toNat_natCast, Nat.shiftLeft_eq]
  have hfour : 4 * (n * 2 ^ s) = n * (4 * 2 ^ s) := Nat.mul_left_comm ..
  have hpow := Nat.two_pow_pos s
  unfold Interval.ofBinary
  simp only [hup, hunit, Nat.mul_one]
  cases narrow
  all_goals
    refine ⟨hfour, ?_, ⟨?_, ?_⟩, ?_, ?_⟩ <;> simp <;> omega

theorem Binary.ofFloat_whole {n s : Nat} (h : IsFull n s) :
    ∃ narrow, Binary.ofFloat (whole n) = ⟨n * 2 ^ s, -(s : Int), narrow⟩ := by
  have hplaces := h.places
  have hlow := h.low
  have hhigh := h.high
  have hbiased : ((1074 - s) * 2 ^ 52 + n * 2 ^ s) >>> 52 % 1 <<< 11 = 1075 - s := by
    rw [Nat.shiftRight_eq_div_pow, Nat.one_shiftLeft]
    omega
  have hfraction : 1 <<< 52 + ((1074 - s) * 2 ^ 52 + n * 2 ^ s) % 1 <<< 52 = n * 2 ^ s := by
    rw [Nat.one_shiftLeft]
    omega
  have hexponent : Int.subNatNat (1075 - s) 1075 = -(s : Int) := by
    rw [Int.subNatNat_eq_coe]
    omega
  unfold Binary.ofFloat
  dsimp only
  rw [h.toBits, hbiased, if_neg (by omega), hfraction, hexponent]
  exact ⟨_, rfl⟩

theorem exists_toDigits_eq_append {q : Nat} (hq : ¬ 10 ∣ q) : ∃ ds c, Nat.toDigits 10 q = ds ++ [c] ∧ c ≠ '0' := by
  have hlast : q % 10 ≠ 0 := fun hzero => hq (Nat.dvd_of_mod_eq_zero hzero)
  rw [Nat.toDigits_eq_if (by decide)]
  split
  · rename_i hlt
    rw [Nat.mod_eq_of_lt hlt] at hlast
    exact ⟨[], q.digitChar, rfl, fun hzero => hlast (Nat.digitChar_eq_zero.mp hzero)⟩
  · exact ⟨_, (q % 10).digitChar, rfl, fun hzero => hlast (Nat.digitChar_eq_zero.mp hzero)⟩

/-- A whole number is written with all its digits. -/
theorem Style.write_whole {style : Style} {q z : Nat} (hq : ¬ 10 ∣ q) (hlowest : style.lowest ≤ 0)
    (hlimit : (digitCount q + z : Nat) ≤ style.limit) :
    style.write ⟨q, z⟩ = String.ofList (Nat.toDigits 10 (q * 10 ^ z)) ++ ".0" := by
  have hpos : 0 < q := Nat.pos_of_ne_zero fun hzero => hq (hzero ▸ Nat.dvd_zero 10)
  have hcount : 0 < digitCount q := Nat.length_toDigits_pos
  have hdigits : ((Nat.toDigits 10 q).reverse.dropWhile (· = '0')).reverse = Nat.toDigits 10 q := by
    obtain ⟨ds, c, hds, hc⟩ := exists_toDigits_eq_append hq
    rw [hds, List.reverse_append, List.reverse_singleton, List.singleton_append,
      List.dropWhile_cons_of_neg (by simpa using hc), List.reverse_cons, List.reverse_reverse]
  have hexponent : (z : Int) + digitCount q - 1 = ((digitCount q - 1 + z : Nat) : Int) := by omega
  have hplain : (decide (style.lowest ≤ ((digitCount q - 1 + z : Nat) : Int)) &&
      decide (((digitCount q - 1 + z : Nat) : Int) < style.limit)) = true := by
    rw [decide_eq_true (by omega), decide_eq_true (by omega), Bool.true_and]
  have hwhole : digitCount q - 1 + z + 1 = digitCount q + z := by omega
  have hlength : (Nat.toDigits 10 q).length = digitCount q := rfl
  unfold Style.write
  dsimp only
  rw [hdigits, hexponent, if_pos hplain, if_pos (Int.natCast_nonneg _), Int.toNat_natCast, hwhole, hlength,
    List.drop_eq_nil_of_le (by omega), List.take_of_length_le (by omega), Nat.add_sub_cancel_left,
    ← toDigits_mul_pow hpos, List.isEmpty_nil, if_pos rfl, String.append_assoc]
  rfl

end Decimal

section Texts

variable {n : Nat}

theorem isFinite_whole (hpos : 0 < n) (h : n < 2 ^ 53) : (whole n).isFinite = true := by
  have hlong := le_toBits_whole hpos h
  obtain ⟨m, a, hm⟩ := @exists_isFinite (whole n).toBits.toBitVec (by rw [UInt64.toNat_toBitVec]; omega)
    (toBits_whole_lt h)
  change (UnpackedFloat.unpack Format.binary64 (whole n).toBits.toBitVec).isFinite = true
  rw [hm.unpack]
  rfl

/-- The text of a whole number: its digits and a decimal zero. -/
theorem Json.scalar_whole (hpos : 0 < n) (h : n < 2 ^ 53) :
    Json.scalar (.double (whole n)) = String.ofList (Nat.toDigits 10 n) ++ ".0" := by
  obtain ⟨s, hfull⟩ := exists_isFull hpos h
  obtain ⟨narrow, hbinary⟩ := Decimal.Binary.ofFloat_whole hfull
  obtain ⟨z, q, hq, hn⟩ := Nat.exists_eq_pow_mul_and_not_dvd hpos.ne' 10 (by decide)
  rw [Nat.mul_comm] at hn
  have hqpos : 0 < q := Nat.pos_of_ne_zero fun hzero => hq (hzero ▸ Nat.dvd_zero 10)
  have hshortest : (Decimal.Interval.ofBinary ⟨n * 2 ^ s, -(s : Int), narrow⟩).shortest = ⟨q, z⟩ := by
    apply Decimal.Interval.IsAround.shortest _ hq (by omega)
    rw [← hn]
    exact Decimal.Interval.isAround_ofBinary hpos narrow
  have hlimit : ((Decimal.digitCount q + z : Nat) : Int) ≤ Json.doubleStyle.limit := by
    rw [← Decimal.digitCount_mul_pow hqpos, ← hn]
    apply Int.ofNat_le.mpr
    exact (Nat.length_toDigits_le_iff (by decide) (by decide)).mpr (lt_of_lt_of_le h (by decide))
  have hsign : ¬ (whole n).toBits.toNat >>> 63 = 1 := by
    have hfinite := toBits_whole_lt h
    rw [Nat.shiftRight_eq_div_pow]
    omega
  have hmantissa : ¬ n * 2 ^ s = 0 := (lt_of_lt_of_le (by decide) hfull.low).ne'
  rw [Json.scalar, Json.doubleText?, if_pos (isFinite_whole hpos h), Option.getD_some, Decimal.Style.float,
    hbinary, if_neg hsign, if_neg hmantissa, hshortest, Decimal.Style.write_whole hq (by decide) hlimit, ← hn,
    String.empty_append]

end Texts

namespace Json.Reader

theorem isDigit_of_mem_toDigits {n : Nat} {c : Char} (h : c ∈ Nat.toDigits 10 n) : isDigit c = true := by
  have hdigit := Nat.isDigit_of_mem_toDigits (by decide) (by decide) h
  simpa [isDigit, Char.isDigit, Char.le_def] using hdigit

/-- The digits of a number, with no zero in front. -/
theorem exists_toDigits_eq_cons {n : Nat} (hpos : 0 < n) : ∃ c cs, Nat.toDigits 10 n = c :: cs ∧ c ≠ '0' := by
  induction n using Nat.strong_induction_on with
  | _ n ih =>
    rw [Nat.toDigits_eq_if (by decide)]
    split
    · exact ⟨_, [], rfl, fun hzero => hpos.ne' (Nat.digitChar_eq_zero.mp hzero)⟩
    · obtain ⟨c, cs, hcs, hc⟩ := ih (n / 10) (by omega) (by omega)
      exact ⟨c, _, by rw [hcs]; rfl, hc⟩

theorem takeWhile_isDigit {ds rest : List Char} (hds : ∀ c ∈ ds, isDigit c = true)
    (hrest : ∀ c ∈ rest.head?, isDigit c = false) : (ds ++ rest).takeWhile isDigit = ds := by
  rw [List.takeWhile_append_of_pos hds]
  cases rest with
  | nil => simp
  | cons c rest => rw [List.takeWhile_cons_of_neg (by simp [hrest c rfl]), List.append_nil]

theorem whole?_toDigits {n : Nat} (hpos : 0 < n) {rest : List Char} (hrest : ∀ c ∈ rest.head?, isDigit c = false) :
    whole? (Nat.toDigits 10 n ++ rest) = some (Nat.toDigits 10 n, rest) := by
  have hdigits : (Nat.toDigits 10 n ++ rest).takeWhile isDigit = Nat.toDigits 10 n :=
    takeWhile_isDigit (fun _ => isDigit_of_mem_toDigits) hrest
  obtain ⟨c, cs, hcs, hc⟩ := exists_toDigits_eq_cons hpos
  unfold whole?
  rw [hdigits, hcs]
  split
  all_goals simp_all

theorem le_ofDigitChars (ds : List Char) (m : Nat) : m ≤ Nat.ofDigitChars 10 ds m := by
  induction ds generalizing m with
  | nil => exact Nat.le_refl m
  | cons c ds ih =>
    rw [Nat.ofDigitChars_cons]
    exact le_trans (by omega) (ih _)

theorem extend_eq {ds : List Char} {m : Nat} (h : Nat.ofDigitChars 10 ds m < Decimal.significandBound) :
    Decimal.extend m ds = (Nat.ofDigitChars 10 ds m, []) := by
  induction ds generalizing m with
  | nil => rfl
  | cons c ds ih =>
    rw [Nat.ofDigitChars_cons] at h ⊢
    rw [Decimal.extend, Decimal.digitValue, if_pos (lt_of_le_of_lt (le_ofDigitChars ds _) h)]
    exact ih h

/-- With one decimal, a whole number is divided by ten again. -/
theorem scale?_ten_mul {n : Nat} (hpos : 0 < n) (h : 10 * n < 2 ^ 53) :
    Decimal.scale? (10 * n) (-1) = some (whole n) := by
  have hpower : Decimal.power 1 = whole 10 := by decide +kernel
  have hquotient : whole (10 * n) / whole 10 = whole n := by
    rw [Nat.mul_comm]
    exact whole_div hpos (by decide) (by omega)
  rw [← hquotient, ← hpower]
  rfl

/-- A number in front of a decimal zero is read as its double. -/
theorem number_whole {n : Nat} (hpos : 0 < n) (h : 10 * n < 2 ^ 53) {rest : List Char} (hrest : Ends rest) :
    number false (Nat.toDigits 10 n ++ '.' :: '0' :: rest) = some (.double (whole n), rest) := by
  have hwhole : whole? (Nat.toDigits 10 n ++ '.' :: '0' :: rest) = some (Nat.toDigits 10 n, '.' :: '0' :: rest) :=
    whole?_toDigits hpos (by simp [isDigit])
  have hfraction : fraction? ('.' :: '0' :: rest) = some (['0'], rest) := by
    have htake : (['0'] ++ rest).takeWhile isDigit = ['0'] :=
      takeWhile_isDigit (by simp [isDigit]) fun c hc => (hrest c hc).1
    rw [List.singleton_append] at htake
    simp [fraction?, htake]
  have hexponent : exponent? rest = some (none, rest) := by
    cases rest with
    | nil => rfl
    | cons c rest =>
      obtain ⟨-, -, he, hE⟩ := hrest c rfl
      simp [exponent?, he, hE]
  have hdigits : Decimal.extend 0 (Nat.toDigits 10 n) = (n, []) := by
    have hvalue := @Nat.ofDigitChars_ten_toDigits n
    have hbound : Decimal.significandBound = 2 ^ 64 := rfl
    rw [extend_eq (by omega), hvalue]
  have hdecimals : Decimal.extend n ['0'] = (10 * n, []) := by
    have hbound : Decimal.significandBound = 2 ^ 64 := rfl
    have hzero : Decimal.digitValue '0' = 0 := rfl
    rw [Decimal.extend, hzero, Nat.add_zero, if_pos (by omega), Decimal.extend]
  unfold number
  simp [hwhole, hfraction, hexponent, hdigits, hdecimals, double?, scale?_ten_mul hpos h]

theorem valueOver_digit {c : Char} (h : isDigit c = true) (inner : Option (Reader Json)) (cs : List Char) :
    valueOver inner (c :: cs) = number false (c :: cs) := by
  have hspace : isSpace c = false := by
    by_contra hblank
    simp only [Bool.not_eq_false, isSpace, Bool.or_eq_true, decide_eq_true_eq] at hblank
    rcases hblank with ((rfl | rfl) | rfl) | rfl <;> cases h
  have hskip : skip (c :: cs) = c :: cs := List.dropWhile_cons_of_neg (by simp [hspace])
  unfold valueOver
  rw [hskip]
  split
  case h_8 => rfl
  all_goals
    rename_i heq
    rw [(List.cons.inj heq).1] at h
    cases h

/-- The text of a whole number leads back to its double. -/
theorem takes_whole {n : Nat} (hpos : 0 < n) (h : 10 * n < 2 ^ 53) (depth : Nat) :
    Takes (value depth) (scalar (.double (whole n))).toList (.double (whole n)) := by
  intro rest hrest
  have htext : (scalar (.double (whole n))).toList ++ rest = Nat.toDigits 10 n ++ '.' :: '0' :: rest := by
    rw [scalar_whole hpos (by omega), String.toList_append, String.toList_ofList, List.append_assoc]
    rfl
  obtain ⟨c, cs, hcs, -⟩ := exists_toDigits_eq_cons hpos
  have hdigit : isDigit c = true := isDigit_of_mem_toDigits (hcs ▸ List.mem_cons_self)
  rw [htext]
  have hread := number_whole hpos h hrest
  rw [hcs, List.cons_append] at hread ⊢
  cases depth <;> rw [value, valueOver_digit hdigit, hread]

end Json.Reader

end ScriptGraph
