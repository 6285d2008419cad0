import Mathlib.Algebra.Group.Nat.Defs
import Mathlib.Data.Nat.Log
import ScriptGraph.Decimal.Nearest
import ScriptGraph.Proofs.Hosting

namespace ScriptGraph

open Float.Model Float.Model.UnpackedFloat

namespace Decimal

theorem roundDiv_eq_or (n d : Nat) : roundDiv n d = n / d ∨ roundDiv n d = n / d + 1 := by
  unfold roundDiv
  dsimp only
  split
  · exact .inl rfl
  · exact .inr rfl

theorem roundDiv_mul (q : Nat) {d : Nat} (hd : 0 < d) : roundDiv (q * d) d = q := by
  unfold roundDiv
  simp [Nat.mul_mod_left, Nat.mul_div_cancel q hd, hd]

theorem roundDiv_mono {n n' : Nat} (d : Nat) (h : n ≤ n') : roundDiv n d ≤ roundDiv n' d := by
  have hq : n / d ≤ n' / d := Nat.div_le_div_right h
  rcases Nat.lt_or_eq_of_le hq with hlt | heq
  · have := roundDiv_eq_or n d
    have := roundDiv_eq_or n' d
    omega
  · -- the quotients agree, so the remainders are in order
    have hr : n % d ≤ n' % d := by
      have hn := Nat.div_add_mod n d
      have hn' := Nat.div_add_mod n' d
      rw [← heq] at hn'
      omega
    unfold roundDiv
    rw [← heq]
    dsimp only
    split <;> split <;> simp_all
    omega

theorem roundDiv_mul_mul (n d : Nat) {k : Nat} (hk : 0 < k) : roundDiv (n * k) (d * k) = roundDiv n d := by
  have hlt : 2 * (n % d * k) < d * k ↔ 2 * (n % d) < d := by
    rw [← Nat.mul_assoc]
    exact Nat.mul_lt_mul_right hk
  have heq : 2 * (n % d * k) = d * k ↔ 2 * (n % d) = d := by
    rw [← Nat.mul_assoc]
    exact Nat.mul_left_inj hk.ne'
  unfold roundDiv
  simp only [Nat.mul_div_mul_right n d hk, Nat.mul_mod_mul_right, hlt, heq]

end Decimal

theorem log2_mul_two_pow {m : Nat} (hm : m ≠ 0) (a : Nat) : (m * 2 ^ a).log2 = m.log2 + a := by
  induction a with
  | zero => simp
  | succ a ih =>
    have hne : m * 2 ^ a ≠ 0 := Nat.mul_ne_zero hm (Nat.two_pow_pos a).ne'
    rw [Nat.pow_succ, ← Nat.mul_assoc, Nat.mul_comm, Nat.log2_two_mul hne, ih, Nat.add_assoc]

/-- The number of places that `n` has above the last one of a double, counted in units of `2⁻ᵏ`. -/
def ulpExponent (k n : Nat) : Nat := n.log2 + 1022 - k

/-- The bits of the double nearest to `n · 2⁻ᵏ`. -/
def nearestBits (k n : Nat) : Nat :=
  min (ulpExponent k n * 2 ^ 52 + Decimal.roundDiv n (2 ^ (ulpExponent k n + (k - 1074)))) (2047 * 2 ^ 52)

section Rounding

variable {k n : Nat}

theorem roundDiv_le (hk : 1074 ≤ k) : Decimal.roundDiv n (2 ^ (ulpExponent k n + (k - 1074))) ≤ 2 ^ 53 := by
  have hlt : n < 2 ^ (n.log2 + 1) := Nat.lt_log2_self
  have hle : n ≤ 2 ^ 53 * 2 ^ (ulpExponent k n + (k - 1074)) := by
    rw [← Nat.pow_add]
    refine hlt.le.trans (Nat.pow_le_pow_right (by decide) ?_)
    unfold ulpExponent
    omega
  calc Decimal.roundDiv n _
    _ ≤ Decimal.roundDiv (2 ^ 53 * 2 ^ (ulpExponent k n + (k - 1074))) _ := Decimal.roundDiv_mono _ hle
    _ = 2 ^ 53 := Decimal.roundDiv_mul _ (Nat.two_pow_pos _)

theorem le_roundDiv (hk : 1074 ≤ k) (h : 0 < ulpExponent k n) :
    2 ^ 52 ≤ Decimal.roundDiv n (2 ^ (ulpExponent k n + (k - 1074))) := by
  have hn : n ≠ 0 := by
    rintro rfl
    simp [ulpExponent] at h
    omega
  have hle : 2 ^ 52 * 2 ^ (ulpExponent k n + (k - 1074)) ≤ n := by
    refine le_trans ?_ (Nat.log2_self_le hn)
    rw [← Nat.pow_add]
    unfold ulpExponent at h ⊢
    exact Nat.pow_le_pow_right (by decide) (by omega)
  calc 2 ^ 52
    _ = Decimal.roundDiv (2 ^ 52 * 2 ^ (ulpExponent k n + (k - 1074))) _ :=
      (Decimal.roundDiv_mul _ (Nat.two_pow_pos _)).symm
    _ ≤ Decimal.roundDiv n _ := Decimal.roundDiv_mono _ hle

/-- Rounding keeps the order, across the places where the exponent changes too. -/
theorem nearestBits_mono (hk : 1074 ≤ k) {n' : Nat} (h : n ≤ n') : nearestBits k n ≤ nearestBits k n' := by
  have hlog : n.log2 ≤ n'.log2 := by
    rw [Nat.log2_eq_log_two, Nat.log2_eq_log_two]
    exact Nat.log_mono_right h
  have hs : ulpExponent k n ≤ ulpExponent k n' := by
    unfold ulpExponent
    omega
  suffices ulpExponent k n * 2 ^ 52 + Decimal.roundDiv n (2 ^ (ulpExponent k n + (k - 1074))) ≤
      ulpExponent k n' * 2 ^ 52 + Decimal.roundDiv n' (2 ^ (ulpExponent k n' + (k - 1074))) from
    Nat.le_min.mpr ⟨(Nat.min_le_left _ _).trans this, Nat.min_le_right _ _⟩
  rcases Nat.lt_or_eq_of_le hs with hlt | heq
  · have hupper := @roundDiv_le k n hk
    have hlower := @le_roundDiv k n' hk (by omega)
    omega
  · rw [← heq]
    exact Nat.add_le_add_left (Decimal.roundDiv_mono _ h) _

end Rounding

theorem toNat_packComponents (x : BitVec 11) (y : BitVec 52) :
    (packComponents Format.binary64 .positive x y).toNat = x.toNat * 2 ^ 52 + y.toNat := by
  unfold packComponents
  rw [BitVec.toNat_append, BitVec.toNat_append, ← Nat.shiftLeft_add_eq_or_of_lt y.isLt, Nat.shiftLeft_eq]
  simp [Sign.toBitVec]

theorem toNat_packedInfinity : (packedInfinity Format.binary64 .positive).toNat = 2047 * 2 ^ 52 := by
  unfold packedInfinity
  rw [toNat_packComponents]
  rfl

/-- A mantissa of full length keeps its leading bit to itself. -/
theorem toNat_pack_finite {m s : Nat} (hm : 0 < m) (hlt : m < 2 ^ 53) (hs : s = 0 ∨ 2 ^ 52 ≤ m) :
    (UnpackedFloat.pack Format.binary64 (.finite .positive m ((s : Int) - 1074) hm)).toNat =
      min (s * 2 ^ 52 + m) (2047 * 2 ^ 52) := by
  have hbiased : ((s : Int) - 1074 + (Format.binary64.exponentBias : Nat) + (52 : Nat)).toNat = s + 1 := by
    have : Format.binary64.exponentBias = 1023 := rfl
    omega
  unfold UnpackedFloat.pack
  dsimp only
  rw [hbiased]
  split
  · rw [toNat_packedInfinity]
    omega
  · split
    · rename_i hlog
      have hge : 2 ^ 52 ≤ m := by
        have hlog : m.log2 = 52 := by
          have : Format.binary64.mantissaBits = 53 := rfl
          omega
        exact hlog ▸ Nat.log2_self_le hm.ne'
      rw [toNat_packComponents, BitVec.toNat_ofNat, BitVec.toNat_ofNat]
      omega
    · rename_i hlog
      have hlt : m < 2 ^ 52 := by
        have hne : m.log2 ≠ 52 := by
          have : Format.binary64.mantissaBits = 53 := rfl
          omega
        have hle : m.log2 < 53 := (Nat.log2_lt hm.ne').mpr hlt
        exact (Nat.log2_lt hm.ne').mp (by omega)
      rw [toNat_packComponents, BitVec.toNat_ofNat]
      simp
      omega

/-- What a mantissa has after shifts to the right: the quotient, and how the remainder lies to a half. -/
theorem shiftRightOne_repeat (m d : Nat) : Nat.repeat ExtendedMantissa.shiftRightOne d ⟨m, false, false⟩ =
    ⟨m / 2 ^ d, decide (2 ^ d ≤ 2 * (m % 2 ^ d)), decide (m % 2 ^ d ≠ 0 ∧ 2 * (m % 2 ^ d) ≠ 2 ^ d)⟩ := by
  induction d with
  | zero => simp [Nat.repeat, Nat.mod_one]
  | succ d ih =>
    have hlt : m % 2 ^ d < 2 ^ d := Nat.mod_lt _ (Nat.two_pow_pos d)
    have hmod : m % 2 ^ (d + 1) = m % 2 ^ d + 2 ^ d * (m / 2 ^ d % 2) := Nat.mod_pow_succ
    rw [Nat.repeat, ih, ExtendedMantissa.shiftRightOne, ExtendedMantissa.mk.injEq]
    refine ⟨?_, ?_, ?_⟩
    · rw [Nat.div_div_eq_div_mul, ← Nat.pow_succ]
    · rw [hmod, Nat.pow_succ]
      rcases Nat.mod_two_eq_zero_or_one (m / 2 ^ d) with h | h <;> simp [h] <;> omega
    · rw [hmod, Nat.pow_succ, Bool.eq_iff_iff]
      rcases Nat.mod_two_eq_zero_or_one (m / 2 ^ d) with h | h <;>
        simp only [h, Bool.or_eq_true, decide_eq_true_eq] <;> omega

theorem roundedMantissa_shiftRight (m d : Nat) :
    (ExtendedMantissa.ofMantissaAndAccuracy m .exact >>> d).roundedMantissa = Decimal.roundDiv m (2 ^ d) := by
  change (Nat.repeat ExtendedMantissa.shiftRightOne d ⟨m, false, false⟩).roundedMantissa = _
  rw [shiftRightOne_repeat]
  unfold Decimal.roundDiv
  by_cases hhalf : 2 ^ d ≤ 2 * (m % 2 ^ d) <;> by_cases hrest : m % 2 ^ d ≠ 0 ∧ 2 * (m % 2 ^ d) ≠ 2 ^ d
  all_goals
    simp only [hhalf, hrest, decide_true, decide_false, ExtendedMantissa.roundedMantissa, ExtendedMantissa.accuracy,
      Accuracy.roundToNearestEven]
    split <;> simp_all <;> omega

theorem targetExponent_binary64 (e : Int) : Format.binary64.targetExponent e = max (e - 53) (-1074) := rfl

theorem shiftToTargetExponent_exact {m d : Nat} {e : Int}
    (h : (max (totalExponent m e - 53) (-1074) - e).toNat = d) :
    shiftToTargetExponent Format.binary64 m e .exact =
      (ExtendedMantissa.ofMantissaAndAccuracy m .exact >>> d, e + d) := by
  unfold shiftToTargetExponent shiftToExponent
  dsimp only
  rw [targetExponent_binary64, h]

theorem mantissa_shiftRight (m d : Nat) :
    (ExtendedMantissa.ofMantissaAndAccuracy m .exact >>> d).mantissa = m / 2 ^ d :=
  congrArg ExtendedMantissa.mantissa (shiftRightOne_repeat m d)

/-- The number that rounding leaves, with one more shift if the mantissa has become too long. -/
def settled (m : Nat) (e : Int) : UnpackedFloat :=
  if h : (shiftToTargetExponent Format.binary64 m e .exact).1.mantissa = 0 then .zero .positive
  else .finite .positive (shiftToTargetExponent Format.binary64 m e .exact).1.mantissa
    (shiftToTargetExponent Format.binary64 m e .exact).2 (Nat.pos_of_ne_zero h)

theorem settled_eq {m d : Nat} {e : Int} (h : (max (totalExponent m e - 53) (-1074) - e).toNat = d)
    (hm : 0 < m / 2 ^ d) : settled m e = .finite .positive (m / 2 ^ d) (e + d) hm := by
  have hshift := shiftToTargetExponent_exact h
  have hmantissa : (shiftToTargetExponent Format.binary64 m e .exact).1.mantissa = m / 2 ^ d := by
    rw [hshift, mantissa_shiftRight]
  have hexponent : (shiftToTargetExponent Format.binary64 m e .exact).2 = e + d := by rw [hshift]
  unfold settled
  rw [dif_neg (hmantissa ▸ hm.ne'), UnpackedFloat.finite.injEq]
  exact ⟨rfl, hmantissa, hexponent⟩

theorem toNat_pack_settled {m s : Nat} (hm : m ≤ 2 ^ 53) (hs : s = 0 ∨ 2 ^ 52 ≤ m) :
    (UnpackedFloat.pack Format.binary64 (settled m ((s : Int) - 1074))).toNat =
      min (s * 2 ^ 52 + m) (2047 * 2 ^ 52) := by
  rcases Nat.lt_or_eq_of_le hm with hlt | rfl
  · have hlog : m.log2 < 53 := by
      by_cases h0 : m = 0
      · rw [h0]
        decide
      · exact (Nat.log2_lt h0).mpr hlt
    have hshift : (max (totalExponent m ((s : Int) - 1074) - 53) (-1074) - ((s : Int) - 1074)).toNat = 0 := by
      unfold totalExponent
      omega
    by_cases h0 : m = 0
    · obtain rfl : s = 0 := by omega
      subst h0
      rfl
    · have hpos : 0 < m / 2 ^ 0 := by simpa using Nat.pos_of_ne_zero h0
      have hsettled : settled m ((s : Int) - 1074) =
          .finite .positive m ((s : Int) - 1074) (Nat.pos_of_ne_zero h0) := by
        rw [settled_eq hshift hpos, UnpackedFloat.finite.injEq]
        exact ⟨rfl, by rw [Nat.pow_zero, Nat.div_one], by rw [Int.natCast_zero, Int.add_zero]⟩
      rw [hsettled]
      exact toNat_pack_finite (Nat.pos_of_ne_zero h0) hlt hs
  · have hlog : (2 ^ 53 : Nat).log2 = 53 := by decide
    have hshift : (max (totalExponent (2 ^ 53) ((s : Int) - 1074) - 53) (-1074) - ((s : Int) - 1074)).toNat = 1 := by
      unfold totalExponent
      rw [hlog]
      omega
    rw [settled_eq hshift (by decide)]
    have hexponent : (s : Int) - 1074 + (1 : Nat) = ((s + 1 : Nat) : Int) - 1074 := by omega
    have hpacked := @toNat_pack_finite (2 ^ 53 / 2 ^ 1) (s + 1) (by decide) (by decide) (.inr (by decide))
    rw [← hexponent] at hpacked
    rw [hpacked]
    omega

/-- An exact number with room for the rounding becomes the nearest double. -/
theorem toNat_pack_roundWithAccuracy {m a k : Nat} (hm : 0 < m) (hk : 1074 ≤ k) (h : 2 ^ 52 ≤ m ∨ a + 1074 ≤ k) :
    (UnpackedFloat.pack Format.binary64 (roundWithAccuracy Format.binary64 .positive m ((a : Int) - k) .exact)).toNat =
      nearestBits k (m * 2 ^ a) := by
  have hlog := log2_mul_two_pow hm.ne' a
  have hlong : 2 ^ 52 ≤ m → 52 ≤ m.log2 := fun h => (Nat.le_log2 hm.ne').mpr h
  obtain ⟨d, hd⟩ : ∃ d, ulpExponent k (m * 2 ^ a) + (k - 1074) = d + a := by
    refine ⟨ulpExponent k (m * 2 ^ a) + (k - 1074) - a, ?_⟩
    unfold ulpExponent
    omega
  have hshift : (max (totalExponent m ((a : Int) - k) - 53) (-1074) - ((a : Int) - k)).toNat = d := by
    unfold ulpExponent at hd
    unfold totalExponent
    omega
  have hexponent : (a : Int) - k + d = (ulpExponent k (m * 2 ^ a) : Int) - 1074 := by omega
  have hround : Decimal.roundDiv (m * 2 ^ a) (2 ^ (ulpExponent k (m * 2 ^ a) + (k - 1074))) =
      Decimal.roundDiv m (2 ^ d) := by
    rw [hd, Nat.pow_add]
    exact Decimal.roundDiv_mul_mul m _ (Nat.two_pow_pos a)
  have hsettled : roundWithAccuracy Format.binary64 .positive m ((a : Int) - k) .exact =
      settled (Decimal.roundDiv m (2 ^ d)) ((a : Int) - k + d) := by
    unfold roundWithAccuracy
    rw [shiftToTargetExponent_exact hshift]
    dsimp only
    rw [roundedMantissa_shiftRight]
    rfl
  rw [hsettled, hexponent, ← hround, nearestBits]
  apply toNat_pack_settled (roundDiv_le hk)
  rcases Nat.eq_zero_or_pos (ulpExponent k (m * 2 ^ a)) with h0 | hpos
  · exact .inl h0
  · exact .inr (le_roundDiv hk hpos)

theorem toNat_pack_round {m a k : Nat} (hm : 0 < m) (hk : 1074 ≤ k) :
    (UnpackedFloat.pack Format.binary64 (UnpackedFloat.round Format.binary64 .positive m ((a : Int) - k))).toNat =
      nearestBits k (m * 2 ^ a) := by
  -- the mantissa is made longer by `c` places, so that the rounding has room
  obtain ⟨c, hc⟩ : ∃ c, ((a : Int) - k - max (totalExponent m ((a : Int) - k) - 53) (-1074)).toNat = c := ⟨_, rfl⟩
  unfold totalExponent at hc
  have hle : c ≤ a := by omega
  have hexponent : (a : Int) - k - c = ((a - c : Nat) : Int) - k := by omega
  have hroom : 2 ^ 52 ≤ m * 2 ^ c ∨ a - c + 1074 ≤ k := by
    have hlog := log2_mul_two_pow hm.ne' c
    have hne : m * 2 ^ c ≠ 0 := Nat.mul_ne_zero hm.ne' (Nat.two_pow_pos c).ne'
    by_cases h : 52 ≤ m.log2 + c
    · exact .inl ((Nat.le_log2 hne).mp (hlog ▸ h))
    · exact .inr (by omega)
  have hvalue : m * 2 ^ c * 2 ^ (a - c) = m * 2 ^ a := by
    rw [Nat.mul_assoc, ← Nat.pow_add, Nat.add_sub_cancel' hle]
  unfold UnpackedFloat.round decreaseExponent totalExponent
  dsimp only
  rw [targetExponent_binary64, hc, Nat.shiftLeft_eq, hexponent,
    toNat_pack_roundWithAccuracy (Nat.mul_pos hm (Nat.two_pow_pos c)) hk hroom, hvalue]

theorem nearestBits_zero {k : Nat} (hk : 1074 ≤ k) : nearestBits k 0 = 0 := by
  have hs : ulpExponent k 0 = 0 := by
    unfold ulpExponent
    rw [Nat.log2_zero]
    omega
  simp [nearestBits, hs, Decimal.roundDiv]

theorem toNat_pack_normalize (n a : Nat) {k : Nat} (hk : 1074 ≤ k) :
    (UnpackedFloat.pack Format.binary64 (UnpackedFloat.normalize Format.binary64 n ((a : Int) - k) .positive)).toNat =
      nearestBits k (n * 2 ^ a) := by
  unfold UnpackedFloat.normalize
  rcases Nat.eq_zero_or_pos n with rfl | hn
  · rw [Nat.zero_mul, nearestBits_zero hk]
    rfl
  · have hcompare : compare (n : Int) 0 = .gt := by
      rw [Int.compare_eq_gt]
      omega
    rw [hcompare]
    exact toNat_pack_round hn hk

/-- The size of a finite positive double by its bits, in units of `2⁻¹⁰⁷⁴`. -/
def magnitude (b : Nat) : Nat := if b < 2 ^ 52 then b else (2 ^ 52 + b % 2 ^ 52) * 2 ^ (b / 2 ^ 52 - 1)

theorem magnitude_mono {b b' : Nat} (h : b ≤ b') : magnitude b ≤ magnitude b' := by
  unfold magnitude
  split
  · split
    · exact h
    · calc b
        _ ≤ 2 ^ 52 * 1 := by omega
        _ ≤ (2 ^ 52 + b' % 2 ^ 52) * 2 ^ (b' / 2 ^ 52 - 1) :=
          Nat.mul_le_mul (by omega) (Nat.one_le_two_pow)
  · rw [if_neg (by omega)]
    rcases Nat.lt_or_eq_of_le (Nat.div_le_div_right h : b / 2 ^ 52 ≤ b' / 2 ^ 52) with hlt | heq
    · calc (2 ^ 52 + b % 2 ^ 52) * 2 ^ (b / 2 ^ 52 - 1)
        _ ≤ 2 ^ 52 * 2 * 2 ^ (b / 2 ^ 52 - 1) := Nat.mul_le_mul_right _ (by omega)
        _ = 2 ^ 52 * 2 ^ (b / 2 ^ 52 - 1 + 1) := by rw [Nat.mul_assoc, ← Nat.pow_succ']
        _ ≤ (2 ^ 52 + b' % 2 ^ 52) * 2 ^ (b' / 2 ^ 52 - 1) :=
          Nat.mul_le_mul (by omega) (Nat.pow_le_pow_right (by decide) (by omega))
    · rw [← heq]
      exact Nat.mul_le_mul_right _ (by omega)

section Unpacking

variable {v : BitVec 64}

theorem toNat_unpackMantissa : (@unpackMantissa Format.binary64 v).toNat = v.toNat % 2 ^ 52 := by
  simp [unpackMantissa, BitVec.extractLsb_toNat]

theorem toNat_unpackExponent (h : v.toNat < 2 ^ 63) :
    (@unpackExponent Format.binary64 v).toNat = v.toNat / 2 ^ 52 := by
  simp [unpackExponent, BitVec.extractLsb_toNat, Nat.shiftRight_eq_div_pow]
  omega

theorem unpackSign_eq (h : v.toNat < 2 ^ 63) : @unpackSign Format.binary64 v = 0#1 := by
  apply BitVec.eq_of_toNat_eq
  delta unpackSign
  simp [BitVec.extractLsb_toNat, Nat.shiftRight_eq_div_pow]
  omega

theorem toNat_one_append_mantissa :
    (1#1 ++ @unpackMantissa Format.binary64 v).toNat = 2 ^ 52 + v.toNat % 2 ^ 52 := by
  rw [BitVec.toNat_append, ← Nat.shiftLeft_add_eq_or_of_lt (BitVec.isLt _), toNat_unpackMantissa, Nat.shiftLeft_eq]
  rfl

/-- The bits are those of the positive double `m · 2ᵃ⁻¹⁰⁷⁴`. -/
structure IsFinite (v : BitVec 64) (m a : Nat) : Prop where
  pos : 0 < m
  unpack : UnpackedFloat.unpack Format.binary64 v = .finite .positive m ((a : Int) - 1074) pos
  value : m * 2 ^ a = magnitude v.toNat
  short : m < 2 ^ 53
  full : a = 0 ∨ 2 ^ 52 ≤ m
  long : 2 ^ 52 ≤ v.toNat → 2 ^ 52 ≤ m

/-- The unpacked double in terms of the fields of a word without a sign. -/
theorem unpack_eq (h : v.toNat < 2 ^ 63) : UnpackedFloat.unpack Format.binary64 v =
    if @unpackExponent Format.binary64 v = -1#11 then
      if @unpackMantissa Format.binary64 v = 0#52 then .infinity .positive else .notANumber
    else if @unpackExponent Format.binary64 v = 0#11 then
      if hm : @unpackMantissa Format.binary64 v = 0#52 then .zero .positive
      else .finite .positive (@unpackMantissa Format.binary64 v).toNat (((v.toNat / 2 ^ 52 : Nat) : Int) - 1075 + 1)
        (by simpa [BitVec.toNat_pos, BitVec.pos_iff_ne_zero])
    else .finite .positive (1#1 ++ @unpackMantissa Format.binary64 v).toNat (((v.toNat / 2 ^ 52 : Nat) : Int) - 1075)
      (by rw [toNat_one_append_mantissa]; omega) := by
  have hbias : (Format.binary64.exponentBias : Int) + (52 : Nat) = 1075 := rfl
  have hsign : Sign.ofBitVec (@unpackSign Format.binary64 v) = .positive := by
    rw [unpackSign_eq h]
    rfl
  unfold UnpackedFloat.unpack
  dsimp only
  rw [hsign, toNat_unpackExponent h, hbias]

theorem isFinite_of_lt (hpos : 0 < v.toNat) (h : v.toNat < 2 ^ 52) : IsFinite v v.toNat 0 where
  pos := hpos
  unpack := by
    have hexponent : @unpackExponent Format.binary64 v = 0#11 := by
      apply BitVec.eq_of_toNat_eq
      rw [toNat_unpackExponent (by omega), Nat.div_eq_of_lt h]
      rfl
    have hmantissa : (@unpackMantissa Format.binary64 v).toNat = v.toNat := by
      rw [toNat_unpackMantissa, Nat.mod_eq_of_lt h]
    have hne : @unpackMantissa Format.binary64 v ≠ 0#52 := by
      intro hzero
      rw [hzero] at hmantissa
      exact hpos.ne hmantissa
    rw [unpack_eq (by omega), if_neg (by rw [hexponent]; decide), if_pos hexponent, dif_neg hne,
      UnpackedFloat.finite.injEq]
    refine ⟨rfl, hmantissa, ?_⟩
    rw [Nat.div_eq_of_lt h]
    rfl
  value := by rw [magnitude, if_pos h, Nat.pow_zero, Nat.mul_one]
  short := by omega
  full := .inl rfl
  long := by omega

theorem isFinite_of_le (h : 2 ^ 52 ≤ v.toNat) (hlt : v.toNat < 2047 * 2 ^ 52) :
    IsFinite v (2 ^ 52 + v.toNat % 2 ^ 52) (v.toNat / 2 ^ 52 - 1) where
  pos := by omega
  unpack := by
    have hexponent := @toNat_unpackExponent v (by omega)
    have hones : @unpackExponent Format.binary64 v ≠ -1#11 := by
      intro heq
      rw [heq] at hexponent
      replace hexponent : 2047 = v.toNat / 2 ^ 52 := hexponent
      omega
    have hzero : @unpackExponent Format.binary64 v ≠ 0#11 := by
      intro heq
      rw [heq] at hexponent
      replace hexponent : 0 = v.toNat / 2 ^ 52 := hexponent
      omega
    have hexp : ((v.toNat / 2 ^ 52 : Nat) : Int) - 1075 = ((v.toNat / 2 ^ 52 - 1 : Nat) : Int) - 1074 := by omega
    rw [unpack_eq (by omega), if_neg hones, if_neg hzero, UnpackedFloat.finite.injEq]
    exact ⟨rfl, toNat_one_append_mantissa, hexp⟩
  value := by rw [magnitude, if_neg (by omega)]
  short := by omega
  full := .inr (by omega)
  long _ := by omega

theorem exists_isFinite (hpos : 0 < v.toNat) (hlt : v.toNat < 2047 * 2 ^ 52) : ∃ m a, IsFinite v m a := by
  rcases Nat.lt_or_ge v.toNat (2 ^ 52) with h | h
  · exact ⟨_, _, isFinite_of_lt hpos h⟩
  · exact ⟨_, _, isFinite_of_le h hlt⟩

theorem unpack_of_eq_zero (h : v.toNat = 0) : UnpackedFloat.unpack Format.binary64 v = .zero .positive := by
  obtain rfl : v = 0#64 := BitVec.eq_of_toNat_eq h
  rfl

theorem unpack_of_eq_infinity (h : v.toNat = 2047 * 2 ^ 52) :
    UnpackedFloat.unpack Format.binary64 v = .infinity .positive := by
  obtain rfl : v = BitVec.ofNat 64 (2047 * 2 ^ 52) := BitVec.eq_of_toNat_eq (h.trans rfl)
  rfl

/-- A double that is not negative is zero, finite or infinite. -/
theorem unpack_cases (h : v.toNat ≤ 2047 * 2 ^ 52) :
    v.toNat = 0 ∨ (v.toNat < 2047 * 2 ^ 52 ∧ ∃ m a, IsFinite v m a) ∨ v.toNat = 2047 * 2 ^ 52 := by
  rcases Nat.eq_zero_or_pos v.toNat with h0 | hpos
  · exact .inl h0
  · rcases Nat.lt_or_eq_of_le h with hlt | heq
    · exact .inr (.inl ⟨hlt, exists_isFinite hpos hlt⟩)
    · exact .inr (.inr heq)

end Unpacking

/-- A product with a constant of full length is the nearest double to the product. -/
theorem toBits_mul {x c : Float} (hx : x.toBits.toNat ≤ 2047 * 2 ^ 52) (hlong : 2 ^ 52 ≤ c.toBits.toNat)
    (hc : c.toBits.toNat < 2047 * 2 ^ 52) :
    (x * c).toBits.toNat = if x.toBits.toNat = 2047 * 2 ^ 52 then 2047 * 2 ^ 52
      else nearestBits 2148 (magnitude x.toBits.toNat * magnitude c.toBits.toNat) := by
  change (UnpackedFloat.pack Format.binary64 (UnpackedFloat.mul Format.binary64
    (UnpackedFloat.unpack Format.binary64 x.toBits.toBitVec)
    (UnpackedFloat.unpack Format.binary64 c.toBits.toBitVec))).toNat = _
  obtain ⟨m', a', hc'⟩ := @exists_isFinite c.toBits.toBitVec (by rw [UInt64.toNat_toBitVec]; omega) hc
  rcases @unpack_cases x.toBits.toBitVec hx with h | ⟨hlt, m, a, hx'⟩ | h
  · rw [unpack_of_eq_zero h, hc'.unpack]
    rw [UInt64.toNat_toBitVec] at h
    rw [if_neg (by omega), h, magnitude, if_pos (by decide), Nat.zero_mul, nearestBits_zero (by decide)]
    rfl
  · rw [UInt64.toNat_toBitVec] at hlt
    have hroom : 2 ^ 52 ≤ m * m' ∨ a + a' + 1074 ≤ 2148 :=
      .inl ((hc'.long hlong).trans (Nat.le_mul_of_pos_left _ hx'.pos))
    have hexponent : (a : Int) - 1074 + ((a' : Int) - 1074) = ((a + a' : Nat) : Int) - (2148 : Nat) := by omega
    have hproduct : m * m' * 2 ^ (a + a') = magnitude x.toBits.toNat * magnitude c.toBits.toNat := by
      rw [← UInt64.toNat_toBitVec, ← UInt64.toNat_toBitVec, ← hx'.value, ← hc'.value, Nat.pow_add]
      ac_rfl
    have hround := toNat_pack_roundWithAccuracy (Nat.mul_pos hx'.pos hc'.pos) (by decide : 1074 ≤ 2148) hroom
    rw [← hexponent, hproduct] at hround
    rw [if_neg (by omega), hx'.unpack, hc'.unpack, ← hround]
    rfl
  · rw [unpack_of_eq_infinity h, hc'.unpack, if_pos (x.toBits.toNat_toBitVec ▸ h)]
    exact toNat_packedInfinity

/-- A double that has a mantissa and an exponent is its own nearest one. -/
theorem nearestBits_of_mantissa {m a : Nat} (hm : 0 < m) (hlt : m < 2 ^ 53) (ha : a = 0 ∨ 2 ^ 52 ≤ m) :
    nearestBits 1074 (m * 2 ^ a) = min (a * 2 ^ 52 + m) (2047 * 2 ^ 52) := by
  have hlog := log2_mul_two_pow hm.ne' a
  have hshort : m.log2 < 53 := (Nat.log2_lt hm.ne').mpr hlt
  have hlong : 2 ^ 52 ≤ m → 52 ≤ m.log2 := fun h => (Nat.le_log2 hm.ne').mpr h
  have hs : ulpExponent 1074 (m * 2 ^ a) = a := by
    unfold ulpExponent
    omega
  rw [nearestBits, hs, Nat.sub_self, Nat.add_zero, Decimal.roundDiv_mul _ (Nat.two_pow_pos a)]

/-- A sum with a positive constant is the nearest double to the sum. -/
theorem toBits_add {x c : Float} (hx : x.toBits.toNat ≤ 2047 * 2 ^ 52) (hpos : 0 < c.toBits.toNat)
    (hc : c.toBits.toNat < 2047 * 2 ^ 52) :
    (c + x).toBits.toNat = if x.toBits.toNat = 2047 * 2 ^ 52 then 2047 * 2 ^ 52
      else nearestBits 1074 (magnitude c.toBits.toNat + magnitude x.toBits.toNat) := by
  change (UnpackedFloat.pack Format.binary64 (UnpackedFloat.add Format.binary64
    (UnpackedFloat.unpack Format.binary64 c.toBits.toBitVec)
    (UnpackedFloat.unpack Format.binary64 x.toBits.toBitVec))).toNat = _
  obtain ⟨m', a', hc'⟩ := @exists_isFinite c.toBits.toBitVec hpos hc
  have hvalue' : m' * 2 ^ a' = magnitude c.toBits.toNat := hc'.value
  rcases @unpack_cases x.toBits.toBitVec hx with h | ⟨hlt, m, a, hx'⟩ | h
  · rw [unpack_of_eq_zero h, hc'.unpack]
    rw [UInt64.toNat_toBitVec] at h
    have hzero : magnitude 0 = 0 := rfl
    rw [if_neg (by omega), h, hzero, Nat.add_zero, ← hvalue', nearestBits_of_mantissa hc'.pos hc'.short hc'.full]
    exact toNat_pack_finite hc'.pos hc'.short hc'.full
  · rw [UInt64.toNat_toBitVec] at hlt
    have hvalue : m * 2 ^ a = magnitude x.toBits.toNat := hx'.value
    have hmin : min ((a' : Int) - 1074) ((a : Int) - 1074) = ((min a' a : Nat) : Int) - (1074 : Nat) := by omega
    have hshift (b : Nat) : (((b : Int) - 1074) - (((min a' a : Nat) : Int) - (1074 : Nat))).toNat = b - min a' a := by
      omega
    have hscale {m b : Nat} (h : min a' a ≤ b) : m * 2 ^ (b - min a' a) * 2 ^ min a' a = m * 2 ^ b := by
      rw [Nat.mul_assoc, ← Nat.pow_add, Nat.sub_add_cancel h]
    have hround :=
      toNat_pack_normalize (m' * 2 ^ (a' - min a' a) + m * 2 ^ (a - min a' a)) (min a' a) (Nat.le_refl 1074)
    rw [Nat.add_mul, hscale (Nat.min_le_left _ _), hscale (Nat.min_le_right _ _), hvalue, hvalue'] at hround
    rw [if_neg (by omega), hx'.unpack, hc'.unpack, ← hround]
    unfold UnpackedFloat.add decreaseExponent
    dsimp only
    rw [hmin, hshift, hshift, Nat.shiftLeft_eq, Nat.shiftLeft_eq, Int.natCast_add]
    rfl
  · rw [unpack_of_eq_infinity h, hc'.unpack, if_pos (x.toBits.toNat_toBitVec ▸ h)]
    exact toNat_packedInfinity

section Order

variable {x x' c : Float}

theorem nearestBits_le (k n : Nat) : nearestBits k n ≤ 2047 * 2 ^ 52 := Nat.min_le_right _ _

/-- A result that is infinite with its operand, and rounded otherwise, keeps the order of the operands. -/
theorem nearestBits_or_infinity_mono {k n n' b b' : Nat} (hk : 1074 ≤ k) (hn : n ≤ n') (h : b ≤ b')
    (hb : b' ≤ 2047 * 2 ^ 52) :
    (if b = 2047 * 2 ^ 52 then 2047 * 2 ^ 52 else nearestBits k n) ≤
        (if b' = 2047 * 2 ^ 52 then 2047 * 2 ^ 52 else nearestBits k n') ∧
      (if b' = 2047 * 2 ^ 52 then 2047 * 2 ^ 52 else nearestBits k n') ≤ 2047 * 2 ^ 52 := by
  by_cases hinf : b' = 2047 * 2 ^ 52
  · rw [if_pos hinf]
    refine ⟨?_, le_rfl⟩
    split
    · exact le_rfl
    · exact nearestBits_le _ _
  · rw [if_neg hinf, if_neg (by omega)]
    exact ⟨nearestBits_mono hk hn, nearestBits_le _ _⟩

/-- Products with a constant keep the order of the doubles that are not negative. -/
theorem toBits_mul_mono (h : x.toBits.toNat ≤ x'.toBits.toNat) (hx : x'.toBits.toNat ≤ 2047 * 2 ^ 52)
    (hlong : 2 ^ 52 ≤ c.toBits.toNat) (hc : c.toBits.toNat < 2047 * 2 ^ 52) :
    (x * c).toBits.toNat ≤ (x' * c).toBits.toNat ∧ (x' * c).toBits.toNat ≤ 2047 * 2 ^ 52 := by
  rw [toBits_mul (h.trans hx) hlong hc, toBits_mul hx hlong hc]
  exact nearestBits_or_infinity_mono (by decide) (Nat.mul_le_mul_right _ (magnitude_mono h)) h hx

theorem toBits_add_mono (h : x.toBits.toNat ≤ x'.toBits.toNat) (hx : x'.toBits.toNat ≤ 2047 * 2 ^ 52)
    (hpos : 0 < c.toBits.toNat) (hc : c.toBits.toNat < 2047 * 2 ^ 52) :
    (c + x).toBits.toNat ≤ (c + x').toBits.toNat ∧ (c + x').toBits.toNat ≤ 2047 * 2 ^ 52 := by
  rw [toBits_add (h.trans hx) hpos hc, toBits_add hx hpos hc]
  exact nearestBits_or_infinity_mono le_rfl (Nat.add_le_add_left (magnitude_mono h) _) h hx

theorem toBits_toFloat {n k : Nat} (h : n < 2 ^ 53) (hk : 1074 ≤ k) :
    n.toUInt64.toFloat.toBits.toNat = nearestBits k (n * 2 ^ k) := by
  have hword : n.toUInt64.toNat = n := by
    rw [Nat.toUInt64, UInt64.toNat_ofNat']
    omega
  change (UnpackedFloat.pack Format.binary64
    (UnpackedFloat.normalize Format.binary64 n.toUInt64.toNat 0 .positive)).toNat = _
  have hround := toNat_pack_normalize n k hk
  rw [Int.sub_self] at hround
  rw [hword, hround]

theorem ofNat_of_lt {n : Nat} (h : n < 2 ^ 53) : Float.ofNat n = n.toUInt64.toFloat * 1 := by
  change Float.ofScientific n false 0 = _
  rw [Float.ofScientific, dif_pos ⟨h, by decide⟩]
  rfl

theorem toBits_ofNat_of_ge {n a : Nat} (h : 2 ^ 53 ≤ n) (ha : 1021 ≤ a) :
    (Float.ofNat n).toBits.toNat = nearestBits (a + 53) (n * 2 ^ (a + 53)) := by
  have hpos : n ≠ 0 := by omega
  have hlong : ¬ (n < 2 ^ 53 ∧ 0 ≤ 22) := by omega
  have hexponent : (a : Int) - (a + 53 : Nat) = -53 := by omega
  have hmul : Float.ofNat n = Float.ofModel (Float.Model.pack (roundWithAccuracy Format.binary64 .positive
      (n <<< 53 * 10 ^ 0) (-53) .exact)) := by
    change Float.ofScientific n false 0 = _
    rw [Float.ofScientific, dif_neg hlong]
    change Float.ofModel (Float.Model.pack (UnpackedFloat.ofScientific Format.binary64 n 0)) = _
    have hexact : ¬ (0 : Int) < -((2 ^ 11 : Int) + n.log2) := by omega
    rw [UnpackedFloat.ofScientific, dif_neg hpos, if_neg (by decide), if_neg hexact, if_pos (by decide)]
    rfl
  have hround := @toNat_pack_roundWithAccuracy (n * 2 ^ 53) a (a + 53) (by omega) (by omega) (.inl (by omega))
  have hvalue : n <<< 53 * 10 ^ 0 = n * 2 ^ 53 := by rw [Nat.shiftLeft_eq, Nat.pow_zero, Nat.mul_one]
  rw [hexponent, Nat.mul_assoc, ← Nat.pow_add, Nat.add_comm 53] at hround
  rw [hmul, hvalue]
  exact hround

/-- The doubles of the natural numbers are in their order. -/
theorem toBits_ofNat_mono {n n' : Nat} (h : n ≤ n') : (Float.ofNat n).toBits.toNat ≤ (Float.ofNat n').toBits.toNat ∧
    (Float.ofNat n').toBits.toNat ≤ 2047 * 2 ^ 52 := by
  obtain ⟨a, ha⟩ : ∃ a, 1021 ≤ a := ⟨1021, le_rfl⟩
  have hsmall {n n' : Nat} (h : n ≤ n') (hlt : n' < 2 ^ 53) :
      (Float.ofNat n).toBits.toNat ≤ (Float.ofNat n').toBits.toNat ∧ (Float.ofNat n').toBits.toNat ≤ 2047 * 2 ^ 52 := by
    rw [ofNat_of_lt (by omega), ofNat_of_lt hlt]
    apply toBits_mul_mono
    · rw [@toBits_toFloat n (a + 53) (by omega) (by omega), @toBits_toFloat n' (a + 53) hlt (by omega)]
      exact nearestBits_mono (by omega) (Nat.mul_le_mul_right _ h)
    · rw [@toBits_toFloat n' (a + 53) hlt (by omega)]
      exact nearestBits_le _ _
    · decide +kernel
    · decide +kernel
  have hlarge {n n' : Nat} (h : n ≤ n') (hge : 2 ^ 53 ≤ n) :
      (Float.ofNat n).toBits.toNat ≤ (Float.ofNat n').toBits.toNat ∧ (Float.ofNat n').toBits.toNat ≤ 2047 * 2 ^ 52 := by
    rw [toBits_ofNat_of_ge hge ha, toBits_ofNat_of_ge (hge.trans h) ha]
    exact ⟨nearestBits_mono (by omega) (Nat.mul_le_mul_right _ h), nearestBits_le _ _⟩
  by_cases hlt : n' < 2 ^ 53
  · exact hsmall h hlt
  · by_cases hge : 2 ^ 53 ≤ n
    · exact hlarge h hge
    · -- the two ways to convert meet at `2 ^ 53`
      have hmeet : (Float.ofNat (2 ^ 53 - 1)).toBits.toNat ≤ (Float.ofNat (2 ^ 53)).toBits.toNat := by decide +kernel
      have hbelow := @hsmall n (2 ^ 53 - 1) (by omega) (by decide)
      have habove := @hlarge (2 ^ 53) n' (by omega) le_rfl
      exact ⟨hbelow.1.trans (hmeet.trans habove.1), habove.2⟩

theorem Order.key_of_le (h : x.toBits.toNat ≤ 2047 * 2 ^ 52) : Order.key x = x.toBits.toNat := by
  simp only [Order.key, UInt64.size]
  rw [if_pos (by omega)]

end Order

/-- No row of the usual layout is above the one before it. -/
theorem Layout.descends_ofSpacing : (Layout.ofSpacing {}).Descends := by
  intro i j hij
  obtain ⟨hle, hj⟩ := toBits_ofNat_mono hij
  obtain ⟨hle, hj⟩ := @toBits_mul_mono _ _ 120 hle hj (by decide +kernel) (by decide +kernel)
  obtain ⟨hle, hj⟩ := @toBits_add_mono _ _ 100 hle hj (by decide +kernel) (by decide +kernel)
  change Order.key (100 + Float.ofNat i * 120) ≤ Order.key (100 + Float.ofNat j * 120)
  rw [Order.key_of_le hj, Order.key_of_le (hle.trans hj)]
  exact Int.ofNat_le.mpr hle

end ScriptGraph
