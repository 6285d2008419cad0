import ScriptGraph.Proofs.Doubles

namespace ScriptGraph

open Float.Model Float.Model.UnpackedFloat

/-- The double of a whole number. -/
def whole (n : Nat) : Float := n.toUInt64.toFloat

theorem eq_of_toBits {x y : Float} (h : x.toBits.toNat = y.toBits.toNat) : x = y := by
  obtain ⟨⟨a, ha⟩⟩ := x
  obtain ⟨⟨b, hb⟩⟩ := y
  obtain rfl : a = b := UInt64.toNat_inj.mp h
  rfl

/-- With `s` more places the number is as long as a mantissa. -/
structure IsFull (n s : Nat) : Prop where
  places : s ≤ 52
  low : 2 ^ 52 ≤ n * 2 ^ s
  high : n * 2 ^ s < 2 ^ 53

section Whole

variable {n : Nat}

theorem exists_isFull (hpos : 0 < n) (h : n < 2 ^ 53) : ∃ s, IsFull n s := by
  have hlog : n.log2 < 53 := (Nat.log2_lt hpos.ne').mpr h
  have hne : n * 2 ^ (52 - n.log2) ≠ 0 := Nat.mul_ne_zero hpos.ne' (Nat.two_pow_pos _).ne'
  have hfull : (n * 2 ^ (52 - n.log2)).log2 = 52 := by
    rw [log2_mul_two_pow hpos.ne']
    omega
  exact ⟨52 - n.log2, by omega, (Nat.le_log2 hne).mp hfull.ge, (Nat.log2_lt hne).mp (by omega)⟩

theorem IsFull.mul_two_pow {s : Nat} (h : IsFull n s) {k : Nat} (hk : 52 ≤ k) :
    n * 2 ^ s * 2 ^ (k - s) = n * 2 ^ k := by
  rw [Nat.mul_assoc, ← Nat.pow_add, Nat.add_sub_cancel' (h.places.trans hk)]

theorem IsFull.toBits {s : Nat} (h : IsFull n s) : (whole n).toBits.toNat = (1074 - s) * 2 ^ 52 + n * 2 ^ s := by
  have hplaces := h.places
  have hhigh := h.high
  have hn : n < 2 ^ 53 := lt_of_le_of_lt (Nat.le_mul_of_pos_right n (Nat.two_pow_pos s)) hhigh
  rw [whole, toBits_toFloat hn (Nat.le_refl 1074), ← h.mul_two_pow (by decide),
    nearestBits_of_mantissa (lt_of_lt_of_le (by decide) h.low) hhigh (.inr h.low)]
  omega

theorem toBits_whole_zero : (whole 0).toBits.toNat = 0 := by
  decide +kernel

theorem toBits_whole_lt (h : n < 2 ^ 53) : (whole n).toBits.toNat < 2047 * 2 ^ 52 := by
  rcases Nat.eq_zero_or_pos n with rfl | hpos
  · rw [toBits_whole_zero]
    decide
  · obtain ⟨s, hfull⟩ := exists_isFull hpos h
    have hhigh := hfull.high
    rw [hfull.toBits]
    omega

theorem le_toBits_whole (hpos : 0 < n) (h : n < 2 ^ 53) : 2 ^ 52 ≤ (whole n).toBits.toNat := by
  obtain ⟨s, hfull⟩ := exists_isFull hpos h
  rw [hfull.toBits]
  exact hfull.low.trans (Nat.le_add_left _ _)

theorem magnitude_whole (h : n < 2 ^ 53) : magnitude (whole n).toBits.toNat = n * 2 ^ 1074 := by
  rcases Nat.eq_zero_or_pos n with rfl | hpos
  · have hzero : magnitude 0 = 0 := rfl
    rw [toBits_whole_zero, Nat.zero_mul, hzero]
  · obtain ⟨s, hfull⟩ := exists_isFull hpos h
    have hlow := hfull.low
    have hhigh := hfull.high
    have hquotient : ((1074 - s) * 2 ^ 52 + n * 2 ^ s) / 2 ^ 52 - 1 = 1074 - s := by omega
    have hremainder : 2 ^ 52 + ((1074 - s) * 2 ^ 52 + n * 2 ^ s) % 2 ^ 52 = n * 2 ^ s := by omega
    rw [hfull.toBits, magnitude, if_neg (by omega), hquotient, hremainder]
    exact hfull.mul_two_pow (by decide)

end Whole

/-- A product that fits is exact. -/
theorem whole_mul {n m : Nat} (hn : n < 2 ^ 53) (hpos : 0 < m) (hm : m < 2 ^ 53) (h : n * m < 2 ^ 53) :
    whole n * whole m = whole (n * m) := by
  have hfinite := toBits_whole_lt hn
  have hproduct (k : Nat) : n * 2 ^ k * (m * 2 ^ k) = n * m * 2 ^ (k + k) := by
    rw [Nat.mul_mul_mul_comm, ← Nat.pow_add]
  apply eq_of_toBits
  rw [toBits_mul hfinite.le (le_toBits_whole hpos hm) (toBits_whole_lt hm), if_neg hfinite.ne, magnitude_whole hn,
    magnitude_whole hm, hproduct 1074]
  exact (@toBits_toFloat (n * m) (1074 + 1074) h (by decide)).symm

/-- A sum that fits is exact. -/
theorem whole_add {n m : Nat} (hpos : 0 < m) (h : m + n < 2 ^ 53) : whole m + whole n = whole (m + n) := by
  have hm : m < 2 ^ 53 := by omega
  have hfinite : (whole n).toBits.toNat < 2047 * 2 ^ 52 := toBits_whole_lt (by omega)
  have hlong := le_toBits_whole hpos hm
  apply eq_of_toBits
  rw [toBits_add hfinite.le (by omega) (toBits_whole_lt hm), if_neg hfinite.ne, magnitude_whole (by omega),
    magnitude_whole (by omega), ← Nat.add_mul]
  exact (toBits_toFloat h (Nat.le_refl 1074)).symm

theorem log2_of_full {m : Nat} (hfull : 2 ^ 52 ≤ m) (hshort : m < 2 ^ 53) : m.log2 = 52 := by
  have hne : m ≠ 0 := by omega
  have hlow := (Nat.le_log2 hne).mpr hfull
  have hhigh := (Nat.log2_lt hne).mpr hshort
  omega

/-- Mantissas of full length with a whole quotient that fits are at most 53 places apart. -/
theorem exists_places_between {n m m' a a' : Nat} (hfull : 2 ^ 52 ≤ m) (hshort : m < 2 ^ 53) (hfull' : 2 ^ 52 ≤ m')
    (hshort' : m' < 2 ^ 53) (hpos : 0 < n) (hn : n < 2 ^ 53) (h : m * 2 ^ a = n * (m' * 2 ^ a')) :
    ∃ t ≤ 53, a = a' + t ∧ m * 2 ^ t = n * m' := by
  have hle : a' ≤ a := by
    by_contra hlt
    have hpow : 2 ^ (a + 1) ≤ 2 ^ a' := Nat.pow_le_pow_right (by decide) (by omega)
    have hless : m * 2 ^ a < m' * 2 ^ a' := by
      calc m * 2 ^ a
        _ < 2 ^ 53 * 2 ^ a := Nat.mul_lt_mul_of_pos_right hshort (Nat.two_pow_pos a)
        _ = 2 ^ 52 * 2 ^ (a + 1) := by rw [← Nat.pow_add, ← Nat.pow_add, Nat.add_comm a 1, ← Nat.add_assoc]
        _ ≤ m' * 2 ^ a' := Nat.mul_le_mul hfull' hpow
    exact absurd hless (Nat.not_lt.mpr (h ▸ Nat.le_mul_of_pos_left _ hpos))
  obtain ⟨t, rfl⟩ := Nat.exists_eq_add_of_le hle
  have hexact : m * 2 ^ t = n * m' := by
    apply Nat.mul_right_cancel (Nat.two_pow_pos a')
    rw [Nat.mul_assoc, ← Nat.pow_add, Nat.add_comm t, h, Nat.mul_assoc]
  refine ⟨t, ?_, rfl, hexact⟩
  by_contra hlt
  have hpow : 2 ^ 54 ≤ 2 ^ t := Nat.pow_le_pow_right (by decide) (by omega)
  have hlarge : 2 ^ 52 * 2 ^ 54 ≤ m * 2 ^ t := Nat.mul_le_mul hfull hpow
  have hsmall : n * m' < 2 ^ 53 * 2 ^ 53 := Nat.mul_lt_mul'' hn hshort'
  omega

/-- The quotient of such mantissas has no remainder, and needs no other rounding. -/
theorem divCore_eq {n m m' t a' : Nat} (hlog : m.log2 = 52) (hlog' : m'.log2 = 52) (hpos : 0 < m')
    (h : m * 2 ^ 53 = n * m') :
    divCore Format.binary64 m (((a' + t : Nat) : Int) - 1074) m' ((a' : Int) - 1074) =
      (n, ((1021 + t : Nat) : Int) - (1074 : Nat), .exact) := by
  have htarget : min (((a' + t : Nat) : Int) - 1074 - ((a' : Int) - 1074)) (Format.binary64.targetExponent
      (totalExponent m (((a' + t : Nat) : Int) - 1074) - totalExponent m' ((a' : Int) - 1074))) =
      ((1021 + t : Nat) : Int) - (1074 : Nat) := by
    rw [targetExponent_binary64, totalExponent, totalExponent, hlog, hlog']
    omega
  have hshift : (((a' + t : Nat) : Int) - 1074 - ((a' : Int) - 1074) -
      (((1021 + t : Nat) : Int) - (1074 : Nat))).toNat = 53 := by omega
  unfold divCore
  dsimp only
  rw [htarget, hshift, Nat.shiftLeft_eq, h, Nat.mul_div_cancel _ hpos, Nat.mul_mod_left]
  rfl

/-- A quotient without a remainder is the nearest double to it. -/
theorem toBits_div {x c : Float} {n : Nat} (hx : 2 ^ 52 ≤ x.toBits.toNat) (hfinite : x.toBits.toNat < 2047 * 2 ^ 52)
    (hc : 2 ^ 52 ≤ c.toBits.toNat) (hfinite' : c.toBits.toNat < 2047 * 2 ^ 52) (hpos : 0 < n) (hn : n < 2 ^ 53)
    (h : magnitude x.toBits.toNat = n * magnitude c.toBits.toNat) :
    (x / c).toBits.toNat = nearestBits 1074 (n * 2 ^ 1074) := by
  change (UnpackedFloat.pack Format.binary64 (UnpackedFloat.div Format.binary64
    (UnpackedFloat.unpack Format.binary64 x.toBits.toBitVec)
    (UnpackedFloat.unpack Format.binary64 c.toBits.toBitVec))).toNat = _
  obtain ⟨m, a, hm⟩ := @exists_isFinite x.toBits.toBitVec (by rw [UInt64.toNat_toBitVec]; omega) hfinite
  obtain ⟨m', a', hm'⟩ := @exists_isFinite c.toBits.toBitVec (by rw [UInt64.toNat_toBitVec]; omega) hfinite'
  have hvalue : m * 2 ^ a = n * (m' * 2 ^ a') := hm.value.trans (h.trans (congrArg (n * ·) hm'.value.symm))
  obtain ⟨t, ht, rfl, hexact⟩ :=
    exists_places_between (hm.long hx) hm.short (hm'.long hc) hm'.short hpos hn hvalue
  have hquotient : m * 2 ^ 53 = n * 2 ^ (53 - t) * m' := by
    rw [Nat.mul_right_comm, ← hexact, Nat.mul_assoc, ← Nat.pow_add, Nat.add_sub_cancel' ht]
  have hlong : 2 ^ 52 ≤ n * 2 ^ (53 - t) := by
    apply Nat.le_of_mul_le_mul_right _ hm'.pos
    rw [← hquotient]
    exact Nat.mul_le_mul (hm.long hx) hm'.short.le
  have hlog := log2_of_full (hm.long hx) hm.short
  have hlog' := log2_of_full (hm'.long hc) hm'.short
  have hdiv := @divCore_eq _ m m' t a' hlog hlog' hm'.pos hquotient
  have hround := @toNat_pack_roundWithAccuracy (n * 2 ^ (53 - t)) (1021 + t) 1074 (by omega) (Nat.le_refl _)
    (.inl hlong)
  have hplaces : 2 ^ (53 - t) * 2 ^ (1021 + t) = 2 ^ 1074 := by
    rw [← Nat.pow_add]
    congr 1
    omega
  rw [hm.unpack, hm'.unpack, ← hplaces, ← Nat.mul_assoc, ← hround]
  unfold UnpackedFloat.div
  dsimp only
  rw [hdiv]
  rfl

theorem whole_div {q d : Nat} (hq : 0 < q) (hd : 0 < d) (h : q * d < 2 ^ 53) : whole (q * d) / whole d = whole q := by
  have hqlt : q < 2 ^ 53 := lt_of_le_of_lt (Nat.le_mul_of_pos_right q hd) h
  have hdlt : d < 2 ^ 53 := lt_of_le_of_lt (Nat.le_mul_of_pos_left d hq) h
  apply eq_of_toBits
  rw [toBits_div (le_toBits_whole (Nat.mul_pos hq hd) h) (toBits_whole_lt h) (le_toBits_whole hd hdlt)
    (toBits_whole_lt hdlt) hq hqlt (by rw [magnitude_whole h, magnitude_whole hdlt, Nat.mul_assoc])]
  exact (toBits_toFloat hqlt (Nat.le_refl 1074)).symm

end ScriptGraph
