namespace ScriptGraph.Decimal

/-- Rounds `num / den` to a whole number, a half to the even neighbour. -/
def roundDiv (num den : Nat) : Nat :=
  let q := num / den
  let r := num % den
  if 2 * r < den || (2 * r = den && q % 2 = 0) then q else q + 1

/-- The exponent of the last binary place that a double has room for near `num / den`. -/
def lastPlace (num den : Nat) : Int :=
  let q : Int := (num.log2 : Int) - den.log2 - 53
  let fits : Bool :=
    if 0 ≤ q then num / (den <<< q.toNat) < 1 <<< 53 else (num <<< q.natAbs) / den < 1 <<< 53
  max (if fits then q else q + 1) (-1074)

/-- The double nearest to `num / den`, a half going to the even neighbour; infinite beyond the
largest double. -/
def nearestQuotient (num den : Nat) : Float :=
  if num = 0 then 0
  else
    let q := lastPlace num den
    let m := if 0 ≤ q then roundDiv num (den <<< q.toNat) else roundDiv (num <<< q.natAbs) den
    let bits := ((q + 1074).toNat <<< 52) + m
    Float.ofBits (min bits (2047 <<< 52)).toUInt64

/-- Numbers whose first digit stands this far from the point are infinite or zero as doubles. -/
def farPlace : Nat := 400

/-- The double nearest to `significand · 10^exponent`. -/
def nearest (significand : Nat) (exponent : Int) : Float :=
  let first : Int := exponent + (Nat.toDigits 10 significand).length
  if significand = 0 || first < -farPlace then 0
  else if farPlace < first then nearestQuotient (Nat.pow 10 farPlace) 1
  else if 0 ≤ exponent then nearestQuotient (significand * Nat.pow 10 exponent.toNat) 1
  else nearestQuotient significand (Nat.pow 10 exponent.natAbs)

end ScriptGraph.Decimal
