import ScriptGraph.Decimal.Nearest

namespace ScriptGraph.Decimal

/-- Significands are kept below this bound. -/
def significandBound : Nat := UInt64.size

def digitValue (c : Char) : Nat := c.toNat - '0'.toNat

/-- Appends digits to a significand as long as it stays below the bound; the others are left over. -/
def extend (significand : Nat) : List Char → Nat × List Char
  | [] => (significand, [])
  | c :: cs =>
    let n := 10 * significand + digitValue c
    if n < significandBound then extend n cs else (significand, c :: cs)

def power (n : Nat) : Float := nearest 1 n

/-- `significand · 10^exponent`, computed in doubles with one rounding for the significand and one
for the scaling; none if it is too large. A number far below the least double becomes zero, which
two divisions by `10^308` bring about. -/
def scale? (significand : Nat) (exponent : Int) : Option Float :=
  let x := significand.toUInt64.toFloat
  if 0 ≤ exponent then
    if significand = 0 then some x
    else if 308 < exponent then none
    else
      let y := x * power exponent.toNat
      if y.isInf then none else some y
  else
    let e := exponent.natAbs
    let rounds := (e - 1) / 308
    some ((List.replicate (min rounds 2) (power 308)).foldl (· / ·) x / power (e - 308 * rounds))

end ScriptGraph.Decimal
