namespace ScriptGraph.Decimal

/-- The decimal number `digits · 10^place`. -/
structure Scaled where
  digits : Nat
  place : Int
  deriving DecidableEq, Repr

/-- A finite double as `mantissa · 2^exponent`. It is narrow if the next smaller double is only half
as far away as the next larger one. -/
structure Binary where
  mantissa : Nat
  exponent : Int
  narrow : Bool
  deriving DecidableEq, Repr

namespace Binary

/-- The magnitude of a finite double. -/
def ofFloat (x : Float) : Binary :=
  let bits : Nat := x.toBits.toNat
  let fraction := bits % (1 <<< 52)
  let biased : Nat := (bits >>> 52) % (1 <<< 11)
  if biased = 0 then ⟨fraction, -1074, false⟩
  else ⟨(1 <<< 52) + fraction, Int.subNatNat biased 1075, fraction = 0 && biased ≠ 1⟩

end Binary

def digitCount (n : Nat) : Nat := (Nat.toDigits 10 n).length

/-- The exponent of the largest power of ten up to `num / den`. -/
def magnitude (num den : Nat) : Int :=
  if den ≤ num then (digitCount (num / den) : Int) - 1
  else -(digitCount ((den + num - 1) / num - 1) : Int)

/-- The numbers that round to a double: `value / unit`, anything between `low / unit` and
`high / unit`, and the bounds themselves if `closed`. -/
structure Interval where
  low : Nat
  value : Nat
  high : Nat
  unit : Nat
  closed : Bool
  deriving DecidableEq, Repr

namespace Interval

def ofBinary (b : Binary) : Interval :=
  let up : Nat := 1 <<< b.exponent.toNat
  { low := (4 * b.mantissa - if b.narrow then 1 else 2) * up
    value := 4 * b.mantissa * up
    high := (4 * b.mantissa + 2) * up
    unit := 4 <<< (-b.exponent).toNat
    closed := b.mantissa % 2 = 0 }

def contains (i : Interval) (num den : Nat) : Bool :=
  if i.closed then i.low * den ≤ num * i.unit && num * i.unit ≤ i.high * den
  else i.low * den < num * i.unit && num * i.unit < i.high * den

/-- Of the two multiples of `10^place` around the value, the nearest that is in the interval. Of two
that are equally near, the even one is taken. -/
def onGrid? (i : Interval) (place : Int) : Option Scaled :=
  let up := Nat.pow 10 place.toNat
  let den := Nat.pow 10 (-place).toNat
  let below := i.value * den / (i.unit * up)
  let above := below + 1
  let down := i.value * den - below * up * i.unit
  let rest := above * up * i.unit - i.value * den
  let preferBelow := down < rest || (down = rest && below % 2 = 0)
  match i.contains (below * up) den, i.contains (above * up) den with
  | true, true => some ⟨if preferBelow then below else above, place⟩
  | true, false => some ⟨below, place⟩
  | false, true => some ⟨above, place⟩
  | false, false => none

/-- The decimal with the fewest digits in the interval. Seventeen digits always suffice. -/
def shortest (i : Interval) : Scaled :=
  let top := magnitude i.value i.unit
  ((List.range 17).findSome? fun n => i.onGrid? (top - Int.ofNat n)).getD ⟨0, 0⟩

end Interval

/-- Where a decimal `d.ddd · 10^n` is written without exponent: for `lowest ≤ n < limit`. -/
structure Style where
  lowest : Int
  limit : Int
  deriving DecidableEq, Repr

namespace Style

/-- Writes a positive decimal; a whole number ends in `.0`, an exponent has its sign. -/
def write (style : Style) (x : Scaled) : String :=
  let digits := ((Nat.toDigits 10 x.digits).reverse.dropWhile (· = '0')).reverse
  let exponent := x.place + digitCount x.digits - 1
  if style.lowest ≤ exponent && exponent < style.limit then
    if 0 ≤ exponent then
      let whole := exponent.toNat + 1
      let fraction := digits.drop whole
      String.ofList (digits.take whole ++ List.replicate (whole - digits.length) '0') ++ "." ++
        if fraction.isEmpty then "0" else String.ofList fraction
    else "0." ++ String.ofList (List.replicate (-exponent - 1).toNat '0' ++ digits)
  else
    let fraction := digits.drop 1
    String.ofList (digits.take 1) ++ (if fraction.isEmpty then "" else "." ++ String.ofList fraction)
      ++ (if exponent < 0 then "e-" else "e+") ++ Nat.repr exponent.natAbs

/-- The text of a finite double: the fewest digits that read back as the same number. -/
def float (style : Style) (x : Float) : String :=
  let b := Binary.ofFloat x
  (if x.toBits.toNat >>> 63 = 1 then "-" else "") ++
    if b.mantissa = 0 then "0.0" else style.write (Interval.ofBinary b).shortest

end Style

end ScriptGraph.Decimal
