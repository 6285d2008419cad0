import ScriptGraph.Decimal.Scale
import ScriptGraph.Json

namespace ScriptGraph.Json

/-- A reader takes its value from the front of a text. -/
abbrev Reader (α : Type) := List Char → Option (α × List Char)

namespace Reader

/-- Arrays and objects may nest this deep. -/
def maxDepth : Nat := 127

def isSpace (c : Char) : Bool := c = ' ' || c = '\t' || c = '\n' || c = '\r'

def isDigit (c : Char) : Bool := '0' ≤ c && c ≤ '9'

def skip (cs : List Char) : List Char := cs.dropWhile isSpace

def hexValue? (c : Char) : Option Nat :=
  if isDigit c then some (c.toNat - '0'.toNat)
  else if 'a' ≤ c && c ≤ 'f' then some (c.toNat - 'a'.toNat + 10)
  else if 'A' ≤ c && c ≤ 'F' then some (c.toNat - 'A'.toNat + 10)
  else none

def hex? (a b c d : Char) : Option Nat := do
  return ((← hexValue? a) * 16 + (← hexValue? b)) * 256 + (← hexValue? c) * 16 + (← hexValue? d)

def escape? : Char → Option Char
  | '"' => some '"' | '\\' => some '\\' | '/' => some '/' | 'b' => some '\x08' | 'f' => some '\x0c'
  | 'n' => some '\n' | 'r' => some '\r' | 't' => some '\t' | _ => none

def isHighSurrogate (n : Nat) : Bool := 0xD800 ≤ n && n < 0xDC00

def isLowSurrogate (n : Nat) : Bool := 0xDC00 ≤ n && n < 0xE000

/-- A string behind its opening quote. Surrogates must come in pairs. -/
def string : Reader (List Char)
  | [] => none
  | '"' :: cs => some ([], cs)
  | '\\' :: 'u' :: a :: b :: c :: d :: cs => do
    let n ← hex? a b c d
    if isLowSurrogate n then none
    if isHighSurrogate n then
      match cs with
      | '\\' :: 'u' :: e :: f :: g :: h :: cs => do
        let m ← hex? e f g h
        if !isLowSurrogate m then none
        let (text, rest) ← string cs
        return (Char.ofNat (0x10000 + (n - 0xD800) * 0x400 + (m - 0xDC00)) :: text, rest)
      | _ => none
    else
      let (text, rest) ← string cs
      return (Char.ofNat n :: text, rest)
  | '\\' :: c :: cs => do
    let e ← escape? c
    let (text, rest) ← string cs
    return (e :: text, rest)
  | c :: cs => do
    if c.toNat < 0x20 || c = '\\' then none
    let (text, rest) ← string cs
    return (c :: text, rest)

/-- The digits of a whole part; a zero is never followed by another digit. -/
def whole? (cs : List Char) : Option (List Char × List Char) :=
  match cs.takeWhile isDigit with
  | [] => none
  | ['0'] => some (['0'], cs.drop 1)
  | '0' :: _ => none
  | ds => some (ds, cs.drop ds.length)

/-- The digits behind a decimal point, if there is one. -/
def fraction? : List Char → Option (List Char × List Char)
  | '.' :: cs =>
    match cs.takeWhile isDigit with
    | [] => none
    | ds => some (ds, cs.drop ds.length)
  | cs => some ([], cs)

/-- The sign and the digits of an exponent, if there is one. -/
def exponent? : List Char → Option (Option (Bool × List Char) × List Char)
  | e :: cs =>
    if e = 'e' || e = 'E' then
      let (negative, cs) :=
        match cs with
        | '+' :: cs => (false, cs)
        | '-' :: cs => (true, cs)
        | cs => (false, cs)
      match cs.takeWhile isDigit with
      | [] => none
      | ds => some (some (negative, ds), cs.drop ds.length)
    else some (none, e :: cs)
  | [] => some (none, [])

/-- Exponents from here on count as out of range. -/
def exponentBound : Nat := 1 <<< 31

def natValue (digits : List Char) : Nat :=
  digits.foldl (fun n c => 10 * n + Decimal.digitValue c) 0

/-- A double from its digits. Digits that do not fit the significand are dropped. -/
def double? (significand : Nat) (place : Int) : Option (Bool × List Char) → Option Float
  | none => Decimal.scale? significand place
  | some (negative, digits) =>
    let e := natValue digits
    if e < exponentBound then Decimal.scale? significand (if negative then place - e else place + e)
    else if significand = 0 || negative then some 0
    else none

/-- A whole number that fits into 64 bits stays one, any other number is a double. -/
def number (negative : Bool) : Reader Json := fun cs => do
  let (digits, cs) ← whole? cs
  let (decimals, cs) ← fraction? cs
  let (exponent, cs) ← exponent? cs
  let (n, dropped) := Decimal.extend 0 digits
  if decimals.isEmpty && exponent.isNone && dropped.isEmpty &&
      (if negative then 0 < n && n ≤ 1 <<< 63 else true) then
    return (.integer (if negative then -(n : Int) else n), cs)
  let (m, left) := Decimal.extend n decimals
  let kept := decimals.length - left.length
  let x ← double? m ((dropped.length : Int) - kept) exponent
  return (.double (if negative then -x else x), cs)

def keyword? (word : List Char) (value : Json) (cs : List Char) : Option (Json × List Char) :=
  if word.isPrefixOf cs then some (value, cs.drop word.length) else none

/-- The items of an array behind its bracket, or behind a comma in it. -/
def items (value : Reader Json) : List Char → Reader (List Json)
  | [], _ => none
  | _ :: budget, cs => do
    let (v, rest) ← value cs
    match skip rest with
    | ',' :: rest => do
      let (vs, rest) ← items value budget rest
      return (v :: vs, rest)
    | ']' :: rest => return ([v], rest)
    | _ => none

def entry (value : Reader Json) : Reader (String × Json) := fun cs =>
  match skip cs with
  | '"' :: cs => do
    let (key, rest) ← string cs
    match skip rest with
    | ':' :: rest => do
      let (v, rest) ← value rest
      return ((String.ofList key, v), rest)
    | _ => none
  | _ => none

/-- The entries of an object behind its brace, or behind a comma in it. -/
def entries (value : Reader Json) : List Char → Reader (List (String × Json))
  | [], _ => none
  | _ :: budget, cs => do
    let (e, rest) ← entry value cs
    match skip rest with
    | ',' :: rest => do
      let (es, rest) ← entries value budget rest
      return (e :: es, rest)
    | '\x7d' :: rest => return ([e], rest)
    | _ => none

def array (value : Reader Json) : Reader Json := fun cs =>
  match skip cs with
  | ']' :: rest => some (.array [], rest)
  | _ => (items value cs cs).map fun (vs, rest) => (.array vs, rest)

def object (value : Reader Json) : Reader Json := fun cs =>
  match skip cs with
  | '\x7d' :: rest => some (.object [], rest)
  | _ => (entries value cs cs).map fun (es, rest) => (.object es, rest)

/-- A value whose parts are read by `inner`; without it, no array or object is accepted. -/
def valueOver (inner : Option (Reader Json)) : Reader Json := fun cs =>
  match skip cs with
  | '[' :: cs => do array (← inner) cs
  | '\x7b' :: cs => do object (← inner) cs
  | '"' :: cs => (string cs).map fun (text, rest) => (.string (String.ofList text), rest)
  | '-' :: cs => number true cs
  | 'n' :: cs => keyword? ['u', 'l', 'l'] .null cs
  | 't' :: cs => keyword? ['r', 'u', 'e'] (.bool true) cs
  | 'f' :: cs => keyword? ['a', 'l', 's', 'e'] (.bool false) cs
  | cs => number false cs

/-- A value with room for `depth` levels of arrays and objects. -/
def value : Nat → Reader Json
  | 0 => valueOver none
  | depth + 1 => valueOver (some (value depth))

end Reader

/-- Reads a text that holds one value. Repeated keys of an object are all kept. -/
def read? (text : String) : Option Json := do
  let (v, rest) ← Reader.value Reader.maxDepth text.toList
  if (Reader.skip rest).isEmpty then some v else none

end ScriptGraph.Json
