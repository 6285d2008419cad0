import ScriptGraph.Decimal.Nearest
import ScriptGraph.Json.Reader
import ScriptGraph.Toml

namespace ScriptGraph.Toml

/-- A reader takes its value from the front of a text. -/
abbrev Reader (α : Type) := List Char → Option (α × List Char)

namespace Reader

/-- Arrays and inline tables nest less deep than this, and keys have fewer parts. -/
def nestingBound : Nat := 80

def isSpace (c : Char) : Bool := c = ' ' || c = '\t'

def isDigit (c : Char) : Bool := '0' ≤ c && c ≤ '9'

/-- Characters that may stand in comments and strings: all but the control characters of ASCII,
where a tab is none. -/
def isPlain (c : Char) : Bool := c = '\t' || (0x20 ≤ c.toNat && c.toNat ≠ 0x7F)

def isKeyChar (c : Char) : Bool :=
  isDigit c || ('a' ≤ c && c ≤ 'z') || ('A' ≤ c && c ≤ 'Z') || c = '-' || c = '_'

def skip (cs : List Char) : List Char := cs.dropWhile isSpace

def newline? : List Char → Option (List Char)
  | '\n' :: cs => some cs
  | '\r' :: '\n' :: cs => some cs
  | _ => none

def dropNewline (cs : List Char) : List Char := (newline? cs).getD cs

def skipComment : List Char → List Char
  | '#' :: cs => cs.dropWhile isPlain
  | cs => cs

/-- The rest behind the end of a line, which blanks and a comment may precede. -/
def lineEnd? (cs : List Char) : Option (List Char) :=
  match skipComment (skip cs) with
  | [] => some []
  | cs => newline? cs

/-- Skips blanks, comments and line ends. -/
def skipLines : List Char → List Char → List Char
  | [], cs => cs
  | _ :: budget, cs =>
    let cs := skip cs
    match newline? (skipComment cs) with
    | some rest => skipLines budget rest
    | none => cs

def skipBetween (cs : List Char) : List Char := skipLines cs cs

def charOf? (n : Nat) : Option Char :=
  if n < 0xD800 || (0xE000 ≤ n && n < 0x110000) then some (Char.ofNat n) else none

def unicode? (digits : List Char) : Option Char := do
  let values ← digits.mapM Json.Reader.hexValue?
  charOf? (values.foldl (fun n d => 16 * n + d) 0)

def escape? : Char → Option Char
  | '"' => some '"' | '\\' => some '\\' | 'b' => some '\x08' | 'f' => some '\x0c'
  | 'n' => some '\n' | 'r' => some '\r' | 't' => some '\t' | _ => none

/-- Where in a string with escapes a reader is: on its only line, on one of several lines, or behind
a backslash at the end of a line, where blanks and line ends do not count. -/
inductive Mode where
  | single | several | joining
  deriving DecidableEq, Repr

def Mode.resumed : Mode → Mode
  | single => single
  | _ => several

/-- Puts a character in front of what a reader has found. -/
def push (c : Char) (r : Option (List Char × List Char)) : Option (List Char × List Char) :=
  r.map fun (text, rest) => (c :: text, rest)

/-- A string with escapes behind its opening quotes. One or two quotes may stand right before the
three that close it. -/
def basic : Mode → Reader (List Char)
  | _, [] => none
  | .single, '"' :: cs => some ([], cs)
  | _, '"' :: '"' :: '"' :: '"' :: '"' :: cs => some (['"', '"'], cs)
  | _, '"' :: '"' :: '"' :: '"' :: cs => some (['"'], cs)
  | _, '"' :: '"' :: '"' :: cs => some ([], cs)
  | m, '\\' :: 'u' :: a :: b :: c :: d :: cs => do
    push (← unicode? [a, b, c, d]) (basic m.resumed cs)
  | m, '\\' :: 'U' :: a :: b :: c :: d :: e :: f :: g :: h :: cs => do
    push (← unicode? [a, b, c, d, e, f, g, h]) (basic m.resumed cs)
  | m, '\\' :: c :: cs =>
    if m ≠ .single && (newline? (skip (c :: cs))).isSome then basic .joining (c :: cs)
    else do push (← escape? c) (basic m.resumed cs)
  | m, '\r' :: '\n' :: cs =>
    match m with
    | .single => none
    | .several => push '\n' (basic m cs)
    | .joining => basic m cs
  | m, '\n' :: cs =>
    match m with
    | .single => none
    | .several => push '\n' (basic m cs)
    | .joining => basic m cs
  | m, c :: cs =>
    if m = .joining && isSpace c then basic m cs
    else if isPlain c && c ≠ '\\' then push c (basic m.resumed cs)
    else none

/-- A string without escapes behind its three opening quotes. -/
def literalLines : Reader (List Char)
  | [] => none
  | '\'' :: '\'' :: '\'' :: '\'' :: '\'' :: cs => some (['\'', '\''], cs)
  | '\'' :: '\'' :: '\'' :: '\'' :: cs => some (['\''], cs)
  | '\'' :: '\'' :: '\'' :: cs => some ([], cs)
  | '\r' :: '\n' :: cs => push '\n' (literalLines cs)
  | '\n' :: cs => push '\n' (literalLines cs)
  | c :: cs => if isPlain c then push c (literalLines cs) else none

/-- A string without escapes behind its opening quote. -/
def literal : Reader (List Char)
  | [] => none
  | '\'' :: cs => some ([], cs)
  | c :: cs => if isPlain c then push c (literal cs) else none

def string : Reader (List Char)
  | '"' :: '"' :: '"' :: cs => basic .several (dropNewline cs)
  | '"' :: cs => basic .single cs
  | '\'' :: '\'' :: '\'' :: cs => literalLines (dropNewline cs)
  | '\'' :: cs => literal cs
  | _ => none

/-- Digits behind a first one, which single underscores may divide. -/
def moreDigits (digit : Char → Bool) : Reader (List Char)
  | [] => some ([], [])
  | c :: cs =>
    if digit c then push c (moreDigits digit cs)
    else if c = '_' then
      match cs with
      | d :: _ => if digit d then moreDigits digit cs else none
      | [] => none
    else some ([], c :: cs)

def digits (digit : Char → Bool) : Reader (List Char)
  | c :: cs => if digit c then push c (moreDigits digit cs) else none
  | [] => none

/-- The digits of a whole number; nothing follows a leading zero. -/
def wholeDigits : Reader (List Char)
  | '0' :: cs => some (['0'], cs)
  | cs => digits isDigit cs

def inBase (base : Nat) (ds : List Char) : Nat :=
  ds.foldl (fun n c => base * n + (Json.Reader.hexValue? c).getD 0) 0

def isHexDigit (c : Char) : Bool := (Json.Reader.hexValue? c).isSome

def isOctalDigit (c : Char) : Bool := '0' ≤ c && c ≤ '7'

def isBinaryDigit (c : Char) : Bool := c = '0' || c = '1'

/-- Whole numbers have to fit into 64 bits with a sign. -/
def integer? (n : Int) : Option Json :=
  if Int64.minValue.toInt ≤ n && n ≤ Int64.maxValue.toInt then some (.integer n) else none

def based (base : Nat) (digit : Char → Bool) : Reader Json := fun cs => do
  let (ds, rest) ← digits digit cs
  return (← integer? (inBase base ds), rest)

/-- A sign, if there is one: whether it is a minus. -/
def sign : List Char → Bool × List Char
  | '+' :: cs => (false, cs)
  | '-' :: cs => (true, cs)
  | cs => (false, cs)

def fraction? : List Char → Option (Option (List Char) × List Char)
  | '.' :: cs => (digits isDigit cs).map fun (ds, rest) => (some ds, rest)
  | cs => some (none, cs)

def exponent? : List Char → Option (Option Int × List Char)
  | c :: cs =>
    if c = 'e' || c = 'E' then do
      let (negative, cs) := sign cs
      let (ds, rest) ← digits isDigit cs
      let n : Int := inBase 10 ds
      return (some (if negative then -n else n), rest)
    else some (none, c :: cs)
  | [] => some (none, [])

/-- A number above all doubles is refused, one below them is infinite. -/
def float? (negative : Bool) (significand : Nat) (exponent : Int) : Option Json :=
  let x := Decimal.nearest significand exponent
  if negative then some (.double (-x)) else if x.isInf then none else some (.double x)

def decimal (negative : Bool) : Reader Json := fun cs => do
  let (ds, cs) ← wholeDigits cs
  let (decimals, cs) ← fraction? cs
  let (exponent, cs) ← exponent? cs
  if decimals.isNone && exponent.isNone then
    let n : Int := inBase 10 ds
    return (← integer? (if negative then -n else n), cs)
  let places := decimals.getD []
  return (← float? negative (inBase 10 (ds ++ places)) (exponent.getD 0 - places.length), cs)

def infinity : Float := Float.ofBits 0x7FF0000000000000

def notANumber : Float := Float.ofBits 0x7FF8000000000000

def signed (x : Float) (negative : Bool) : Json := .double (if negative then -x else x)

def number : Reader Json
  | '0' :: 'x' :: cs => based 16 isHexDigit cs
  | '0' :: 'o' :: cs => based 8 isOctalDigit cs
  | '0' :: 'b' :: cs => based 2 isBinaryDigit cs
  | cs =>
    match sign cs with
    | (negative, 'i' :: 'n' :: 'f' :: rest) => some (signed infinity negative, rest)
    | (negative, 'n' :: 'a' :: 'n' :: rest) => some (signed notANumber negative, rest)
    | (negative, rest) => decimal negative rest

/-- A number of exactly two digits up to a bound. -/
def twoDigits (least most : Nat) : Reader Nat
  | a :: b :: cs =>
    let n := inBase 10 [a, b]
    if isDigit a && isDigit b && least ≤ n && n ≤ most then some (n, cs) else none
  | _ => none

def daysIn (year month : Nat) : Nat :=
  if month = 2 then
    if year % 4 = 0 && (year % 100 ≠ 0 || year % 400 = 0) then 29 else 28
  else if month = 4 || month = 6 || month = 9 || month = 11 then 30
  else 31

/-- The rest behind a date. -/
def date? : List Char → Option (List Char)
  | a :: b :: c :: d :: '-' :: cs =>
    if [a, b, c, d].all isDigit then do
      let (month, cs) ← twoDigits 1 12 cs
      match cs with
      | '-' :: cs => do
        let (_, cs) ← twoDigits 1 (daysIn (inBase 10 [a, b, c, d]) month) cs
        return cs
      | _ => none
    else none
  | _ => none

def skipFraction : List Char → List Char
  | '.' :: c :: cs => if isDigit c then cs.dropWhile isDigit else '.' :: c :: cs
  | cs => cs

/-- The rest behind a time of day. -/
def time? (cs : List Char) : Option (List Char) := do
  let (_, cs) ← twoDigits 0 23 cs
  match cs with
  | ':' :: cs => do
    let (_, cs) ← twoDigits 0 59 cs
    match cs with
    | ':' :: cs => do
      let (_, cs) ← twoDigits 0 60 cs
      return skipFraction cs
    | _ => none
  | _ => none

/-- The rest behind the offset of a time. -/
def offset? : List Char → Option (List Char)
  | [] => some []
  | c :: cs =>
    if c = 'Z' || c = 'z' then some cs
    else if c = '+' || c = '-' then do
      let (_, cs) ← twoDigits 0 23 cs
      match cs with
      | ':' :: cs => do
        let (_, cs) ← twoDigits 0 59 cs
        return cs
      | _ => none
    else some (c :: cs)

/-- The rest behind a date, a time or both. -/
def moment? (cs : List Char) : Option (List Char) :=
  match date? cs with
  | none => time? cs
  | some [] => some []
  | some (c :: rest) =>
    if c = 'T' || c = 't' || c = ' ' then
      match time? rest with
      | some rest => offset? rest
      | none => some (c :: rest)
    else some (c :: rest)

/-- A point in time stands for an object of its own. -/
def moment (cs : List Char) : Option (Json × List Char) :=
  (moment? cs).map fun rest =>
    (.object [("moment", .string (String.ofList (cs.take (cs.length - rest.length))))], rest)

def simpleKey : Reader String := fun cs =>
  match cs with
  | '"' :: cs => (basic .single cs).map fun (text, rest) => (String.ofList text, rest)
  | '\'' :: cs => (literal cs).map fun (text, rest) => (String.ofList text, rest)
  | cs =>
    let text := cs.takeWhile isKeyChar
    if text.isEmpty then none else some (String.ofList text, cs.drop text.length)

/-- The parts of a key, divided by points. -/
def keyParts : List Char → Reader (List String)
  | [], _ => none
  | _ :: budget, cs => do
    let (part, rest) ← simpleKey (skip cs)
    match skip rest with
    | '.' :: rest => do
      let (parts, rest) ← keyParts budget rest
      return (part :: parts, rest)
    | rest => return ([part], rest)

def key : Reader (List String) := fun cs => do
  let (parts, rest) ← keyParts cs cs
  if parts.length < nestingBound then some (parts, rest) else none

def entry (value : Reader Json) : Reader Entry := fun cs => do
  let (path, rest) ← key cs
  match rest with
  | '=' :: rest => do
    let (v, rest) ← value (skip rest)
    return (⟨path, v⟩, rest)
  | _ => none

/-- The items of an array behind its bracket, or behind a comma in it. -/
def items (value : Reader Json) : List Char → Reader (List Json)
  | [], _ => none
  | _ :: budget, cs =>
    match skipBetween cs with
    | ']' :: rest => some ([], rest)
    | cs => do
      let (v, rest) ← value cs
      match skipBetween rest with
      | ',' :: rest => do
        let (vs, rest) ← items value budget rest
        return (v :: vs, rest)
      | ']' :: rest => return ([v], rest)
      | _ => none

/-- The entries of an inline table behind its brace, or behind a comma in it. -/
def entries (value : Reader Json) : List Char → Reader (List Entry)
  | [], _ => none
  | _ :: budget, cs => do
    let (e, rest) ← entry value cs
    match skip rest with
    | ',' :: rest => do
      let (es, rest) ← entries value budget rest
      return (e :: es, rest)
    | '\x7d' :: rest => return ([e], rest)
    | _ => none

def array (value : Reader Json) : Reader Json := fun cs =>
  (items value cs cs).map fun (vs, rest) => (.array vs, rest)

def table (value : Reader Json) : Reader Json := fun cs =>
  match skip cs with
  | '\x7d' :: rest => some (.object [], rest)
  | _ => do
    let (es, rest) ← entries value cs cs
    return (← inlineTable? es, rest)

/-- A value whose parts are read by `inner`; without it, no array or inline table is accepted. -/
def valueOver (inner : Option (Reader Json)) : Reader Json := fun cs =>
  match cs with
  | '[' :: cs => do array (← inner) cs
  | '\x7b' :: cs => do table (← inner) cs
  | 't' :: 'r' :: 'u' :: 'e' :: cs => some (.bool true, cs)
  | 'f' :: 'a' :: 'l' :: 's' :: 'e' :: cs => some (.bool false, cs)
  | '"' :: _ | '\'' :: _ => (string cs).map fun (text, rest) => (.string (String.ofList text), rest)
  | cs => (moment cs).or (number cs)

/-- A value with room for `depth` levels of arrays and inline tables. -/
def value : Nat → Reader Json
  | 0 => valueOver none
  | depth + 1 => valueOver (some (value depth))

def header : Reader Header
  | '[' :: '[' :: cs => do
    let (path, rest) ← key cs
    match rest with
    | ']' :: ']' :: rest => return (.element path, rest)
    | _ => none
  | '[' :: cs => do
    let (path, rest) ← key cs
    match rest with
    | ']' :: rest => return (.table path, rest)
    | _ => none
  | _ => none

/-- A line with its end. -/
def line : Reader Line := fun cs => do
  let (l, rest) ←
    match cs with
    | [] | '#' :: _ | '\n' :: _ | '\r' :: _ => some (Line.blank, cs)
    | '[' :: _ => (header cs).map fun (h, rest) => (Line.header h, rest)
    | _ => (entry (value (nestingBound - 1)) cs).map fun (e, rest) => (Line.entry e, rest)
  return (l, ← lineEnd? rest)

def lines? : List Char → List Char → Option (List Line)
  | [], cs => if (skip cs).isEmpty then some [] else none
  | _ :: budget, cs =>
    if (skip cs).isEmpty then some []
    else do
      let (l, rest) ← line (skip cs)
      return l :: (← lines? budget rest)

/-- Text files may start with a mark of their encoding. -/
def dropMark : List Char → List Char
  | c :: cs => if c.toNat = 0xFEFF then cs else c :: cs
  | [] => []

end Reader

/-- Reads a document, as an object. -/
def read? (text : String) : Option Json := do
  let cs := Reader.dropMark text.toList
  assemble? (← Reader.lines? cs cs)

end ScriptGraph.Toml
