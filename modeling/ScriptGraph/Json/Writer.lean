import ScriptGraph.Decimal.Shortest
import ScriptGraph.Json
import ScriptGraph.Text

namespace ScriptGraph.Json

/-- Doubles from `10^-5` up to `10^16` are written without exponent. -/
def doubleStyle : Decimal.Style := ⟨-5, 16⟩

/-- The text of a double; what is not finite has none. -/
def doubleText? (x : Float) : Option String :=
  if x.isFinite then some (doubleStyle.float x) else none

def escaped (c : Char) : List Char :=
  match c with
  | '"' => ['\\', '"']
  | '\\' => ['\\', '\\']
  | '\x08' => ['\\', 'b']
  | '\x0c' => ['\\', 'f']
  | '\n' => ['\\', 'n']
  | '\r' => ['\\', 'r']
  | '\t' => ['\\', 't']
  | c =>
    if c.toNat < 0x20 then ['\\', 'u', '0', '0', Nat.digitChar (c.toNat / 16),
      Nat.digitChar (c.toNat % 16)]
    else [c]

def quoted (s : String) : String := "\"" ++ String.ofList (s.toList.flatMap escaped) ++ "\""

/-- The text of a value that holds no other values. -/
def scalar : Json → String
  | null => "null"
  | bool b => if b then "true" else "false"
  | integer n => toString n
  | double x => (doubleText? x).getD "null"
  | string s => quoted s
  | array _ => "[]"
  | object _ => "\x7b\x7d"

mutual

/-- The value on one line, without any space. -/
def compact : Json → String
  | array (v :: vs) => "[" ++ compact v ++ compactItems vs ++ "]"
  | object ((k, v) :: es) => "\x7b" ++ quoted k ++ ":" ++ compact v ++ compactEntries es ++ "\x7d"
  | v => scalar v

def compactItems : List Json → String
  | [] => ""
  | v :: vs => "," ++ compact v ++ compactItems vs

def compactEntries : List (String × Json) → String
  | [] => ""
  | (k, v) :: es => "," ++ quoted k ++ ":" ++ compact v ++ compactEntries es

end

def lineStart (level : Nat) : String := "\n" ++ Text.repeated "  " level

mutual

/-- The value with every item and entry on a line of its own. -/
def pretty (level : Nat) : Json → String
  | array (v :: vs) =>
    "[" ++ lineStart (level + 1) ++ pretty (level + 1) v ++ prettyItems (level + 1) vs ++
      lineStart level ++ "]"
  | object ((k, v) :: es) =>
    "\x7b" ++ lineStart (level + 1) ++ quoted k ++ ": " ++ pretty (level + 1) v ++
      prettyEntries (level + 1) es ++ lineStart level ++ "\x7d"
  | v => scalar v

def prettyItems (level : Nat) : List Json → String
  | [] => ""
  | v :: vs => "," ++ lineStart level ++ pretty level v ++ prettyItems level vs

def prettyEntries (level : Nat) : List (String × Json) → String
  | [] => ""
  | (k, v) :: es =>
    "," ++ lineStart level ++ quoted k ++ ": " ++ pretty level v ++ prettyEntries level es

end

end ScriptGraph.Json
