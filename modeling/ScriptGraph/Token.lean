namespace ScriptGraph

inductive TokenKind where
  | keyword | identifier | string | number | operator | punctuation | comment | eof
  deriving DecidableEq, Repr

/-- A token with the line and column of its first character, both counted from one. The text of a
string is what stands between its quotes, escapes as written. -/
structure Token where
  kind : TokenKind
  text : String
  line : Nat
  column : Nat
  quote : Option Char := none
  deriving DecidableEq, Repr

def keywords : List String :=
  ["and", "break", "do", "else", "elseif", "end", "false", "for", "function", "if", "in", "local",
    "nil", "not", "or", "repeat", "return", "then", "true", "until", "while"]

def isKeyword (word : String) : Bool := keywords.contains word

namespace Token

def endOfInput (line column : Nat) : Token := ⟨.eof, "", line, column, none⟩

def isEof (t : Token) : Bool := t.kind == .eof

/-- Is the token a keyword, operator or punctuation mark spelled `text`? -/
def is (t : Token) (text : String) : Bool :=
  (t.kind == .keyword || t.kind == .operator || t.kind == .punctuation) && t.text == text

/-- The token as error messages name it. -/
def describe (t : Token) : String :=
  match t.kind with
  | .eof => "end of input"
  | .string =>
    let q := String.singleton (t.quote.getD '"')
    q ++ t.text ++ q
  | _ => "'" ++ t.text ++ "'"

end Token

end ScriptGraph
