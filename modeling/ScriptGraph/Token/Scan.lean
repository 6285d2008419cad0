import ScriptGraph.Text
import ScriptGraph.Token

namespace ScriptGraph

/-- A token before it is placed, with the characters it was cut from. -/
structure Lexeme where
  kind : TokenKind
  text : List Char
  quote : Option Char
  source : List Char
  deriving DecidableEq, Repr

/-- A text is a row of lexemes and of characters that belong to none. -/
inductive Piece where
  | gap (c : Char)
  | lexeme (l : Lexeme)
  deriving DecidableEq, Repr

namespace Lexeme

/-- A lexeme that is spelled by its own text. -/
def verbatim (kind : TokenKind) (text : List Char) : Lexeme := ⟨kind, text, none, text⟩

def isDigit (c : Char) : Bool := '0' ≤ c && c ≤ '9'

def isHexDigit (c : Char) : Bool := isDigit c || ('a' ≤ c && c ≤ 'f') || ('A' ≤ c && c ≤ 'F')

def isLetter (c : Char) : Bool := ('a' ≤ c && c ≤ 'z') || ('A' ≤ c && c ≤ 'Z') || c = '_'

def isWordChar (c : Char) : Bool := isLetter c || isDigit c

/-- The level of a long bracket `[`, `[=`, … that is completed by a second `[`. -/
def longBracketLevel? : List Char → Option Nat
  | '[' :: cs =>
    let level := (cs.takeWhile (· = '=')).length
    if (cs.drop level).head? = some '[' then some level else none
  | _ => none

/-- Divides the text before the first `mark`; a text without it goes to the left as a whole. -/
def splitBefore (mark : List Char) : List Char → List Char × List Char
  | [] => ([], [])
  | c :: cs =>
    if mark.isPrefixOf (c :: cs) then ([], c :: cs)
    else
      let (before, after) := splitBefore mark cs
      (c :: before, after)

/-- The comment whose dashes stand before `cs`. A long bracket may span lines and ends with its
counterpart, any other comment ends with its line. -/
def comment (cs : List Char) : Lexeme :=
  match longBracketLevel? cs with
  | some level =>
    let mark := ']' :: List.replicate level '=' ++ [']']
    let (text, rest) := splitBefore mark (cs.drop (level + 2))
    ⟨.comment, text, none, '-' :: '-' :: cs.take (level + 2) ++ text ++ rest.take mark.length⟩
  | none =>
    let text := cs.takeWhile (· ≠ '\n')
    ⟨.comment, text, none, '-' :: '-' :: text⟩

/-- The content of a string: up to the quote or the end of the line. A backslash keeps the
character after it, whatever it is. -/
def stringBody (quote : Char) : List Char → List Char
  | [] => []
  | '\\' :: c :: cs => '\\' :: c :: stringBody quote cs
  | c :: cs => if c = quote || c = '\n' then [] else c :: stringBody quote cs

/-- The string whose opening quote stands before `cs`. -/
def string (quote : Char) (cs : List Char) : Lexeme :=
  let text := stringBody quote cs
  let closing := if (cs.drop text.length).head? = some quote then [quote] else []
  ⟨.string, text, some quote, quote :: text ++ closing⟩

/-- A decimal point with its digits; two points are no decimal point. -/
def fraction : List Char → List Char
  | '.' :: cs => if cs.head? = some '.' then [] else '.' :: cs.takeWhile isDigit
  | _ => []

/-- An exponent, which needs at least one digit. -/
def exponent : List Char → List Char
  | e :: cs =>
    let sign := (cs.head?.filter fun c => c = '+' || c = '-').toList
    let digits := (cs.drop sign.length).takeWhile isDigit
    if (e = 'e' || e = 'E') && !digits.isEmpty then e :: sign ++ digits else []
  | [] => []

def decimal (cs : List Char) : List Char :=
  let whole := cs.takeWhile isDigit
  let part := fraction (cs.drop whole.length)
  whole ++ part ++ exponent (cs.drop (whole.length + part.length))

def number : List Char → List Char
  | '0' :: x :: cs =>
    if x = 'x' || x = 'X' then '0' :: x :: cs.takeWhile isHexDigit else decimal ('0' :: x :: cs)
  | cs => decimal cs

def word (cs : List Char) : Lexeme :=
  let text := cs.takeWhile isWordChar
  verbatim (if isKeyword (String.ofList text) then .keyword else .identifier) text

/-- Operators of several characters; of two that fit, the earlier one is meant. -/
def longOperators : List (List Char) :=
  [['.', '.', '.'], ['=', '='], ['~', '='], ['<', '='], ['>', '='], ['.', '.'], ['+', '='],
    ['-', '='], ['*', '='], ['/', '='], ['/', '/']]

def shortOperators : List Char := ['+', '-', '*', '/', '%', '^', '#', '<', '>', '=', '.']

def marks : List Char := ['(', ')', '{', '}', '[', ']', ',', ';', ':']

def symbol? (c : Char) (cs : List Char) : Option Lexeme :=
  match longOperators.find? (·.isPrefixOf (c :: cs)) with
  | some op => some (verbatim .operator op)
  | none =>
    if shortOperators.contains c then some (verbatim .operator [c])
    else if marks.contains c then some (verbatim .punctuation [c])
    else none

def startsDigit (cs : List Char) : Bool := cs.head?.any isDigit

/-- The lexeme that starts with `c`, if any does. -/
def first? (c : Char) (cs : List Char) : Option Lexeme :=
  if c = '-' && cs.head? = some '-' then some (comment cs.tail)
  else if c = '"' || c = '\'' then some (string c cs)
  else if isDigit c || (c = '.' && startsDigit cs) then some (verbatim .number (number (c :: cs)))
  else if isLetter c then some (word (c :: cs))
  else symbol? c cs

end Lexeme

/-- The pieces of `cs`, at most one for each character of `budget`. -/
def piecesWithin : List Char → List Char → List Piece
  | _ :: budget, c :: cs =>
    match Lexeme.first? c cs with
    | some l => .lexeme l :: piecesWithin budget ((c :: cs).drop l.source.length)
    | none => .gap c :: piecesWithin budget cs
  | _, _ => []

/-- A text in pieces. Each piece takes at least one character, so there are never more. -/
def pieces (cs : List Char) : List Piece := piecesWithin cs cs

/-- A place in a text. -/
structure Place where
  line : Nat
  column : Nat
  deriving DecidableEq, Repr

namespace Place

def step (p : Place) (c : Char) : Place :=
  if c = '\n' then ⟨p.line + 1, 1⟩ else ⟨p.line, p.column + 1⟩

def after (p : Place) (cs : List Char) : Place := cs.foldl step p

end Place

def Lexeme.token (l : Lexeme) (p : Place) : Token :=
  ⟨l.kind, String.ofList l.text, p.line, p.column, l.quote⟩

/-- The lexemes as tokens, from `p` on, and the end of input after them. -/
def placed (p : Place) : List Piece → List Token
  | [] => [.endOfInput p.line p.column]
  | .gap c :: ps => placed (p.step c) ps
  | .lexeme l :: ps => l.token p :: placed (p.after l.source) ps

/-- All tokens of a text, comments included. Lines count from `firstLine`, which is at least one. -/
def rawTokens (source : String) (firstLine : Nat := 1) : List Token :=
  placed ⟨max firstLine 1, 1⟩ (pieces source.toList)

/-- The tokens of a text without its comments. The last one is the end of input. -/
def tokenize (source : String) (firstLine : Nat := 1) : List Token :=
  (rawTokens source firstLine).filter (·.kind ≠ .comment)

end ScriptGraph
