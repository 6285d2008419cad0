namespace ScriptGraph.Text

/-- First and last code points of the runs of characters that count as blank (the Unicode
property White_Space). -/
def blankRanges : List (Nat × Nat) :=
  [(0x09, 0x0D), (0x20, 0x20), (0x85, 0x85), (0xA0, 0xA0), (0x1680, 0x1680), (0x2000, 0x200A),
    (0x2028, 0x2029), (0x202F, 0x202F), (0x205F, 0x205F), (0x3000, 0x3000)]

def isBlank (c : Char) : Bool :=
  blankRanges.any fun (first, last) => first ≤ c.toNat && c.toNat ≤ last

def trimEndChars (cs : List Char) : List Char := (cs.reverse.dropWhile isBlank).reverse

/-- The text without the blanks at its end. -/
def trimEnd (s : String) : String := String.ofList (trimEndChars s.toList)

/-- The text without the blanks at either end. -/
def trim (s : String) : String := String.ofList (trimEndChars (s.toList.dropWhile isBlank))

def isBlankText (s : String) : Bool := s.toList.all isBlank

/-- The lines of a text. A newline ends a line and takes one carriage return before it along; a
newline at the very end starts no further line. -/
def splitLines : List Char → List (List Char)
  | [] => []
  | '\r' :: '\n' :: cs => [] :: splitLines cs
  | '\n' :: cs => [] :: splitLines cs
  | c :: cs =>
    match splitLines cs with
    | [] => [[c]]
    | l :: ls => (c :: l) :: ls

def lines (s : String) : List String := (splitLines s.toList).map String.ofList

/-- `unit` written `n` times. -/
def repeated (unit : String) : Nat → String
  | 0 => ""
  | n + 1 => unit ++ repeated unit n

/-- Divides the characters behind the `n`-th newline. -/
def splitAfterLines : Nat → List Char → List Char × List Char
  | 0, cs => ([], cs)
  | _ + 1, [] => ([], [])
  | n + 1, c :: cs =>
    let (before, after) := splitAfterLines (if c = '\n' then n else n + 1) cs
    (c :: before, after)

theorem splitAfterLines_append (n : Nat) (cs : List Char) :
    (splitAfterLines n cs).1 ++ (splitAfterLines n cs).2 = cs := by
  induction cs generalizing n with
  | nil => cases n <;> rfl
  | cons c cs ih => cases n <;> simp [splitAfterLines, ih]

end ScriptGraph.Text
