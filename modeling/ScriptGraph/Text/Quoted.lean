namespace ScriptGraph.Text

/-- The content of a single-quoted literal for `cs`. Escapes that are there already are kept, a
backslash without anything to escape is doubled. -/
def quotedBody : List Char → List Char
  | [] => []
  | ['\\'] => ['\\', '\\']
  | '\\' :: c :: cs => '\\' :: c :: quotedBody cs
  | '\'' :: cs => '\\' :: '\'' :: quotedBody cs
  | '\n' :: cs => '\\' :: 'n' :: quotedBody cs
  | c :: cs => c :: quotedBody cs

/-- `s` as a single-quoted string literal. -/
def quoted (s : String) : String := "'" ++ String.ofList (quotedBody s.toList) ++ "'"

end ScriptGraph.Text
