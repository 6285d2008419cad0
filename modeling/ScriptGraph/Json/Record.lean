import ScriptGraph.Json

namespace ScriptGraph.Json

/-- The fields of a record by their spellings, of which an object may use any one. A record can also
be given as an array of its fields in order; fields that are left out are missing. In a strict
record no item may be left over. -/
structure Shape where
  fields : List (List String)
  strict : Bool := true
  deriving DecidableEq, Repr

namespace Shape

/-- The field among the entries of an object; none if it is given more than once. -/
def given? (entries : List (String × Json)) (spellings : List String) : Option (Option Json) :=
  match entries.filter fun e => spellings.contains e.1 with
  | [] => some none
  | [e] => some (some e.2)
  | _ => none

/-- The fields of a value that has the shape of the record, in order, each missing or given. -/
def fields? (s : Shape) : Json → Option (List (Option Json))
  | object entries => s.fields.mapM (given? entries)
  | array items =>
    if s.strict && s.fields.length < items.length then none
    else some ((List.range s.fields.length).map fun i => items[i]?)
  | _ => none

end Shape

def string? : Json → Option String
  | string s => some s
  | _ => none

def bool? : Json → Option Bool
  | bool b => some b
  | _ => none

def nat? : Json → Option Nat
  | integer n => if n < 0 then none else some n.toNat
  | _ => none

/-- Any number as a double. -/
def float? : Json → Option Float
  | integer n =>
    let x := n.natAbs.toUInt64.toFloat
    some (if n < 0 then -x else x)
  | double x => some x
  | _ => none

def array? : Json → Option (List Json)
  | array items => some items
  | _ => none

/-- A field that has to be given. -/
def required {α : Type} (read : Json → Option α) (field : Option Json) : Option α :=
  field.bind read

/-- A field that may be left out. -/
def optional {α : Type} (fallback : α) (read : Json → Option α) : Option Json → Option α
  | none => some fallback
  | some v => read v

end ScriptGraph.Json
