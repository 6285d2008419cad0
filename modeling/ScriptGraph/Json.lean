namespace ScriptGraph

/-- A JSON value. Whole numbers and doubles are kept apart, and an object keeps its entries in
order. -/
inductive Json where
  | null
  | bool (b : Bool)
  | integer (n : Int)
  | double (x : Float)
  | string (s : String)
  | array (items : List Json)
  | object (entries : List (String × Json))
  deriving Inhabited

/-- The entries of an object with distinct keys. -/
abbrev Fields := List (String × Json)

namespace Fields

def get? (fields : Fields) (key : String) : Option Json :=
  (fields.find? fun e => e.1 == key).map (·.2)

/-- Sets a field. A key that is there already keeps its place. -/
def insert : Fields → String → Json → Fields
  | [], key, value => [(key, value)]
  | (k, v) :: rest, key, value =>
    if k = key then (k, value) :: rest else (k, v) :: insert rest key value

def insertAll (fields more : Fields) : Fields :=
  more.foldl (fun fs e => insert fs e.1 e.2) fields

end Fields

namespace Json

mutual

/-- The value with repeated keys merged: the first place, the last value. -/
def merged : Json → Json
  | array items => .array (mergedItems items)
  | object entries => .object (Fields.insertAll [] (mergedEntries entries))
  | v => v

def mergedItems : List Json → List Json
  | [] => []
  | v :: vs => merged v :: mergedItems vs

def mergedEntries : List (String × Json) → List (String × Json)
  | [] => []
  | (k, v) :: es => (k, merged v) :: mergedEntries es

end

mutual

/-- Equality of values with distinct keys. Objects are equal whatever the order of their entries, a
whole number never equals a double, and doubles are compared as numbers. -/
def same : Json → Json → Bool
  | null, null => true
  | bool a, bool b => a == b
  | integer a, integer b => a == b
  | double a, double b => a == b
  | string a, string b => a == b
  | array as, array bs => sameItems as bs
  | object as, object bs => as.length == bs.length && sameEntries as bs
  | _, _ => false

def sameItems : List Json → List Json → Bool
  | [], [] => true
  | a :: as, b :: bs => same a b && sameItems as bs
  | _, _ => false

/-- Does every entry of the first list occur in the second? -/
def sameEntries : List (String × Json) → List (String × Json) → Bool
  | [], _ => true
  | (k, v) :: es, others =>
    (match Fields.get? others k with
      | some w => same v w
      | none => false) && sameEntries es others

end

def get? : Json → String → Option Json
  | object entries, key => Fields.get? entries key
  | _, _ => none

end Json

def Fields.same (a b : Fields) : Bool := Json.same (.object a) (.object b)

end ScriptGraph
