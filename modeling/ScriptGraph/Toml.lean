import ScriptGraph.Json

namespace ScriptGraph.Toml

/-- How a table came about: by a header of its own, by the header of a table inside it, or by a
dotted key. -/
inductive Origin where
  | headed | implied | dotted
  deriving DecidableEq, Repr

/-- What a key stands for while a document is put together. Values are complete, inline tables
included; tables and lists of tables can still grow. -/
inductive Item where
  | value (v : Json)
  | table (origin : Origin) (entries : List (String × Item))
  | tables (elements : List (List (String × Item)))

abbrev Entries := List (String × Item)

/-- A value under a key, whose parts lead through tables. -/
structure Entry where
  path : List String
  value : Json

inductive Header where
  | table (path : List String)
  | element (path : List String)
  deriving DecidableEq, Repr

inductive Line where
  | blank
  | entry (e : Entry)
  | header (h : Header)

namespace Entries

def get? (es : Entries) (key : String) : Option Item := es.lookup key

/-- Replaces the item of a key that is there. -/
def replace (es : Entries) (key : String) (item : Item) : Entries :=
  es.map fun e => if e.1 == key then (key, item) else e

/-- Applies `f` to the last element, or to nothing if there is none. -/
def onLast (f : Entries → Option Entries) : List Entries → Option (List Entries)
  | [] => none
  | [es] => (f es).map ([·])
  | es :: rest => (onLast f rest).map (es :: ·)

/-- Adds a value. Each key is given once, and a dotted key extends only what dotted keys have
made. -/
def put (v : Json) : List String → Entries → Option Entries
  | [], _ => none
  | [key], es => if (es.get? key).isSome then none else some (es ++ [(key, .value v)])
  | key :: path, es =>
    match es.get? key with
    | none => (put v path []).map fun inner => es ++ [(key, .table .dotted inner)]
    | some (.table .dotted inner) => (put v path inner).map fun t => es.replace key (.table .dotted t)
    | some (.table .implied inner) =>
      if path.length ≤ 1 then none
      else (put v path inner).map fun t => es.replace key (.table .implied t)
    | some (.tables elements) =>
      if path.length ≤ 1 then none
      else (onLast (put v path) elements).map fun ts => es.replace key (.tables ts)
    | some (.table .headed _) | some (.value _) => none

def putAll (entries : List Entry) (es : Entries) : Option Entries :=
  entries.foldlM (fun es e => put e.value e.path es) es

/-- Changes the table under a path of headers, making the tables on the way that are missing. A list
of tables stands for its last element. -/
def within (f : Entries → Option Entries) : List String → Entries → Option Entries
  | [], es => f es
  | key :: path, es =>
    match es.get? key with
    | none => (within f path []).map fun inner => es ++ [(key, .table .implied inner)]
    | some (.table origin inner) =>
      (within f path inner).map fun t => es.replace key (.table origin t)
    | some (.tables elements) =>
      (onLast (within f path) elements).map fun ts => es.replace key (.tables ts)
    | some (.value _) => none

/-- Fills the table under a key. It must not have had a header or dotted keys before. -/
def define (body : List Entry) (key : String) (es : Entries) : Option Entries :=
  match es.get? key with
  | none => (putAll body []).map fun t => es ++ [(key, .table .headed t)]
  | some (.table .implied inner) => (putAll body inner).map fun t => es.replace key (.table .headed t)
  | some _ => none

/-- Appends a table to the list of tables under a key. -/
def append (body : List Entry) (key : String) (es : Entries) : Option Entries :=
  match es.get? key with
  | none => (putAll body []).map fun t => es ++ [(key, .tables [t])]
  | some (.tables elements) => (putAll body []).map fun t => es.replace key (.tables (elements ++ [t]))
  | some _ => none

def addSection (es : Entries) : Header × List Entry → Option Entries
  | (.table path, body) => path.getLast?.bind fun key => within (define body key) path.dropLast es
  | (.element path, body) => path.getLast?.bind fun key => within (append body key) path.dropLast es

end Entries

mutual

def Item.toJson : Item → Json
  | .value v => v
  | .table _ entries => .object (entriesToJson entries)
  | .tables elements => .array (elementsToJson elements)

def entriesToJson : List (String × Item) → List (String × Json)
  | [] => []
  | (key, item) :: es => (key, item.toJson) :: entriesToJson es

def elementsToJson : List (List (String × Item)) → List Json
  | [] => []
  | es :: rest => .object (entriesToJson es) :: elementsToJson rest

end

/-- The entries of an inline table put together. -/
def inlineTable? (entries : List Entry) : Option Json :=
  (Entries.putAll entries []).map fun es => .object (entriesToJson es)

/-- The entries before the first header, and each header with the entries up to the next. -/
def sections : List Line → List Entry × List (Header × List Entry)
  | [] => ([], [])
  | .blank :: lines => sections lines
  | .entry e :: lines =>
    let (first, rest) := sections lines
    (e :: first, rest)
  | .header h :: lines =>
    let (first, rest) := sections lines
    ([], (h, first) :: rest)

/-- The document that the lines make up, as a value; none if a key or table is given twice. -/
def assemble? (lines : List Line) : Option Json := do
  let (first, rest) := sections lines
  let top ← Entries.putAll first []
  return .object (entriesToJson (← rest.foldlM Entries.addSection top))

end ScriptGraph.Toml
