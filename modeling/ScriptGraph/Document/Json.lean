import ScriptGraph.Document
import ScriptGraph.Json.Reader
import ScriptGraph.Json.Record

namespace ScriptGraph

def Point.ofJson? (v : Json) : Option Point := do
  match ← Json.Shape.fields? { fields := [["x"], ["y"]] } v with
  | [x, y] => return ⟨← Json.required Json.float? x, ← Json.required Json.float? y⟩
  | _ => none

/-- The data of a node. -/
def Fields.ofJson? (v : Json) : Option Fields :=
  match v.merged with
  | .object entries => some entries
  | _ => none

def Node.ofJson? (v : Json) : Option Node := do
  match ← Json.Shape.fields? { fields := [["id"], ["type"], ["data"], ["position"]] } v with
  | [id, kind, data, position] =>
    return {
      id := ← Json.required Json.string? id
      kind := ← Json.required Json.string? kind
      data := ← Json.optional [] Fields.ofJson? data
      position := ← Json.optional ⟨0, 0⟩ Point.ofJson? position }
  | _ => none

/-- A handle may be left open by null. -/
def Handle.ofJson? : Json → Option Handle
  | .null => some .flowOut
  | .string s => some (.ofText s)
  | _ => none

def Edge.shape : Json.Shape where
  fields := [["id"], ["source", "sourceId"], ["target", "targetId"], ["sourceHandle"],
    ["targetHandle"]]

def Edge.ofJson? (v : Json) : Option Edge := do
  match ← Edge.shape.fields? v with
  | [id, source, target, handle, targetHandle] =>
    return {
      id := ← Json.required Json.string? id
      source := ← Json.required Json.string? source
      target := ← Json.required Json.string? target
      handle := ← Json.optional .flowOut Handle.ofJson? handle
      targetHandle := ← Json.optional defaultTargetHandle Json.string? targetHandle }
  | _ => none

def Json.list? {α : Type} (read : Json → Option α) (v : Json) : Option (List α) := do
  (← v.array?).mapM read

/-- A document, which is always an object. -/
def Document.ofJson? (v : Json) : Option Document :=
  match v with
  | .object _ => do
    match ← Json.Shape.fields? { fields := [["header"], ["nodes"], ["edges"]] } v with
    | [header, nodes, edges] =>
      return {
        header := ← Json.optional "" Json.string? header
        graph := {
          nodes := ← Json.optional [] (Json.list? Node.ofJson?) nodes
          edges := ← Json.optional [] (Json.list? Edge.ofJson?) edges } }
    | _ => none
  | _ => none

/-- A document from its JSON text. -/
def Document.ofText? (text : String) : Option Document := (Json.read? text).bind Document.ofJson?

/-- A graph on its own. -/
def Graph.ofJson? (v : Json) : Option Graph := do
  match ← Json.Shape.fields? { fields := [["nodes"], ["edges"]] } v with
  | [nodes, edges] =>
    return {
      nodes := ← Json.optional [] (Json.list? Node.ofJson?) nodes
      edges := ← Json.optional [] (Json.list? Edge.ofJson?) edges }
  | _ => none

def Point.toJson (p : Point) : Json := .object [("x", .double p.x), ("y", .double p.y)]

def Node.toJson (n : Node) : Json :=
  .object [("id", .string n.id), ("type", .string n.kind), ("data", .object n.data),
    ("position", n.position.toJson)]

def Edge.toJson (e : Edge) : Json :=
  .object [("id", .string e.id), ("source", .string e.source), ("target", .string e.target),
    ("sourceHandle", .string e.handle.text), ("targetHandle", .string e.targetHandle)]

def Document.entries (d : Document) : List (String × Json) :=
  [("header", .string d.header), ("nodes", .array (d.graph.nodes.map Node.toJson)),
    ("edges", .array (d.graph.edges.map Edge.toJson))]

/-- The document that was read, with the error and the warnings if there are any. -/
def Reading.toJson (r : Reading) : Json :=
  .object (r.document.entries ++
    (r.error.map fun e => ("error", .string e.message)).toList ++
    if r.warnings.isEmpty then []
    else [("warnings", .array (r.warnings.map fun e => .string e.message))])

end ScriptGraph
