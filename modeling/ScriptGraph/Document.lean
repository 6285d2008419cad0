import ScriptGraph.Graph.OfProgram
import ScriptGraph.Graph.Render
import ScriptGraph.Header
import ScriptGraph.Program.Recovery

namespace ScriptGraph

/-- A script in the editor: its header and the graph of its body. -/
structure Document where
  header : String := ""
  graph : Graph := {}

/-- What comes of reading a script. After an error the graph is empty; warnings tell which statements
were dropped. -/
structure Reading where
  document : Document
  error : Option ParseError := none
  warnings : List ParseError := []

namespace Reading

/-- Splits off the header, parses the body and makes a graph of it, with ids that end in `mark`. -/
def ofText (settings : Settings) (source : String) (mark : String := "") : Reading :=
  let parts := SourceParts.ofText source
  let header := Text.trim parts.header
  let tokens := tokenize parts.body parts.bodyLine
  let parsed :=
    if settings.parser.recover then Program.parseRecovering tokens settings.parser.maxRecoverySteps
    else (Program.parse tokens).map (⟨·, []⟩)
  match parsed with
  | .ok r =>
    let graph := Graph.ofProgram (.ofSpacing settings.layout) r.program mark
    { document := { header, graph }, warnings := r.errors }
  | .error e => { document := { header }, error := some e }

end Reading

/-- The script of a document. -/
def Document.render (settings : Settings) (d : Document) : Rendered :=
  .ofGraph settings.generator d.graph d.header

/-- The graph of a text that is parsed as a whole. -/
def Graph.ofText (text : String) (mark : String := "") : Except ParseError Graph :=
  (Program.parse (tokenize text)).map (.ofProgram (.ofSpacing {}) · mark)

/-- What is wrong with a text: the first parse error and the blocks that do not balance. -/
def problems (text : String) : List String :=
  let parsing := match Program.parse (tokenize text) with
    | .ok _ => []
    | .error e => [e.message]
  parsing ++ (Balance.ofText text).describe?.toList

end ScriptGraph
