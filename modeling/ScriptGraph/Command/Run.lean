import ScriptGraph.Command.Arguments
import ScriptGraph.Command.Help
import ScriptGraph.Directory
import ScriptGraph.Document.Json
import ScriptGraph.Settings.Toml

namespace ScriptGraph

/-- The files and the input that a task works with. -/
structure Host (m : Type → Type) where
  read : String → m (Except FileError String)
  write : String → String → m (Except FileError Unit)
  /-- All that is left of the standard input. -/
  input : m String
  /-- What the ids of the next conversion end in. -/
  mark : m String

/-- Why a task cannot be done. -/
inductive Failure where
  | unreadable (path : String) (cause : FileError)
  | unwritable (path : String) (cause : FileError)
  | unreadableConfig (path : String) (cause : FileError)
  | invalidConfig (path : String)
  | invalidDocument (path : String)
  | invalidScript (path : String) (cause : ParseError)

namespace Failure

def message : Failure → String
  | unreadable path cause => s!"failed to read {path}: {cause.message}"
  | unwritable path cause => s!"failed to write {path}: {cause.message}"
  | unreadableConfig path cause => s!"failed to read {path}: {cause.message}: {cause.message}"
  | invalidConfig path => s!"invalid config {path}"
  | invalidDocument path => s!"invalid graph document {path}"
  | invalidScript path cause => s!"{path}: {cause.message}"

end Failure

/-- How a run of the program ends: its exit code, what it prints and what it complains about. -/
structure Report where
  code : Nat := 0
  output : String := ""
  complaint : Option String := none
  deriving DecidableEq, Repr

/-- Where settings are looked for unless a place is given. -/
def defaultConfig : String := ".luavisual/config.toml"

/-- A hyphen stands for the standard input. -/
def isStandardInput (path : String) : Bool :=
  match path.splitOn "/" with
  | "-" :: rest => rest.all fun part => part == "" || part == "."
  | _ => false

section
variable {m : Type → Type} [Monad m]

namespace Host

def readInput (h : Host m) (path : String) : ExceptT Failure m String := do
  if isStandardInput path then h.input
  else
    match ← h.read path with
    | .ok text => return text
    | .error cause => throw (.unreadable path cause)

/-- Writes a text with a newline behind it to a file, or returns it to be printed. -/
def writeOutput (h : Host m) (path : Option String) (text : String) : ExceptT Failure m String := do
  match path with
  | none => return text ++ "\n"
  | some path =>
    match ← h.write path (text ++ "\n") with
    | .ok () => return ""
    | .error cause => throw (.unwritable path cause)

def settingsOf (path text : String) : Except Failure Settings :=
  match Settings.ofToml? text with
  | some settings => .ok settings
  | none => .error (.invalidConfig path)

/-- The settings in a file that was named, or in the default place if there is a file. -/
def settings (h : Host m) (path : Option String) : ExceptT Failure m Settings := do
  let place := path.getD defaultConfig
  match ← h.read place, path with
  | .ok text, _ => settingsOf place text
  | .error (.other reason), none => throw (.unreadableConfig place (.other reason))
  | .error _, none => return {}
  | .error cause, some path => throw (.unreadableConfig path cause)

end Host

namespace Task

def run (h : Host m) (settings : Settings) : Task → ExceptT Failure m Report
  | .toGraph input output compact => do
    let reading := Reading.ofText settings (← h.readInput input) (← h.mark)
    let json := reading.toJson
    let printed ← h.writeOutput output (if compact then json.compact else json.pretty 0)
    match reading.error with
    | none => return { output := printed }
    | some e => return { code := 1, output := printed, complaint := some e.message }
  | .toText input output header => do
    match Document.ofText? (← h.readInput input) with
    | none => throw (.invalidDocument input)
    | some document =>
      let header ← match header with
        | some path => h.readInput path
        | none => pure document.header
      let rendered := { document with header }.render settings
      return { output := ← h.writeOutput output rendered.text }
  | .roundtrip input output => do
    let reading := Reading.ofText settings (← h.readInput input) (← h.mark)
    match reading.error with
    | some e => throw (.invalidScript input e)
    | none => return { output := ← h.writeOutput output (reading.document.render settings).text }
  | .check input => do
    match problems (← h.readInput input) with
    | [] => return { output := s!"{input}: ok\n" }
    | ps => return { code := 1, output := String.join (ps.map fun p => s!"{input}: {p}\n") }

end Task

/-- Does what the arguments ask for. -/
def runArguments (h : Host m) (args : List String) : m Report := do
  match Request.ofArguments? args with
  | none => return { code := 2, complaint := some "invalid arguments, try 'luavisual --help'" }
  | some .version => return { output := versionText ++ "\n" }
  | some (.explain topic) => return { output := topic.text ++ "\n" }
  | some (.run task config) =>
    match ← (do task.run h (← h.settings config) : ExceptT Failure m Report).run with
    | .ok report => return report
    | .error failure => return { code := 1, complaint := some failure.message }

end

/-- A directory in memory with the rest of an input, and the marks of the conversions to come. -/
structure Workspace where
  directory : Directory := {}
  input : String := ""
  marks : List String := []

/-- A host that works on a directory in memory. -/
def Host.inMemory : Host (StateM Workspace) where
  read path := do return (← get).directory.read path
  write path text := do
    match (← get).directory.write path text with
    | .ok directory => modify ({ · with directory }); return .ok ()
    | .error e => return .error e
  input := modifyGet fun w => (w.input, { w with input := "" })
  mark := modifyGet fun w => (w.marks.headD "", { w with marks := w.marks.tail })

end ScriptGraph
