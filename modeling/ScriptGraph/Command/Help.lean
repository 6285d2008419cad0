import ScriptGraph.Command
import ScriptGraph.Text

namespace ScriptGraph

def versionText : String := "luavisual 0.1.0"

namespace Verb

def about : Verb → String
  | toGraph => "Convert a script to graph JSON"
  | toText => "Generate a script from graph JSON"
  | roundtrip => "Convert a script to a graph and back"
  | check => "Check a script for syntax errors and unbalanced blocks"

def aboutInput : Verb → String
  | toText => "Graph document (`\x7bheader?, nodes, edges\x7d`), `-` for stdin"
  | _ => "Script to read, `-` for stdin"

end Verb

namespace Switch

def about : Switch → String
  | config => "Config file (defaults to .luavisual/config.toml in the working directory)"
  | verbose => "Enable debug logging"
  | output => "Write to a file instead of stdout"
  | compact => "Single-line JSON"
  | header => "Header file, overriding the document's header"
  | help => "Print help"
  | version => "Print version"

/-- The spellings of a switch and what it takes. -/
def usage (s : Switch) : String :=
  let short := match s.short? with
    | some c => "-" ++ String.singleton c ++ ", "
    | none => "    "
  let value := if s.takesValue then " <" ++ s.long.map Char.toUpper ++ ">" else ""
  short ++ "--" ++ s.long ++ value

end Switch

namespace Topic

/-- Terms with what they mean, in two columns. -/
def columns (rows : List (String × String)) : List String :=
  let width := rows.foldl (fun n r => max n r.1.length) 0
  rows.map fun (term, meaning) =>
    "  " ++ term ++ Text.repeated " " (width - term.length) ++ "  " ++ meaning

def aboutHelp : String := "Print this message or the help of the given subcommand(s)"

def options (switches : List Switch) : List String :=
  "Options:" :: columns (switches.map fun s => (s.usage, s.about))

def lines : Topic → List String
  | program =>
    ["Bidirectional translator between FiveM Lua scripts and visual node graphs", "",
      "Usage: luavisual [OPTIONS] <COMMAND>", "", "Commands:"] ++
    columns (Verb.all.map (fun v => (v.name, v.about)) ++ [("help", aboutHelp)]) ++
    [""] ++ options Switch.general
  | verb v =>
    [v.about, "", "Usage: luavisual " ++ v.name ++ " [OPTIONS] <INPUT>", "", "Arguments:"] ++
    columns [("<INPUT>", v.aboutInput)] ++ [""] ++ options (Switch.ofVerb v)
  | help =>
    [aboutHelp, "", "Usage: luavisual help [COMMAND]...", "", "Arguments:"] ++
    columns [("[COMMAND]...", "Print help for the subcommand(s)")]

def text (t : Topic) : String := "\n".intercalate t.lines

end Topic

end ScriptGraph
