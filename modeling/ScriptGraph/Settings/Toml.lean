import ScriptGraph.Settings.Json
import ScriptGraph.Toml.Reader

namespace ScriptGraph

/-- The settings in a configuration file. -/
def Settings.ofToml? (text : String) : Option Settings := do
  Settings.ofJson? false (← Toml.read? text)

end ScriptGraph
