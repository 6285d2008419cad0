namespace ScriptGraph

/-- What the program can be asked to do. -/
inductive Verb where
  | toGraph | toText | roundtrip | check
  deriving DecidableEq, Repr

namespace Verb

def all : List Verb := [toGraph, toText, roundtrip, check]

def name : Verb → String
  | toGraph => "to-graph" | toText => "to-text" | roundtrip => "roundtrip" | check => "check"

def ofName? (name : String) : Option Verb := all.find? (·.name == name)

end Verb

/-- The switches of the command line. -/
inductive Switch where
  | config | verbose | output | compact | header | help | version
  deriving DecidableEq, Repr

namespace Switch

def long : Switch → String
  | config => "config" | verbose => "verbose" | output => "output" | compact => "compact"
  | header => "header" | help => "help" | version => "version"

def short? : Switch → Option Char
  | verbose => some 'v' | output => some 'o' | help => some 'h' | version => some 'V' | _ => none

def takesValue : Switch → Bool
  | config | output | header => true
  | _ => false

/-- The switches before the verb. -/
def general : List Switch := [config, verbose, help, version]

/-- The switches that only one verb or another has. -/
def special : Verb → List Switch
  | .toGraph => [output, compact]
  | .toText => [output, header]
  | .roundtrip => [output]
  | .check => []

/-- The switches behind a verb, in the order in which they are explained: its own come first. -/
def ofVerb (v : Verb) : List Switch := special v ++ [config, verbose, help]

end Switch

/-- A task with all that it needs to know. -/
inductive Task where
  | toGraph (input : String) (output : Option String) (compact : Bool)
  | toText (input : String) (output : Option String) (header : Option String)
  | roundtrip (input : String) (output : Option String)
  | check (input : String)
  deriving DecidableEq, Repr

/-- A page of help: on the program, on a verb, or on help itself. -/
inductive Topic where
  | program | help
  | verb (v : Verb)
  deriving DecidableEq, Repr

/-- What a command line asks for. -/
inductive Request where
  | run (task : Task) (config : Option String)
  | explain (topic : Topic)
  | version
  deriving DecidableEq, Repr

end ScriptGraph
