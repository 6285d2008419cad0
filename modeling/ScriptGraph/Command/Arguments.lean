import ScriptGraph.Command

namespace ScriptGraph

namespace Arguments

/-- What has been given so far, before or behind the verb. A value in an argument of its own is
pending until the next switch or the end. -/
structure Given where
  flags : List Switch := []
  values : List (Switch × String) := []
  pending : Option (Switch × String) := none
  input : Option String := none
  deriving DecidableEq, Repr

/-- Why reading stops before the end: something is wrong, or something is to be shown. -/
inductive Stop where
  | misuse | help | version
  deriving DecidableEq, Repr

namespace Given

/-- Adds a value, which is not empty. A switch may be given once. -/
def accept (g : Given) (s : Switch) (value : String) : Except Stop Given :=
  if value.isEmpty || (g.values.lookup s).isSome then throw .misuse
  else return { g with values := (s, value) :: g.values }

/-- Adds the value that is pending. -/
def settle (g : Given) : Except Stop Given :=
  match g.pending with
  | none => return g
  | some (s, value) => { g with pending := none }.accept s value

/-- Adds a flag. A flag may be given once. -/
def addFlag (g : Given) (s : Switch) : Except Stop Given := do
  let g ← g.settle
  match s with
  | .help => throw .help
  | .version => throw .version
  | s => if g.flags.contains s then throw .misuse else return { g with flags := s :: g.flags }

/-- Adds a value that is attached to its switch. -/
def addValue (g : Given) (s : Switch) (value : String) : Except Stop Given := do
  (← g.settle).accept s value

/-- Keeps a value in an argument of its own until it is looked at. -/
def postpone (g : Given) (s : Switch) (value : String) : Except Stop Given := do
  return { ← g.settle with pending := some (s, value) }

def addInput (g : Given) (value : String) : Except Stop Given := do
  let g ← g.settle
  if value.isEmpty || g.input.isSome then throw .misuse else return { g with input := some value }

/-- The value that was given for a switch. -/
def value? (g : Given) (s : Switch) : Option String := g.values.lookup s

end Given

/-- An argument that names switches. A hyphen alone does not. -/
def isSwitch (arg : String) : Bool :=
  match arg.toList with
  | '-' :: _ :: _ => true
  | _ => false

/-- Takes the value of a switch from the next argument; tells that it has been used. -/
def addNext (g : Given) (s : Switch) : Option String → Except Stop (Given × Bool)
  | some value => if isSwitch value then throw .misuse else return (← g.postpone s value, true)
  | none => throw .misuse

/-- A switch by its name, with its value if there is one behind an equals sign. -/
def long (known : List Switch) (g : Given) (name : String) (value : Option String)
    (next : Option String) : Except Stop (Given × Bool) :=
  match known.find? (·.long == name), value with
  | none, _ => throw .misuse
  | some s, some value =>
    if s.takesValue then return (← g.addValue s value, false) else throw .misuse
  | some s, none => if s.takesValue then addNext g s next else return (← g.addFlag s, false)

/-- Switches by their letters. The first that takes a value takes the rest, without the equals sign
that may stand before it. -/
def short (known : List Switch) (next : Option String) : Given → List Char → Except Stop (Given × Bool)
  | g, [] => return (g, false)
  | g, c :: cs =>
    match known.find? (·.short? == some c) with
    | none => throw .misuse
    | some s =>
      if s.takesValue then
        match cs with
        | [] => addNext g s next
        | '=' :: cs => return (← g.addValue s (String.ofList cs), false)
        | cs => return (← g.addValue s (String.ofList cs), false)
      else do short known next (← g.addFlag s) cs

/-- One argument that names switches; tells whether the next argument has been used. -/
def switches (known : List Switch) (g : Given) (arg : String) (next : Option String) :
    Except Stop (Given × Bool) :=
  match arg.toList with
  | '-' :: '-' :: cs =>
    let name := cs.takeWhile (· ≠ '=')
    let value := (cs.drop name.length).tail?.map String.ofList
    long known g (String.ofList name) value next
  | '-' :: c :: cs => short known next g (c :: cs)
  | _ => throw .misuse

/-- The arguments behind a verb. -/
def behindVerb (known : List Switch) : Given → List String → Except Stop Given
  | g, [] => g.settle
  | g, "--" :: args => do args.foldlM Given.addInput (← g.settle)
  | g, [arg] => do
    if isSwitch arg then (← switches known g arg none).1.settle else g.addInput arg
  | g, arg :: next :: args => do
    if isSwitch arg then
      match ← switches known g arg (some next) with
      | (g, true) => behindVerb known g args
      | (g, false) => behindVerb known g (next :: args)
    else behindVerb known (← g.addInput arg) (next :: args)

/-- The page that help is asked for. -/
def topic : List String → Except Stop Topic
  | [] => return .program
  | ["help"] => return .help
  | [name] =>
    match Verb.ofName? name with
    | some v => return .verb v
    | none => throw .misuse
  | _ => throw .misuse

/-- The task of a verb with what has been given behind it. -/
def task (v : Verb) (g : Given) : Except Stop Task :=
  match g.input, v with
  | none, _ => throw .misuse
  | some input, .toGraph => return .toGraph input (g.value? .output) (g.flags.contains .compact)
  | some input, .toText => return .toText input (g.value? .output) (g.value? .header)
  | some input, .roundtrip => return .roundtrip input (g.value? .output)
  | some input, .check => return .check input

/-- A verb with the arguments behind it, which are looked at before a value that is pending from
earlier ones. Settings given behind the verb win. -/
def verb (v : Verb) (before : Given) (args : List String) : Except Stop Request :=
  match behindVerb (Switch.ofVerb v) {} args with
  | .error .help => return .explain (.verb v)
  | .error stop => throw stop
  | .ok g => do
    let task ← task v g
    return .run task ((g.value? .config).or ((← before.settle).value? .config))

/-- A verb, or the word for help; none if the argument is neither. -/
def command? (before : Given) (arg : String) (args : List String) : Option (Except Stop Request) :=
  if arg == "help" then some ((topic args).map .explain)
  else (Verb.ofName? arg).map fun v => verb v before args

/-- All arguments, from the first. -/
def all : Given → List String → Except Stop Request
  | _, [] => throw .misuse
  | g, [arg] =>
    match command? g arg [] with
    | some r => r
    | none => do
      let _ ← switches Switch.general g arg none
      throw .misuse
  | g, arg :: next :: args =>
    match command? g arg (next :: args) with
    | some r => r
    | none =>
      match switches Switch.general g arg (some next) with
      | .error stop => throw stop
      | .ok (g, true) => all g args
      | .ok (g, false) => all g (next :: args)

end Arguments

/-- What a command line asks for; none if it cannot be understood. -/
def Request.ofArguments? (args : List String) : Option Request :=
  match Arguments.all {} args with
  | .ok r => some r
  | .error .help => some (.explain .program)
  | .error .version => some .version
  | .error .misuse => none

end ScriptGraph
