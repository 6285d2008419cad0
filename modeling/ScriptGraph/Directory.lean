import ScriptGraph.Order

namespace ScriptGraph

/-- Why a file cannot be read or written. -/
inductive FileError where
  | missing | notDirectory | isDirectory | nameTooLong
  | other (reason : String)
  deriving DecidableEq, Repr

def FileError.message : FileError → String
  | missing => "No such file or directory (os error 2)"
  | notDirectory => "Not a directory (os error 20)"
  | isDirectory => "Is a directory (os error 21)"
  | nameTooLong => "File name too long (os error 36)"
  | other reason => reason

/-- A directory with its files, each under the names that lead to it. Folders are there as far as
files are in them. -/
structure Directory where
  files : List (List String × String) := []
  deriving DecidableEq, Repr

namespace Directory

/-- What a list of names leads to. -/
inductive Place where
  | missing | folder
  | file (text : String)
  deriving DecidableEq, Repr

/-- A spot that a path has led to so far: inside of the directory, in the folder that holds it, or
elsewhere. Of what lies outside, no file is known. -/
inductive Spot where
  | elsewhere | above
  | inside (names : List String)
  deriving DecidableEq, Repr

/-- A name may have this many bytes. -/
def maxName : Nat := 255

/-- A path may have this many bytes. -/
def maxPath : Nat := 4095

def place (d : Directory) (names : List String) : Place :=
  match d.files.lookup names with
  | some text => .file text
  | none => if names.isEmpty || d.files.any (names.isPrefixOf ·.1) then .folder else .missing

/-- A spot that a path can go on from. -/
def enter (d : Directory) : Spot → Except FileError Spot
  | .inside names =>
    match d.place names with
    | .folder => .ok (.inside names)
    | .file _ => .error .notDirectory
    | .missing => .error .missing
  | spot => .ok spot

/-- A name of a length that files can have. -/
def checkName (name : String) : Except FileError Unit :=
  if maxName < name.utf8ByteSize then .error .nameTooLong else .ok ()

/-- Goes on by one part of a path. -/
def step (d : Directory) (spot : Spot) (part : String) : Except FileError Spot := do
  match ← d.enter spot, part with
  | spot, "" | spot, "." => return spot
  | .inside [], ".." => return .above
  | .inside names, ".." => return .inside names.dropLast
  | _, ".." => return .elsewhere
  | .inside names, name => do
    checkName name
    return .inside (names ++ [name])
  | _, name => do
    checkName name
    throw .missing

def walk (d : Directory) (spot : Spot) (parts : List String) : Except FileError Spot :=
  parts.foldlM d.step spot

/-- Where a path starts, and its parts. -/
def parts (path : String) : Except FileError (Spot × List String) :=
  if maxPath < path.utf8ByteSize then .error .nameTooLong
  else
    match path.splitOn "/" with
    | "" :: rest => .ok (.elsewhere, rest)
    | all => .ok (.inside [], all)

def read (d : Directory) (path : String) : Except FileError String := do
  let (start, parts) ← parts path
  match ← d.walk start parts with
  | .inside names =>
    match d.place names with
    | .file text => return text
    | .folder => throw .isDirectory
    | .missing => throw .missing
  | _ => throw .isDirectory

/-- Replaces a file, or adds it. -/
def put (d : Directory) (names : List String) (text : String) : Directory :=
  if d.files.any (·.1 == names) then
    ⟨d.files.map fun f => if f.1 == names then (names, text) else f⟩
  else ⟨d.files ++ [(names, text)]⟩

/-- Writes a file. The folder that it goes to has to be there. A file next to the directory is written
without a trace in it. -/
def write (d : Directory) (path text : String) : Except FileError Directory := do
  let (start, parts) ← parts path
  let solid := (parts.reverse.dropWhile (· == "")).reverse
  let folder ← d.enter (← d.walk start solid.dropLast)
  match solid.getLast? with
  | none | some "." | some ".." => throw .isDirectory
  | some name =>
    if solid.length < parts.length then throw .isDirectory
    checkName name
    match folder with
    | .elsewhere => throw .missing
    | .above => return d
    | .inside names =>
      match d.place (names ++ [name]) with
      | .folder => throw .isDirectory
      | _ => return d.put (names ++ [name]) text

/-- A directory from files under their paths. -/
def ofFiles (files : List (String × String)) : Directory :=
  files.foldl (fun d (path, text) =>
    d.put ((path.splitOn "/").filter fun part => part != "" && part != ".") text) {}

/-- The files that lie directly in the directory and that are new or different from `before`, by
name. -/
def changes (before after : Directory) : List (String × String) :=
  Order.sort (fun a b => !(b.1 < a.1)) <| after.files.filterMap fun f =>
    match f with
    | ([name], text) => if before.files.lookup [name] == some text then none else some (name, text)
    | _ => none

end Directory

end ScriptGraph
