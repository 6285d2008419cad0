import ScriptGraph.Command.Run

open ScriptGraph

/-- The reason that a system code stands for. Codes come with either sign. -/
def reason (code : UInt32) (details : String) : FileError :=
  if code = 20 || code = -20 then .notDirectory
  else if code = 21 || code = -21 then .isDirectory
  else if code = 36 || code = -36 then .nameTooLong
  else .other details

/-- The reason of a failed access to a file. -/
def fileError : IO.Error → FileError
  | .noFileOrDirectory .. => .missing
  | .inappropriateType _ code details | .invalidArgument _ code details => reason code details
  | e => .other (toString e)

def attempt {α : Type} (action : IO α) : IO (Except FileError α) :=
  try return .ok (← action) catch e => return .error (fileError e)

partial def readAll (stream : IO.FS.Stream) (text : String) : IO String := do
  let line ← stream.getLine
  if line.isEmpty then return text else readAll stream (text ++ line)

def host : Host IO where
  read path := attempt (IO.FS.readFile path)
  write path text := attempt (IO.FS.writeFile path text)
  input := do readAll (← IO.getStdin) ""
  mark := do
    let digits := Nat.toDigits 16 (← IO.rand 0 0xffffffff)
    return String.ofList ('-' :: digits.leftpad 8 '0')

def main (args : List String) : IO UInt32 := do
  let report ← runArguments host args
  IO.print report.output
  if let some text := report.complaint then IO.eprintln s!"error: {text}"
  return report.code.toUInt32
