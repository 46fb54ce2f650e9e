import DiagramText.Command

/-!
# The command line

Reads the arguments and the source, lets `Command.Options.respond` decide, and does what it says.
-/

namespace DiagramText.Command

/-- The trouble that the number of an error of the system stands for. Some calls give the number
negated. -/
def troubleOfCode (code : UInt32) (reason : String) : FileTrouble :=
  match (min code (0 - code)).toNat with
  | 2 => .notFound
  | 20 => .notFolder
  | 21 => .isFolder
  | 28 => .noSpace
  | 36 => .nameTooLong
  | code => .other code reason.toList

/-- The trouble that an error of the system stands for. -/
def fileTrouble : IO.Error → FileTrouble
  | .noFileOrDirectory _ code reason => troubleOfCode code reason
  | .inappropriateType _ code reason => troubleOfCode code reason
  | .invalidArgument _ code reason => troubleOfCode code reason
  | .permissionDenied _ code reason => troubleOfCode code reason
  | .resourceExhausted _ code reason => troubleOfCode code reason
  | error => .other 5 error.toString.toList

/-- Reads a file. -/
def readSource (path : String) : IO (Except FileTrouble Text) := do
  try
    return .ok (← IO.FS.readFile path).toList
  catch error => return .error (fileTrouble error)

/-- Writes a file; the trouble that came up, if any. -/
def writeResult (path content : String) : IO (Option FileTrouble) := do
  try
    IO.FS.withFile path .write fun file => do
      file.putStr content
      file.flush
    return none
  catch error => return some (fileTrouble error)

/-- Reads the lines of a stream to its end, after those read before. -/
partial def readLines (stream : IO.FS.Stream) (read : String) : IO String := do
  let line ← stream.getLine
  if line.isEmpty then return read else readLines stream (read ++ line)

/-- Reads the standard input to its end. -/
def readInput : IO Text := do
  return (← readLines (← IO.getStdin) "").toList

/-- Prints to a stream, without control sequences unless it is a terminal's. -/
def put (stream : IO.FS.Stream) (text : Text) : IO Unit := do
  let shown := if ← stream.isTty then text else text.plain
  stream.putStr (String.ofList shown)

/-- Does what a response says; the code to end with. -/
def perform : Response → IO UInt32
  | .print code output log complaint => do
    IO.eprint (String.ofList log)
    put (← IO.getStderr) complaint
    put (← IO.getStdout) output
    return code.toUInt32
  | .write path content log => do
    IO.eprint (String.ofList log)
    match ← writeResult (String.ofList path) (String.ofList content) with
    | none => return 0
    | some trouble =>
      put (← IO.getStderr) (cannotWrite path trouble)
      return 1
  | .abandon digits => do
    IO.eprintln (String.ofList (Numeral.limitMessage digits))
    return 1
  | .stall => return 1

/-- Runs the command on the arguments of its command line; the code to end with. -/
def start (arguments : List Text) : IO UInt32 := do
  match Options.ofArguments arguments Config.default.maxDepth with
  | .error _ => return 2
  | .ok options =>
    match options.input with
    | none => perform (options.respond (.ok (← readInput)))
    | some path =>
      match ← readSource (String.ofList path) with
      | .error .notFound | .error .notFolder | .error .nameTooLong => return 2
      | content => perform (options.respond content)

end DiagramText.Command

/-- The command line of the program. -/
def main (arguments : List String) : IO UInt32 :=
  DiagramText.Command.start (arguments.map (·.toList))
