import DiagramText.Canonical
import DiagramText.Command.Folder
import DiagramText.Command.Options
import DiagramText.Error.Report
import DiagramText.Grammar.Document
import DiagramText.SExpr
import DiagramText.Text.ControlSequence

/-!
# The command

The command reads a source, parses it, and writes its tree as an S-expression, its canonical
source, or its tokens. `Options.respond` decides what is to be done with the text that was read;
`run` carries it out in a folder. What is printed or complained of is shown without control
sequences unless a terminal shows it; the log and the files that are written keep them.
-/

namespace DiagramText.Command

/-- What the source of the standard input is called in reports. -/
def standardInput : Text := "<stdin>".toList

/-- The tokens of a source, one to a line with place, kind and text. -/
def tokenLines (tokens : List Token) : Text :=
  tokens.flatMap fun token =>
    token.span.place ++ ['\t'] ++ token.kind.name.toList ++ ['\t'] ++ token.text.display ++ ['\n']

/-- A line of the log. -/
def logLine (text : Text) : Text :=
  "d2_syntax.parsers.d2: ".toList ++ text ++ ['\n']

/-- What the log says of a parse. -/
def parseLog (config : Config) (source : Text) (result : Except Failure Document) : Text :=
  logLine ("parsing ".toList ++ Text.ofNat source.length ++ " characters (max_depth=".toList ++
    Text.ofInt config.maxDepth ++ [')']) ++
  match result with
  | .ok document =>
    logLine ("parsed ".toList ++ Text.ofNat document.children.length ++ " top-level nodes".toList)
  | .error (.malformed error _) =>
    logLine ("parse failed at ".toList ++ error.span.place ++ ": ".toList ++ error.message)
  | .error _ => []

/-- What is left to do once the source was read. -/
inductive Response where
  /-- Print, log and complain, and end with a code. -/
  | print (code : Nat) (output log complaint : Text)
  /-- Write a file, after the log. -/
  | write (path content log : Text)
  /-- Give up over an integer with this many digits. -/
  | abandon (digits : Nat)
  /-- Give up over a parse that does not go on. -/
  | stall
deriving DecidableEq, Repr

namespace Options

/-- How the source is parsed. -/
def config (options : Options) : Config :=
  ⟨options.maxDepth, options.keepComments⟩

/-- What the source is called in reports. -/
def sourceName (options : Options) : Text :=
  options.input.getD standardInput

/-- Reports an error and ends with code one. -/
def complain (options : Options) (source log : Text) (diagnostic : Diagnostic) : Response :=
  .print 1 [] log ("parse error:\n".toList ++ diagnostic.report source options.sourceName ++
    ['\n'])

/-- Gives out what was rendered. -/
def deliver (options : Options) (rendered log : Text) : Response :=
  match options.output with
  | none => .print 0 rendered log []
  | some path => .write path rendered log

/-- The two spaces that a level is indented by. -/
def indent : Text := [' ', ' ']

/-- The document in the format asked for. -/
def render (options : Options) (document : Document) : Text :=
  match options.format with
  | .source => document.canonical indent
  | _ => document.dump indent

/-- What to do with a source. -/
def process (options : Options) (source : Text) : Response :=
  if options.format = .tokens then
    let reading := tokenize .declaration source
    match reading.fault with
    | none => options.deliver (tokenLines reading.tokens) []
    | some error => options.complain source [] (SyntaxError.lexical error).diagnostic
  else
    let result := Document.ofText options.config source
    let log := if options.verbose then parseLog options.config source result else []
    match result with
    | .ok document => options.deliver (options.render document) log
    | .error (.malformed error _) => options.complain source log error.diagnostic
    | .error (.numeralTooLong digits) => .abandon digits
    | .error .stalled => .stall

/-- What to do with what was read, or was not. Line breaks of all kinds are read as line feeds. -/
def respond (options : Options) (content : Except FileTrouble Text) : Response :=
  match content with
  | .ok text => options.process text.unifyBreaks
  | .error trouble =>
    let path := options.input.getD []
    .print 1 [] [] ("error: cannot read '".toList ++ path ++ "': ".toList ++
      trouble.message path ++ ['\n'])

end Options

/-- What is said of a file that cannot be written. -/
def cannotWrite (path : Text) (trouble : FileTrouble) : Text :=
  "error: cannot write '".toList ++ path ++ "': ".toList ++ trouble.message path ++ ['\n']

/-- How the command ended. -/
inductive Outcome where
  /-- The command line has no meaning. -/
  | usage
  /-- With a code, what was printed and logged, and the file that was changed, with its new
  content. -/
  | ended (code : Nat) (output log : Text) (written : Option (Text × Text))
  | abandoned (digits : Nat)
  /-- A path holds a NUL. -/
  | nulInPath
  | stalled
deriving DecidableEq, Repr

/-- Carries out a response in a folder. -/
def Response.carryOut (surroundings : Surroundings) (folder : Folder) : Response → Outcome
  | .print code output log complaint => .ended code output.plain (log ++ complaint.plain) none
  | .abandon digits => .abandoned digits
  | .stall => .stalled
  | .write path content log =>
    if path.contains '\x00' then .nulInPath
    else
      match folder.write surroundings path content with
      | .ok written => .ended 0 [] log written
      | .error trouble => .ended 1 [] (log ++ (cannotWrite path trouble).plain) none

/-- Runs the command on its arguments, with a text on the standard input, in a folder and its
surroundings. -/
def run (arguments : List Text) (input : Text) (folder : Folder)
    (surroundings : Surroundings := .unknown) : Outcome :=
  match Options.ofArguments arguments Config.default.maxDepth with
  | .error .malformed => .usage
  | .error .nulInPath => .nulInPath
  | .ok options =>
    if options.input.any (!folder.holds surroundings ·) then .usage
    else
      (options.respond ((options.input.map (folder.read surroundings)).getD (.ok input))).carryOut
        surroundings folder

end DiagramText.Command
