import DiagramText.Text.Basic
import DiagramText.Text.Character
import DiagramText.Numeral

/-!
# Options of the command

The options of the command line. A long option takes its value after an equals sign or as the next
argument; short ones may be written in one, and the first of them that takes a value takes the
rest. Two dashes end the options, and of a repeated option the last counts. A command line that is
not of this form is refused.
-/

namespace DiagramText.Command

/-- What is written. -/
inductive OutputFormat where
  /-- The tree as an S-expression. -/
  | sexp
  /-- The canonical source. -/
  | source
  /-- The list of tokens. -/
  | tokens
deriving DecidableEq, Repr

/-- The format of a name. -/
def OutputFormat.ofName? (name : Text) : Option OutputFormat :=
  if name = "sexp".toList then some .sexp
  else if name = "d2".toList then some .source
  else if name = "tokens".toList then some .tokens
  else none

/-- What an option sets. -/
inductive Switch where
  | format
  | maxDepth
  | output
  | noComments
  | verbose
deriving DecidableEq, Repr

namespace Switch

/-- Whether the option has a value. -/
def takesValue : Switch → Bool
  | .format => true
  | .maxDepth => true
  | .output => true
  | .noComments => false
  | .verbose => false

/-- The option of a long name. -/
def ofLongName? (name : Text) : Option Switch :=
  [("--format", .format), ("--max-depth", .maxDepth), ("--no-comments", .noComments),
    ("--verbose", .verbose), ("--output", .output)].find? (·.1.toList == name) |>.map (·.2)

/-- The option of a letter. -/
def ofLetter? : Char → Option Switch
  | 'f' => some .format
  | 'v' => some .verbose
  | 'o' => some .output
  | _ => none

end Switch

/-- The options as written: what was set, with the latest first, and the other arguments. -/
structure Arguments where
  settings : List (Switch × Text)
  positional : List Text
deriving Repr

namespace Arguments

/-- No arguments. -/
def empty : Arguments := ⟨[], []⟩

/-- Sets an option. -/
def set (arguments : Arguments) (switch : Switch) (value : Text) : Arguments :=
  { arguments with settings := (switch, value) :: arguments.settings }

/-- The latest value of an option. -/
def value? (arguments : Arguments) (switch : Switch) : Option Text :=
  arguments.settings.lookup switch

/-- Reads letters written in one. An option that still lacks its value comes with the result. -/
def readLetters (arguments : Arguments) : Text → Option (Arguments × Option Switch)
  | [] => some (arguments, none)
  | c :: rest =>
    match Switch.ofLetter? c with
    | none => none
    | some switch =>
      if !switch.takesValue then (arguments.set switch []).readLetters rest
      else if rest.isEmpty then some (arguments, some switch)
      else some (arguments.set switch rest, none)

/-- Reads an argument that begins with a dash. An option that still lacks its value comes with the
result. -/
def readOption (arguments : Arguments) (argument : Text) : Option (Arguments × Option Switch) :=
  let name := argument.takeWhile (· != '=')
  let value := if argument.contains '=' then some (argument.drop (name.length + 1)) else none
  match Switch.ofLongName? name with
  | some switch =>
    match switch.takesValue, value with
    | true, some value => some (arguments.set switch value, none)
    | true, none => some (arguments, some switch)
    | false, some _ => none
    | false, none => some (arguments.set switch [], none)
  | none =>
    if ['-', '-'].isPrefixOf argument then none else arguments.readLetters (argument.drop 1)

/-- Reads the arguments of a command line. -/
def read (arguments : Arguments) : List Text → Option Arguments
  | [] => some arguments
  | argument :: others =>
    if argument = ['-', '-'] then
      some { arguments with positional := arguments.positional ++ others }
    else if argument.head? = some '-' ∧ 1 < argument.length then
      match arguments.readOption argument with
      | none => none
      | some (arguments, none) => arguments.read others
      | some (arguments, some switch) =>
        match others with
        | [] => none
        | value :: others => (arguments.set switch value).read others
    else { arguments with positional := arguments.positional ++ [argument] }.read others

end Arguments

/-- The digits of a numeral, single underscores between them passed over. -/
def digitValues? : Text → Option (List Nat)
  | [] => none
  | [c] => (digitValue? c).map ([·])
  | c :: '_' :: rest => do return (← digitValue? c) :: (← digitValues? rest)
  | c :: rest => do return (← digitValue? c) :: (← digitValues? rest)

/-- Whether the character may stand around an integer: any blank but the separators of files,
groups, records and units. -/
def isPadding (c : Char) : Bool :=
  isBlank c && !(0x1c ≤ c.toNat && c.toNat ≤ 0x1f)

/-- An integer as an option gives it: padding around it, a sign, digits of any script with single
underscores between them. -/
def readInteger? (text : Text) : Option Int := do
  let trimmed := ((text.dropWhile isPadding).reverse.dropWhile isPadding).reverse
  let digits ← digitValues? (Numeral.unsigned trimmed)
  if Numeral.digitLimit < digits.length then none
  let value : Nat := digits.foldl (fun value digit => 10 * value + digit) 0
  return if Numeral.isNegative trimmed then -(value : Int) else value

/-- What the command is asked to do. -/
structure Options where
  /-- The source, or none for the standard input. -/
  input : Option Text
  format : OutputFormat
  maxDepth : Int
  keepComments : Bool
  verbose : Bool
  /-- Where to write to, or none for the standard output. -/
  output : Option Text
deriving Repr

/-- The options that are set, for a source at a path or on the standard input. -/
def Arguments.options? (arguments : Arguments) (input : Option Text) (defaultDepth : Int) :
    Option Options := do
  let format ← match arguments.value? .format with
    | none => some OutputFormat.sexp
    | some name => OutputFormat.ofName? name
  let maxDepth ← match arguments.value? .maxDepth with
    | none => some defaultDepth
    | some text => readInteger? text
  return {
    input, format, maxDepth
    keepComments := (arguments.value? .noComments).isNone
    verbose := (arguments.value? .verbose).isSome
    output := (arguments.value? .output).filter (· ≠ []) }

/-- Why a command line is refused. -/
inductive Refusal where
  /-- It is not of the form that the options have. -/
  | malformed
  /-- The path of the source holds a NUL. -/
  | nulInPath
deriving DecidableEq, Repr

/-- The options of a command line. Values are looked at before the path of the source, and that
before its being the only one. Whether the source is there is not asked. -/
def Options.ofArguments (arguments : List Text) (defaultDepth : Int) : Except Refusal Options :=
  match Arguments.empty.read arguments with
  | none => .error .malformed
  | some arguments =>
    match arguments.options? arguments.positional.head? defaultDepth with
    | none => .error .malformed
    | some options =>
      if options.input.any (·.contains '\x00') then .error .nulInPath
      else if 1 < arguments.positional.length then .error .malformed
      else .ok options

end DiagramText.Command
