import DiagramText.Grammar.Name

/-!
# Methods and their arguments

    method    = identifier "(" arguments ")" (":" "(" arguments ")")?
    arguments = (segment ("," segment)* ","?)?
    segment   = name type?

In a list where some segment has a type, a bare name takes the type of the next segment that has
one; a list without any type is a list of untyped names.
-/

namespace DiagramText.Grammar

open Reader

/-- One argument as written. -/
inductive Segment where
  | bare (name : Token)
  | typed (name type : Token)
deriving DecidableEq, Repr

namespace Segment

/-- The token of the name. -/
def name : Segment → Token
  | .bare name => name
  | .typed name _ => name

/-- Whether the segment has no type. -/
def isBare : Segment → Bool
  | .bare _ => true
  | .typed .. => false

/-- A segment from the words between two commas. A name holds no brackets, and at most one word,
the type, follows it. The list opens at `opening`. -/
def ofWords (opening : Span) : List Token → Except SyntaxError Segment
  | [] => .error (.badSignature .emptyArgument opening)
  | name :: others =>
    match others with
    | _ :: third :: _ =>
      .error (.badSignature (.surplusWords ((name :: others).map (·.text))) third.span)
    | _ =>
      if name.text = [] ∨ !name.text.all isPlainWord then
        .error (.badSignature (.badName name.text) name.span)
      else
        match others with
        | [] => .ok (.bare name)
        | type :: _ => .ok (.typed name type)

/-- Goes through segments some of which have types, behind the arguments that were `found`. The names
that are `pending` take the type of the next segment that has one, and at the end there is none to
take. -/
def assignTypes (found : List Argument) (pending : List Token) :
    List Segment → Except SyntaxError (List Argument)
  | [] =>
    match pending with
    | [] => .ok found
    | first :: _ => .error (.badSignature (.untyped (pending.map (·.text))) first.span)
  | .bare name :: others => assignTypes found (pending ++ [name]) others
  | .typed name type :: others =>
    let sharing := pending.map fun bare => ⟨bare.text, some type.text, bare.span⟩
    let argument := ⟨name.text, some type.text, name.span.cover type.span⟩
    assignTypes (found ++ sharing ++ [argument]) [] others

end Segment

/-- The words between commas. -/
def splitAtCommas : List Token → List (List Token)
  | [] => [[]]
  | token :: others =>
    if token.isPunct ',' then [] :: splitAtCommas others
    else
      match splitAtCommas others with
      | [] => [[token]]
      | words :: further => (token :: words) :: further

/-- The segments without an empty last one, which a comma at the end leaves. -/
def dropTrailingComma (segments : List (List Token)) : List (List Token) :=
  if 1 < segments.length ∧ segments.getLast? = some [] then segments.dropLast else segments

/-- The arguments that the words between commas stand for, in a list that opens at `opening`. -/
def resolveArguments (opening : Span) (segments : List (List Token)) :
    Except SyntaxError (List Argument) :=
  if segments = [[]] then .ok []
  else do
    let segments ← (dropTrailingComma segments).mapM (Segment.ofWords opening)
    if segments.all (·.isBare) then
      return segments.map fun segment => ⟨segment.name.text, none, segment.name.span⟩
    else Segment.assignTypes [] [] segments

/-- A list of arguments between parentheses, with the token that closes it. -/
def argumentList : Parser (List Argument × Token) := do
  let opening ← expect .arguments ['(']
  let words ← many do
    let token ← peek .arguments
    if token.isPunct ')' then return none
    else if token.isPunct ',' || token.kind = .ident then return some (← advance .arguments)
    else fail (.unexpected "argument name".toList ["','".toList, "')'".toList] token)
  let closing ← advance .arguments
  match resolveArguments opening.span (splitAtCommas words) with
  | .ok arguments => return (arguments, closing)
  | .error error => fail error

/-- The rest of a method after its name. -/
def methodFrom (name : Identifier) : Parser Method := do
  let (arguments, closing) ← argumentList
  if isMark (← peekSameLine .declaration) ':' then
    let _ ← advance .declaration
    let (returns, closing) ← argumentList
    return ⟨name, arguments, some returns, name.span.cover closing.span⟩
  else return ⟨name, arguments, none, name.span.cover closing.span⟩

end DiagramText.Grammar
