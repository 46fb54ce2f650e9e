import DiagramText.Lexeme.Basic
import DiagramText.Text.Character

/-!
# Code blocks

A code block opens with a fence and, after spaces or tabs, the name of its language; its content
goes on to the leftmost closing fence. `CodeParts.ofText?` takes the text of a block apart again.
-/

namespace DiagramText

/-- The style whose fence opens the text. The fences begin alike, so the longer are tried first. -/
def FenceStyle.openingOf? (s : Text) : Option FenceStyle :=
  [.backtick, .triple, .double, .single].find? fun style => style.opener.isPrefixOf s

/-- The language tag at the front, and the length it takes with the blanks before it. -/
def languageTag? (s : Text) : Option (Text × Nat) :=
  let blanks := Text.run (fun c => c == ' ' || c == '\t') s
  let tag := (s.drop blanks).takeWhile Char.isAlphanum
  if tag = [] then none else some (tag, blanks + tag.length)

/-- A code block between fences. -/
def codeBlock : Recogniser := fun s =>
  match FenceStyle.openingOf? s with
  | none => .ok none
  | some style =>
    match languageTag? (s.drop style.opener.length) with
    | none => .error (.missingLanguage style)
    | some (_, tag) =>
      let head := style.opener.length + tag
      match Text.find? style.closer (s.drop head) with
      | none => .error (.unterminatedCode style)
      | some content => .ok (some ⟨.codeBlock, head + content + style.closer.length⟩)

/-- The parts of a code block. -/
structure CodeParts where
  style : FenceStyle
  language : Text
  content : Text
deriving DecidableEq, Repr

/-- Takes the text of a code block apart. Nothing comes of a text that no fence opens. -/
def CodeParts.ofText? (s : Text) : Option (Except LexFault CodeParts) :=
  (FenceStyle.openingOf? s).map fun style =>
    match languageTag? (s.drop style.opener.length) with
    | none => .error (.missingLanguage style)
    | some (language, tag) =>
      let head := style.opener.length + tag
      .ok ⟨style, language, (s.drop head).take (s.length - style.closer.length - head)⟩

end DiagramText
