import DiagramText.Text.Display

/-!
# Folders

A folder of text files as the command sees it: files and folders by their paths, in surroundings
that say what stands outside of it. `Folder.read` and `Folder.write` go the way of a path part by
part, so each part but the last has to be a folder.
-/

namespace DiagramText.Command

/-- Why a file cannot be read or written. -/
inductive FileTrouble where
  | notFound
  | notFolder
  | isFolder
  | nameTooLong
  | noSpace
  | other (code : Nat) (reason : Text)
deriving DecidableEq, Repr

namespace FileTrouble

/-- The number and name of a trouble. -/
def reason : FileTrouble → Nat × Text
  | .notFound => (2, "No such file or directory".toList)
  | .notFolder => (20, "Not a directory".toList)
  | .isFolder => (21, "Is a directory".toList)
  | .nameTooLong => (36, "File name too long".toList)
  | .noSpace => (28, "No space left on device".toList)
  | .other code reason => (code, reason)

/-- The trouble with a path, in words. A lack of space is met in writing, after the path has led to
its file, and does not name it. -/
def message (trouble : FileTrouble) (path : Text) : Text :=
  "[Errno ".toList ++ Text.ofNat trouble.reason.1 ++ "] ".toList ++ trouble.reason.2 ++
    if trouble = .noSpace then [] else ": ".toList ++ path.display

end FileTrouble

/-- What is said of a path that holds a NUL. -/
def nulMessage : Text := "embedded null byte".toList

/-- The most bytes that a name in a path may have. -/
def nameLimit : Nat := 255

/-- The most bytes that a path may have. -/
def pathLimit : Nat := 4095

/-- What stands at a place. -/
inductive Entry where
  | file (content : Text)
  | folder
  /-- Reads as empty and keeps nothing that is written. -/
  | nullDevice
  /-- Has no room for anything. -/
  | fullDevice
  | missing
deriving DecidableEq, Repr

/-- Where the names of a place set out from. -/
inductive Base where
  /-- From the folder itself. -/
  | here
  /-- From what lies around the folder. -/
  | around
  /-- From the root. -/
  | root
deriving DecidableEq, Repr

/-- A place: names from a base on, each one further in. -/
structure Place where
  base : Base
  names : List Text
deriving DecidableEq, Repr

/-- The place around another, its last name left off. Around the folder lie its surroundings; the
root and the surroundings are their own. -/
def Place.outer (place : Place) : Place :=
  if place.names = [] ∧ place.base = .here then ⟨.around, []⟩
  else { place with names := place.names.dropLast }

/-- The parts of a text between slashes. -/
def pathParts : Text → List Text
  | [] => [[]]
  | c :: rest =>
    if c = '/' then [] :: pathParts rest
    else
      match pathParts rest with
      | [] => [[c]]
      | part :: parts => (c :: part) :: parts

/-- A path taken apart. -/
structure Route where
  /-- Where it begins. -/
  start : Place
  /-- Its steps, none of them empty. -/
  steps : List Text
  /-- Whether a slash at its end says that it leads to a folder. -/
  closed : Bool
deriving Repr

/-- Takes a path apart. -/
def Route.ofPath (path : Text) : Except FileTrouble Route :=
  if path = [] then .error .notFound
  else if pathLimit < path.utf8Length then .error .nameTooLong
  else .ok {
    start := ⟨if path.head? = some '/' then .root else .here, []⟩
    steps := (pathParts path).filter (· ≠ [])
    closed := path.getLast? = some '/' }

/-- What stands outside of a folder, at the places that names lead to from the root. -/
abbrev Surroundings := List Text → Entry

/-- Surroundings of which nothing is known but the root. -/
def Surroundings.unknown : Surroundings := fun names =>
  if names = [] then .folder else .missing

/-- Files with their contents, and folders, by path. -/
structure Folder where
  files : List (Text × Text)
  folders : List Text
deriving Repr

namespace Folder

/-- What stands in the folder at the place with these names. -/
def innerEntry (folder : Folder) (names : List Text) : Entry :=
  let path := Text.join ['/'] names
  let below := path ++ ['/']
  match folder.files.lookup path with
  | some content => .file content
  | none =>
    if names = [] ∨ path ∈ folder.folders ∨
        folder.folders.any below.isPrefixOf ∨ folder.files.any (below.isPrefixOf ·.1) then .folder
    else .missing

section
variable (surroundings : Surroundings)

/-- What stands at a place. -/
def entry (folder : Folder) (place : Place) : Entry :=
  match place.base with
  | .here => folder.innerEntry place.names
  | .around => if place.names = [] then .folder else .missing
  | .root => surroundings place.names

/-- One step further from a place, which has to be a folder. -/
def enter (folder : Folder) (place : Place) (step : Text) : Except FileTrouble Place :=
  match folder.entry surroundings place with
  | .missing => .error .notFound
  | .folder =>
    if step = ['.'] then .ok place
    else if step = ['.', '.'] then .ok place.outer
    else if nameLimit < step.utf8Length then .error .nameTooLong
    else .ok { place with names := place.names ++ [step] }
  | _ => .error .notFolder

/-- Goes step after step from a place. -/
def follow (folder : Folder) (place : Place) (steps : List Text) : Except FileTrouble Place :=
  steps.foldlM (folder.enter surroundings) place

/-- The place that a path leads to. -/
def locate (folder : Folder) (path : Text) : Except FileTrouble Place := do
  let route ← Route.ofPath path
  let place ← folder.follow surroundings route.start route.steps
  if route.closed then folder.enter surroundings place ['.'] else return place

/-- The content of the file at a path. -/
def read (folder : Folder) (path : Text) : Except FileTrouble Text := do
  match folder.entry surroundings (← folder.locate surroundings path) with
  | .file content => return content
  | .folder => throw .isFolder
  | .missing => throw .notFound
  | .nullDevice | .fullDevice => return []

/-- Whether anything stands at a path. -/
def holds (folder : Folder) (path : Text) : Bool :=
  match folder.read surroundings path with
  | .ok _ => true
  | .error trouble => trouble == .isFolder

/-- The place that a path to write to leads to. What stands at a path with a slash at its end is
not asked: it would be a folder. -/
def destination (folder : Folder) (path : Text) : Except FileTrouble Place := do
  let route ← Route.ofPath path
  if route.closed then
    let outer ← folder.follow surroundings route.start route.steps.dropLast
    let _ ← folder.enter surroundings outer ['.']
    throw .isFolder
  folder.follow surroundings route.start route.steps

/-- Writes a text to a path: the file of the folder that is changed by it, if any, with its new
content. What is written outside of the folder is not told. -/
def write (folder : Folder) (path content : Text) : Except FileTrouble (Option (Text × Text)) := do
  let place ← folder.destination surroundings path
  let changed := if place.base = .here then some (Text.join ['/'] place.names, content) else none
  match folder.entry surroundings place with
  | .folder => throw .isFolder
  | .nullDevice => return none
  | .fullDevice => if content = [] then return none else throw .noSpace
  | .file old => return if old = content then none else changed
  | .missing => return changed

end

end Folder

end DiagramText.Command
