/-!
# `ConceptScript.Files.FilePath`: file paths

A path is kept as it was written, since messages show it that way. What
it names is decided by its components: the parts between slashes, with
empty parts and `.` left out. A `.` at the very start of a relative path
counts as a component of its own. `..` is never resolved here.
-/

set_option autoImplicit false

namespace ConceptScript.Files

/-- A path, as written. -/
structure FilePath where
  text : String
  deriving DecidableEq, Repr, Inhabited

namespace FilePath

/-- The parts of a text between slashes. There is always at least one. -/
def splitSlash : List Char → List (List Char)
  | [] => [[]]
  | c :: rest =>
    if c = '/' then [] :: splitSlash rest
    else match splitSlash rest with
      | [] => [[c]]
      | part :: more => (c :: part) :: more

/-- The parts of a text, put back together with slashes. -/
def joinSlash : List (List Char) → List Char
  | [] => []
  | [part] => part
  | part :: next :: more => part ++ '/' :: joinSlash (next :: more)

/-- Whether a path starts at the root. -/
def isAbsolute (p : FilePath) : Bool := p.text.toList.head? == some '/'

/-- The parts of a path between slashes, after the slash that makes it
absolute. -/
def parts (p : FilePath) : List (List Char) :=
  match p.text.toList with
  | '/' :: rest => splitSlash rest
  | other => splitSlash other

/-- Whether a part names nothing: it is empty or `.`. -/
def isVacuous (part : List Char) : Bool := part == [] || part == ['.']

/-- The components of a path. A leading `.` of a relative path is one. -/
def components (p : FilePath) : List (List Char) :=
  match p.isAbsolute, p.parts with
  | false, ['.'] :: more => ['.'] :: more.filter (!isVacuous ·)
  | _, all => all.filter (!isVacuous ·)

/-- Whether two paths have the same components and start at the same
place. -/
def same (p q : FilePath) : Bool :=
  p.isAbsolute == q.isAbsolute && p.components == q.components

/-- A path taken relative to another. An absolute path replaces the base.
A slash is added only where the base does not end with one, and none
after an empty base. -/
def join (base path : FilePath) : FilePath :=
  if path.isAbsolute then path
  else match base.text.toList.getLast? with
    | none => path
    | some '/' => ⟨base.text ++ path.text⟩
    | some _ => ⟨base.text ++ "/" ++ path.text⟩

/-- Drops the parts at the end that name nothing. The list is reversed:
last part first. The very first part of a relative path names something
even when it is `.`. -/
def dropVacuous (absolute : Bool) : List (List Char) → List (List Char)
  | [] => []
  | [part] => if part == [] || (absolute && part == ['.']) then [] else [part]
  | part :: next :: more =>
    if isVacuous part then dropVacuous absolute (next :: more) else part :: next :: more

/-- The path of the directory that holds what a path names. The root and
the empty path have none; a path of one component has the empty path. -/
def parent (p : FilePath) : Option FilePath :=
  match dropVacuous p.isAbsolute p.parts.reverse with
  | [] => none
  | _ :: above =>
    let kept := joinSlash (dropVacuous p.isAbsolute above).reverse
    some ⟨String.ofList (if p.isAbsolute then '/' :: kept else kept)⟩

end FilePath

end ConceptScript.Files
