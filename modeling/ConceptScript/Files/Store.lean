import ConceptScript.Text.Lines
import ConceptScript.Files.FilePath

/-!
# `ConceptScript.Files.Store`: files and directories

A store holds files with their bytes and modification times, and
directories. A path is followed part by part from the working directory
or, if it is absolute, from the root. Every part but the last must name a
directory, so a path through a file fails even where `..` follows it. The
directories above the working directory are there too, but they hold only
what was put into them: under which name one of them holds the next is
not known.

A directory is made where a path without it leads to a directory. To make
it with all those above it, the path is tried as it is; where something
above is missing, first the path without its last component is made, and
then it is tried again. So a path that ends in `.` makes nothing by
itself, and directories made on the way stay when a later step fails.

What goes wrong is told apart the way operating systems do, because
messages quote it.
-/

set_option autoImplicit false

namespace ConceptScript.Files

open ConceptScript.Text (byteLen)

/-- Why a file cannot be read or a directory not made. -/
inductive FileError where
  | notFound
  | alreadyThere
  | notDirectory
  | isDirectory
  | nameTooLong
  /-- The path holds a character that ends names. -/
  | nulInPath
  /-- The bytes are no text. -/
  | notText
  deriving DecidableEq, Repr

/-- A file error in words. -/
def FileError.message : FileError → String
  | .notFound => "No such file or directory (os error 2)"
  | .alreadyThere => "File exists (os error 17)"
  | .notDirectory => "Not a directory (os error 20)"
  | .isDirectory => "Is a directory (os error 21)"
  | .nameTooLong => "File name too long (os error 36)"
  | .nulInPath => "file name contained an unexpected NUL byte"
  | .notText => "stream did not contain valid UTF-8"

/-- Where the names of a location start: at the root, or at a number of
levels above the working directory. -/
inductive Base where
  | root
  | working (up : Nat)
  deriving DecidableEq, Repr

/-- A place in the tree of directories: the names that lead there, the
last one first. -/
structure Location where
  base : Base
  names : List (List Char)
  deriving DecidableEq, Repr

namespace Location

/-- Where following a path starts. -/
def startOf (p : FilePath) : Location := ⟨if p.isAbsolute then .root else .working 0, []⟩

/-- What a name in a directory leads to. -/
def under (l : Location) (name : List Char) : Location := ⟨l.base, name :: l.names⟩

/-- The directory that holds a location. The root holds itself. -/
def above (l : Location) : Location :=
  match l.names, l.base with
  | _ :: names, base => ⟨base, names⟩
  | [], .root => l
  | [], .working up => ⟨.working (up + 1), []⟩

end Location

/-- A file with its bytes and the time it was last written. -/
structure File where
  content : ByteArray
  modified : Int

/-- What a location holds. -/
inductive Entry where
  | directory
  | file (file : File)

/-- Whether something there is a directory. -/
def Entry.isDirectory : Entry → Bool
  | .directory => true
  | .file _ => false

/-- A time of modification. A directory has one too; it differs from that
of every file. -/
inductive ModTime where
  | ofFile (time : Int)
  | ofDirectory
  deriving DecidableEq, Repr

/-- The files and directories there are. The root, the working directory
and those above it are there without being listed. -/
structure Store where
  entries : List (Location × Entry)

/-- The longest name, in bytes. -/
def maxName : Nat := 255

/-- The longest path, in bytes. -/
def maxPath : Nat := 4095

namespace Store

/-- A store without files. -/
def empty : Store := ⟨[]⟩

/-- What a location holds. -/
def entry? (s : Store) (l : Location) : Option Entry :=
  if l.names.isEmpty then some .directory
  else (s.entries.find? (·.1 == l)).map (·.2)

/-- Puts an entry at a location. -/
def put (s : Store) (l : Location) (e : Entry) : Store :=
  ⟨(l, e) :: s.entries.filter (·.1 != l)⟩

/-- Follows the parts of a path from a directory: where they lead, and
what is there. -/
def walk (s : Store) : Location → List (List Char) → Except FileError (Location × Entry)
  | here, [] => .ok (here, .directory)
  | here, part :: rest =>
    if FilePath.isVacuous part then walk s here rest
    else if part = ['.', '.'] then walk s here.above rest
    else if byteLen part > maxName then .error .nameTooLong
    else
      match s.entry? (here.under part) with
      | none => .error .notFound
      | some .directory => walk s (here.under part) rest
      | some (.file file) =>
        if rest.isEmpty then .ok (here.under part, .file file) else .error .notDirectory

/-- Why a path cannot be followed, whatever there is. -/
def objection? (p : FilePath) : Option FileError :=
  let text := p.text.toList
  if text.contains '\x00' then some .nulInPath
  else if byteLen text > maxPath then some .nameTooLong
  else none

/-- Where a path leads, and what is there. The empty path leads
nowhere. -/
def find (s : Store) (p : FilePath) : Except FileError (Location × Entry) :=
  match objection? p with
  | some e => .error e
  | none => if p.text = "" then .error .notFound else s.walk (.startOf p) p.parts

/-- Whether a path leads to a file. -/
def isFile (s : Store) (p : FilePath) : Bool :=
  match s.find p with
  | .ok (_, .file _) => true
  | _ => false

/-- When what a path leads to was modified. -/
def modified? (s : Store) (p : FilePath) : Option ModTime :=
  match s.find p with
  | .ok (_, .file file) => some (.ofFile file.modified)
  | .ok (_, .directory) => some .ofDirectory
  | .error _ => none

/-- The text of a file. -/
def readText (s : Store) (p : FilePath) : Except FileError String :=
  match s.find p with
  | .error e => .error e
  | .ok (_, .directory) => .error .isDirectory
  | .ok (_, .file file) =>
    match String.fromUTF8? file.content with
    | some text => .ok text
    | none => .error .notText

/-- Whether a path given by its parts leads to a directory. -/
def isDirectoryAt (s : Store) (start : Location) (parts : List (List Char)) : Bool :=
  match s.walk start parts with
  | .ok (_, entry) => entry.isDirectory
  | .error _ => false

/-- Where a new entry with a name would stand: the directory that the
parts before the name lead to. -/
def directoryAt (s : Store) (start : Location) (parts : List (List Char)) :
    Except FileError Location :=
  match s.walk start parts with
  | .error e => .error e
  | .ok (_, .file _) => .error .notDirectory
  | .ok (there, .directory) => .ok there

/-- Makes the directory that a path names, in a directory that is there.
The parts are reversed: last part first. Slashes at the end do not
matter; `.` and `..` name what is there already. -/
def makeOne (s : Store) (start : Location) : List (List Char) → Except FileError Store
  | [] => if start.base = .root then .error .alreadyThere else .error .notFound
  | part :: above =>
    if part = [] then makeOne s start above
    else
      match s.directoryAt start above.reverse with
      | .error e => .error e
      | .ok there =>
        if part = ['.'] ∨ part = ['.', '.'] then .error .alreadyThere
        else if byteLen part > maxName then .error .nameTooLong
        else if (s.entry? (there.under part)).isSome then .error .alreadyThere
        else .ok (s.put (there.under part) .directory)

/-- The paths that lead to a path, the nearest first: it is shortened by
one component after another. All parts are reversed. -/
def leadingTo : List (List Char) → List (List (List Char))
  | [] => []
  | part :: above =>
    if FilePath.isVacuous part then leadingTo above
    else above.dropWhile FilePath.isVacuous :: leadingTo above

/-- Makes the directory that the first path names, and if something above
it is missing, those that the other paths name before it. -/
def makeAll (s : Store) (start : Location) : List (List (List Char)) → Bool × Store
  | [] => (true, s)
  | path :: above =>
    match s.makeOne start path with
    | .ok s' => (true, s')
    | .error .notFound =>
      match makeAll s start above with
      | (false, s') => (false, s')
      | (true, s') =>
        match s'.makeOne start path with
        | .ok s'' => (true, s'')
        | .error _ => (s'.isDirectoryAt start path.reverse, s')
    | .error _ => (s.isDirectoryAt start path.reverse, s)

/-- Makes a directory and those above it. The answer tells whether there
is one now. -/
def makeDirectory (s : Store) (p : FilePath) : Bool × Store :=
  match objection? p with
  | some _ => (false, s)
  | none => s.makeAll (.startOf p) (p.parts.reverse :: leadingTo p.parts.reverse)

/-- Puts a file where a path leads. It fails where no directory holds the
place, where a directory stands there, and where the last part is no
name. -/
def putFile (s : Store) (p : FilePath) (file : File) : Option Store :=
  match objection? p, p.parts.reverse with
  | none, name :: above =>
    match s.directoryAt (.startOf p) above.reverse with
    | .error _ => none
    | .ok there =>
      if FilePath.isVacuous name ∨ name = ['.', '.'] ∨ byteLen name > maxName then none
      else if (s.entry? (there.under name)).any Entry.isDirectory then none
      else some (s.put (there.under name) (.file file))
  | _, _ => none

/-- Writes a file, in a directory that is made as needed. -/
def write (s : Store) (p : FilePath) (file : File) : Bool × Store :=
  let (ready, s) :=
    match p.parent with
    | none => (true, s)
    | some directory => s.makeDirectory directory
  if ready then
    match s.putFile p file with
    | some s' => (true, s')
    | none => (false, s)
  else (false, s)

/-- Removes a file. -/
def remove (s : Store) (p : FilePath) : Bool × Store :=
  match s.find p with
  | .ok (there, .file _) => (true, ⟨s.entries.filter (·.1 != there)⟩)
  | _ => (false, s)

end Store

end ConceptScript.Files
