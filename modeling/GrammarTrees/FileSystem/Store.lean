import GrammarTrees.FileSystem.Path
import GrammarTrees.Text.Position

/-! A file system. Paths are followed name by name, from the root or from the working directory, as
an operating system does it: what is passed through has to be a directory. -/

namespace GrammarTrees

/-- A place in a file system: the names that lead to it from the root. -/
abbrev Location := List String

/-- What stands at a place of the store. A file has no content if its bytes are no text. -/
inductive Entry where
  | directory
  | file (content : Option String)
deriving DecidableEq, Repr

/-- A file system without links, and the working directory, from which relative paths are followed.
The directories on the way to an entry and to the working directory exist too. There is a bound on
the length of a name and none on that of a path. -/
structure Store where
  workingDirectory : Location
  entries : List (Location × Entry)

/-- Why a path leads nowhere. -/
inductive LookupFault where
  | absent
  | notDirectory
  | nameTooLong
  /-- The path has a character in it that ends a path for the operating system. -/
  | nullCharacter
deriving DecidableEq, Repr

namespace Store

/-- An empty working directory, with a name, in a file system that has nothing else. -/
def empty : Store := ⟨["work"], []⟩

/-- The greatest number of bytes that a name has. -/
def maxNameLength : Nat := 255

/-- The store with an entry at a path below the working directory. -/
def add (s : Store) (path : String) (entry : Entry) : Store :=
  let names := (splitAtChar '/' path.toList).filter (· ≠ [])
  { s with entries := s.entries ++ [(s.workingDirectory ++ names.map String.ofList, entry)] }

def entry? (s : Store) (place : Location) : Option Entry :=
  (s.entries.find? (·.1 = place)).map Prod.snd

def isDirectory (s : Store) (place : Location) : Bool :=
  place.isPrefixOf s.workingDirectory || s.entry? place = some .directory ||
    s.entries.any fun e => place.isPrefixOf e.1 && place.length < e.1.length

/-- The place that one piece of a path leads to. The root is its own parent. -/
def enter (s : Store) (place : Location) (piece : List Char) : Except LookupFault Location :=
  if !s.isDirectory place then .error .notDirectory
  else if piece = [] ∨ piece = ['.'] then .ok place
  else if piece = ['.', '.'] then .ok place.dropLast
  else if maxNameLength < byteLength piece then .error .nameTooLong
  else
    let next := place ++ [String.ofList piece]
    if (s.entry? next).isSome || s.isDirectory next then .ok next else .error .absent

/-- The place from which a path is followed. -/
def start (s : Store) (path : String) : Location :=
  if path.toList.head? = some '/' then [] else s.workingDirectory

def locate (s : Store) (path : String) : Except LookupFault Location :=
  let cs := path.toList
  if cs = [] then .error .absent
  else if '\x00' ∈ cs then .error .nullCharacter
  else (splitAtChar '/' cs).foldlM s.enter (s.start path)

def contains (s : Store) (path : String) : Bool :=
  match s.locate path with
  | .ok _ => true
  | .error _ => false

/-- The place by which a path is compared with others: where it leads, or, if that is nowhere, what
it spells. -/
def canonical? (s : Store) (path : String) : Option Location :=
  match s.locate path with
  | .ok place => some place
  | .error _ => Path.names? path

inductive ReadFault where
  | unreachable (fault : LookupFault)
  | isDirectory
  | notText
deriving DecidableEq, Repr

/-- The text of the file that a path leads to, and its place. -/
def readText (s : Store) (path : String) : Except ReadFault (String × Location) :=
  match s.locate path with
  | .error fault => .error (.unreachable fault)
  | .ok place =>
    match s.entry? place with
    | some (.file (some content)) => .ok (content, place)
    | some (.file none) => .error .notText
    | _ => .error .isDirectory

end Store

end GrammarTrees
