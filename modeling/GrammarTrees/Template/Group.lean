import GrammarTrees.FileSystem.Store
import GrammarTrees.OrderedMap
import GrammarTrees.Template.Body
import GrammarTrees.Template.GroupText

/-! Groups of templates, loaded from group files. A group has templates of its own and imports other
groups. While a file is loaded, each file is read at most once, so files may import each other. -/

namespace GrammarTrees.Template

/-- A group of templates and the groups it imports, in order. -/
inductive Group where
  | mk (name : String) (templates : OrderedMap String Template) (imports : List Group)

namespace Group

def name : Group → String
  | mk name _ _ => name

def templates : Group → OrderedMap String Template
  | mk _ templates _ => templates

def imports : Group → List Group
  | mk _ _ imports => imports

instance : Inhabited Group := ⟨mk "" .empty []⟩

mutual

/-- The template of a name: the group's own, or else the first one among its imports. -/
def lookup (name : String) : Group → Option Template
  | mk _ templates imports => (templates.get? name).or (lookupAny name imports)

/-- The first template of a name in groups that are searched in order. -/
def lookupAny (name : String) : List Group → Option Template
  | [] => none
  | g :: gs => (lookup name g).or (lookupAny name gs)

end

end Group

inductive LoadFault where
  | notFound (path : String)
  | wrongExtension (path suffix : String)
  | read (path message : String)
  /-- The operating system refused to read the file. -/
  | io (path cause : String)
deriving DecidableEq, Repr

namespace LoadFault

def message : LoadFault → String
  | notFound path => "no such group file: " ++ path
  | wrongExtension path suffix => "Group file names must end in " ++ suffix ++ ": " ++ path
  | read path message => path ++ ": " ++ message
  | io path _ => "can't read " ++ path

def cause? : LoadFault → Option String
  | io _ cause => some cause
  | _ => none

end LoadFault

def groupSuffix : String := ".stg"

/-- The fault of a group file that cannot be read. -/
def readFault (path : String) : Store.ReadFault → LoadFault
  | .unreachable .absent => .notFound path
  | .unreachable .notDirectory => .io path "Not a directory (os error 20)"
  | .unreachable .nameTooLong => .io path "File name too long (os error 36)"
  | .unreachable .nullCharacter => .io path "file name contained an unexpected NUL byte"
  | .isDirectory => .io path "Is a directory (os error 21)"
  | .notText => .read path "group file is not valid UTF-8"

/-- The text of a group file and its place. -/
def readGroupFile (store : Store) (path : String) : Except LoadFault (String × Location) :=
  if !Path.hasSuffix path groupSuffix then .error (.wrongExtension path groupSuffix)
  else (store.readText path).mapError (readFault path)

/-- The outcome of loading: a result, the places of the files read by then, and what is to be said
about them. -/
structure Loaded (α : Type) where
  result : α
  visited : List Location
  messages : List Message

/-- Loads the group file at a path, given the places of the files read before. -/
abbrev Loader := (visited : List Location) → (path : String) → Loaded (Except LoadFault Group)

/-- The message about an import clause of the group file `name` that cannot be followed. -/
def importMessage (name source : String) (clause : Import) (fault : LoadFault) : Message :=
  match fault with
  | .notFound _ => SyntaxError.message ⟨.missingImport clause.path, clause.offset⟩ name source
  | fault => ⟨.io, .plain, some name, none, fault.message, fault.cause?⟩

/-- Loads the imports of a group file in order. Paths are seen from `dir`, and those of files that
have been read are passed over. -/
def loadImports (store : Store) (load : Loader) (name source : String) (dir : Option String) :
    (visited : List Location) → List Import → Loaded (List Group)
  | visited, [] => ⟨[], visited, []⟩
  | visited, clause :: clauses =>
    let path := (dir.map (Path.join · clause.path)).getD clause.path
    if (store.canonical? path).any visited.contains then
      loadImports store load name source dir visited clauses
    else
      let first := load visited path
      let rest := loadImports store load name source dir first.visited clauses
      match first.result with
      | .ok group => ⟨group :: rest.result, rest.visited, first.messages ++ rest.messages⟩
      | .error fault =>
        ⟨rest.result, rest.visited,
          first.messages ++ importMessage name source clause fault :: rest.messages⟩

/-- Compiles a definition into a table of templates, unless its name has a template there. -/
def define (table : OrderedMap String Template) (d : Definition) :
    Except SyntaxError (OrderedMap String Template) :=
  if table.contains d.name then .error ⟨.redefinition d.name, d.nameOffset⟩
  else
    match Template.compile d.name d.params d.body with
    | .ok template => .ok (table.insert d.name template)
    | .error e => .error { e with offset := e.offset + d.bodyOffset }

/-- The table of the definitions that can be compiled, and the errors of the others. -/
def defineAll : OrderedMap String Template → List Definition →
    OrderedMap String Template × List SyntaxError
  | table, [] => (table, [])
  | table, d :: ds =>
    match define table d with
    | .ok table => defineAll table ds
    | .error e =>
      let (table, errors) := defineAll table ds
      (table, e :: errors)

/-- The group with the given name and source. Its imports are loaded by `load` and seen from
`dir`. -/
def buildGroup (store : Store) (load : Loader) (visited : List Location)
    (name source : String) (dir : Option String) : Loaded Group :=
  let (text, errors) := GroupText.read source
  let imported := loadImports store load name source dir visited text.imports
  let (table, faults) := defineAll .empty text.definitions
  ⟨.mk name table imported.result, imported.visited,
    errors.map (·.message name source) ++ imported.messages ++
      faults.map (·.message name source)⟩

/-- Loads a group file and its imports, which nest at most `depth` levels deep. -/
def loadFile (store : Store) : (depth : Nat) → Loader
  | 0, visited, path => ⟨.error (.notFound path), visited, []⟩
  | depth + 1, visited, path =>
    match readGroupFile store path with
    | .error fault => ⟨.error fault, visited, []⟩
    | .ok (source, place) =>
      let name := (Path.fileName? path).getD path
      let built := buildGroup store (loadFile store depth) (visited ++ [place]) name source
        (Path.parent? path)
      ⟨.ok built.result, built.visited, built.messages⟩

/-- A depth that no nesting of imports exceeds: each level has read one file more. -/
def importDepth (store : Store) : Nat := store.entries.length + 2

def loadGroup (store : Store) (path : String) : Except LoadFault Group × List Message :=
  let loaded := loadFile store (importDepth store) [] path
  (loaded.result, loaded.messages)

/-- The group with the given name and source, whose imports are seen from `dir`. -/
def groupOfText (store : Store) (name source : String) (dir : Option String) :
    Group × List Message :=
  let built := buildGroup store (loadFile store (importDepth store)) [] name source dir
  (built.result, built.messages)

end GrammarTrees.Template
