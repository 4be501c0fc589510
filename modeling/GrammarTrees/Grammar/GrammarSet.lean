import GrammarTrees.Grammar.Basic
import GrammarTrees.TreeText.Reader

/-! Sets of grammars whose trees stand in one forest. -/

namespace GrammarTrees

structure GrammarSet where
  forest : Forest
  grammars : Array Grammar

inductive ImportFault where
  | ofItself
deriving DecidableEq, Repr

namespace GrammarSet

def empty : GrammarSet := ⟨.empty, #[]⟩

def size (s : GrammarSet) : Nat := s.grammars.size

def grammar (s : GrammarSet) (id : GrammarId) : Grammar := s.grammars[id]?.getD default

def ids (s : GrammarSet) : List GrammarId := List.range s.size

def withForest (s : GrammarSet) (forest : Forest) : GrammarSet := { s with forest }

/-- Registers the tree of `root` as a grammar. Its name, its type and its options are read from the
tree, and all of its nodes are given to it. -/
def add (s : GrammarSet) (file : String) (root : NodeId) : GrammarSet × GrammarId :=
  let f := s.forest
  let id := s.size
  let options :=
    match f.firstChildOfKind? root .options with
    | some node => f.readOptions node
    | none => .empty
  let grammar : Grammar :=
    { name := f.sectionName root
      file := file
      type := (GrammarType.ofRootText? (f.text root)).getD .combined
      root := root
      options := options
      imports := []
      literalCount := 0 }
  (⟨f.setOwnerBelow root id, s.grammars.push grammar⟩, id)

def load (s : GrammarSet) (file source : String) :
    GrammarSet × Except TreeText.ReadError GrammarId :=
  match s.forest.read source with
  | (f, .error e) => (s.withForest f, .error e)
  | (f, .ok root) =>
    let (s, id) := (s.withForest f).add file root
    (s, .ok id)

def addImport (s : GrammarSet) (id delegate : GrammarId) : Except ImportFault GrammarSet :=
  if id = delegate then .error .ofItself
  else
    let extend (g : Grammar) : Grammar := { g with imports := g.imports ++ [delegate] }
    .ok { s with grammars := s.grammars.modify id extend }

/-- Visits the grammars of `pending` in order, and the imports of each before the next. A grammar
whose file has been `seen` is passed over. -/
def followImports (s : GrammarSet) :
    (bound : Nat) → (seen pending : List GrammarId) → List GrammarId
  | 0, seen, _ => seen
  | _ + 1, seen, [] => seen
  | bound + 1, seen, id :: pending =>
    if (seen.map fun g => (s.grammar g).file).contains (s.grammar id).file then
      s.followImports bound seen pending
    else s.followImports bound (seen ++ [id]) ((s.grammar id).imports ++ pending)

/-- One more than the number of imports there are in all, those of `id` counted twice: each grammar
is visited at most once, so no more grammars are ever pending. -/
def importBound (s : GrammarSet) (id : GrammarId) : Nat :=
  (s.grammar id).imports.length + (s.grammars.toList.flatMap Grammar.imports).length + 1

/-- The grammars that a grammar imports, directly or not: each import is followed by its own. Of
those with the same file only the first counts. -/
def allImports (s : GrammarSet) (id : GrammarId) : List GrammarId :=
  s.followImports (s.importBound id) [] (s.grammar id).imports

end GrammarSet

end GrammarTrees
