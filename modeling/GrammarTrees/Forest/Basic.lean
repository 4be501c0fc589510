import GrammarTrees.Forest.Kind
import GrammarTrees.Text.Position

/-! Forests of grammar trees. All nodes live in one array. A node lists its children and records its
place: its parent and its index among the parent's children. A node without a parent is the root of
a tree. -/

namespace GrammarTrees

/-- Nodes are numbered in the order in which they were made. -/
abbrev NodeId := Nat

/-- Grammars are numbered in the order in which they were registered. -/
abbrev GrammarId := Nat

/-- Indexes of tokens in a grammar's token stream: the token that a node was built from, and the
first and the last one that its subtree covers. -/
structure TokenSpan where
  index : Option Nat
  start : Option Nat
  stop : Option Nat
deriving DecidableEq, Repr

def TokenSpan.none : TokenSpan := ⟨.none, .none, .none⟩

/-- The bytes from `start` up to, but not including, `stop`. -/
structure ByteRange where
  start : Nat
  stop : Nat
deriving DecidableEq, Repr

/-- What a node says apart from its links. -/
structure Label where
  kind : Kind
  text : String
  position : Position
  tokens : TokenSpan
  range : Option ByteRange
  owner : Option GrammarId
deriving DecidableEq, Repr

namespace Label

/-- A label that is not tied to any source or grammar. -/
def make (kind : Kind) (text : String) : Label := ⟨kind, text, .unknown, .none, none, none⟩

/-- The label whose text is the name of its kind. -/
def ofKind (kind : Kind) : Label := make kind kind.name

instance : Inhabited Label := ⟨ofKind default⟩

end Label

structure Node where
  label : Label
  children : List NodeId
  /-- The node that it hangs below; a root has none. -/
  parent : Option NodeId
  /-- Its index among the children of its parent; 0 for a root. -/
  index : Nat
deriving DecidableEq, Repr

/-- A node that is a tree of its own. -/
def Node.single (label : Label) : Node := ⟨label, [], none, 0⟩

instance : Inhabited Node := ⟨.single default⟩

structure Forest where
  nodes : Array Node
deriving DecidableEq, Repr

namespace Forest

def empty : Forest := ⟨#[]⟩

instance : Inhabited Forest := ⟨empty⟩

def size (f : Forest) : Nat := f.nodes.size

def node (f : Forest) (id : NodeId) : Node := f.nodes[id]?.getD default

def label (f : Forest) (id : NodeId) : Label := (f.node id).label

def kind (f : Forest) (id : NodeId) : Kind := (f.label id).kind

def text (f : Forest) (id : NodeId) : String := (f.label id).text

def position (f : Forest) (id : NodeId) : Position := (f.label id).position

def tokens (f : Forest) (id : NodeId) : TokenSpan := (f.label id).tokens

def range (f : Forest) (id : NodeId) : Option ByteRange := (f.label id).range

def owner (f : Forest) (id : NodeId) : Option GrammarId := (f.label id).owner

def children (f : Forest) (id : NodeId) : List NodeId := (f.node id).children

def childCount (f : Forest) (id : NodeId) : Nat := (f.children id).length

def child? (f : Forest) (id : NodeId) (index : Nat) : Option NodeId := (f.children id)[index]?

def parent? (f : Forest) (id : NodeId) : Option NodeId := (f.node id).parent

def childIndex (f : Forest) (id : NodeId) : Nat := (f.node id).index

def firstChildOfKind? (f : Forest) (id : NodeId) (kind : Kind) : Option NodeId :=
  (f.children id).find? fun c => f.kind c = kind

def childrenOfKind (f : Forest) (id : NodeId) (kind : Kind) : List NodeId :=
  (f.children id).filter fun c => f.kind c = kind

def alloc (f : Forest) (label : Label) : Forest × NodeId :=
  (⟨f.nodes.push (.single label)⟩, f.size)

def modify (f : Forest) (id : NodeId) (g : Node → Node) : Forest := ⟨f.nodes.modify id g⟩

def setChildren (f : Forest) (id : NodeId) (children : List NodeId) : Forest :=
  f.modify id fun n => { n with children }

def setPlace (f : Forest) (id : NodeId) (parent : Option NodeId) (index : Nat) : Forest :=
  f.modify id fun n => { n with parent, index }

/-- Changes what a node says and keeps its links. -/
def relabel (f : Forest) (id : NodeId) (g : Label → Label) : Forest :=
  f.modify id fun n => { n with label := g n.label }

def setText (f : Forest) (id : NodeId) (text : String) : Forest :=
  f.relabel id fun l => { l with text }

def setPosition (f : Forest) (id : NodeId) (position : Position) : Forest :=
  f.relabel id fun l => { l with position }

def setTokens (f : Forest) (id : NodeId) (tokens : TokenSpan) : Forest :=
  f.relabel id fun l => { l with tokens }

def setRange (f : Forest) (id : NodeId) (range : ByteRange) : Forest :=
  f.relabel id fun l => { l with range := some range }

def setOwner (f : Forest) (id : NodeId) (owner : GrammarId) : Forest :=
  f.relabel id fun l => { l with owner := some owner }

end Forest

end GrammarTrees
