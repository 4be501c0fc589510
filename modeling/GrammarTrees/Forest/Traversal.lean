import GrammarTrees.Forest.Basic
import GrammarTrees.Tree

/-! Walks through a forest: from a node up to its root, and through all nodes below it. No walk
takes more steps than the forest has nodes, so the number of nodes bounds each of them. -/

namespace GrammarTrees

namespace Forest

/-- The first `bound` nodes on the way from a node to its root, the node first. -/
def climb (f : Forest) : (bound : Nat) → NodeId → List NodeId
  | 0, _ => []
  | bound + 1, id =>
    match f.parent? id with
    | none => [id]
    | some parent => id :: f.climb bound parent

/-- A node, its parent, and so on up to the root. -/
def lineage (f : Forest) (id : NodeId) : List NodeId := f.climb f.size id

def rootOf (f : Forest) (id : NodeId) : NodeId := (f.lineage id).getLast?.getD id

def isWithin (f : Forest) (id ancestor : NodeId) : Bool := (f.lineage id).contains ancestor

/-- The first `bound` nodes met when the nodes of `pending` are visited in order and the children of
each visited node go before the nodes still pending. -/
def visit (f : Forest) : (bound : Nat) → (pending : List NodeId) → List NodeId
  | 0, _ => []
  | _ + 1, [] => []
  | bound + 1, id :: pending => id :: f.visit bound (f.children id ++ pending)

/-- The nodes of the subtree of `id`, each before those below it. -/
def preorder (f : Forest) (id : NodeId) : List NodeId := f.visit f.size [id]

/-- The subtree of `id` down to `depth` levels below it. -/
def treeTo (f : Forest) : (depth : Nat) → NodeId → Tree NodeId
  | 0, id => .leaf id
  | depth + 1, id => .node id ((f.children id).map (f.treeTo depth))

def tree (f : Forest) (id : NodeId) : Tree NodeId := f.treeTo f.size id

def labelTree (f : Forest) (id : NodeId) : Tree Label := (f.tree id).map f.label

/-- The nodes of the subtree of `id`, each after those below it. -/
def postorder (f : Forest) (id : NodeId) : List NodeId := (f.tree id).postorder

def descendantsOfKind (f : Forest) (id : NodeId) (kind : Kind) : List NodeId :=
  (f.preorder id).filter fun n => f.kind n = kind

/-- The first node of the subtree of `id` that was built from token `index`. -/
def nodeOfToken? (f : Forest) (id : NodeId) (index : Nat) : Option NodeId :=
  (f.preorder id).find? fun n => (f.tokens n).index = some index

/-- Gives the whole subtree of `id` to a grammar. -/
def setOwnerBelow (f : Forest) (id : NodeId) (owner : GrammarId) : Forest :=
  (f.preorder id).foldl (fun f n => f.setOwner n owner) f

/-- Whether each child of a node of the subtree of `id` records the place where it is listed. -/
def linksAgree (f : Forest) (id : NodeId) : Bool :=
  (f.preorder id).all fun n =>
    (f.children n).zipIdx.all fun c => f.parent? c.1 = some n && f.childIndex c.1 = c.2

end Forest

end GrammarTrees
