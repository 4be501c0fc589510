import GrammarTrees.Forest.Traversal

/-! Moving trees about in a forest. A subtree is taken from its parent by `detach` and hung below a
node by `attach`, which refuses to make a node the child of two parents or of itself. Each edit
numbers the children of the parent anew from the first that moved, so that places and child lists
agree again after it. -/

namespace GrammarTrees

inductive EditFault where
  | stillAttached
  /-- The new parent is the node or stands below it. -/
  | ownDescendant
  | indexOutOfBounds (index count : Nat)
  | inconsistentLinks
  /-- A rewrite went on for more steps than it was given. -/
  | unfinished
deriving DecidableEq, Repr

namespace Forest

/-- Records for the given nodes that they hang below `parent`, numbered from `start` on. -/
def placeAll (f : Forest) (parent : NodeId) : (start : Nat) → List NodeId → Forest
  | _, [] => f
  | start, c :: cs => (f.setPlace c (some parent) start).placeAll parent (start + 1) cs

/-- Records for the children of `parent`, from child number `start` on, where each is listed. -/
def numberFrom (f : Forest) (parent : NodeId) (start : Nat) : Forest :=
  f.placeAll parent start ((f.children parent).drop start)

/-- Lists `node` as child number `index` of `parent`. -/
def link (f : Forest) (parent node : NodeId) (index : Nat) : Forest :=
  (f.setChildren parent ((f.children parent).insertIdx index node)).numberFrom parent index

/-- Takes a node with its subtree from its parent. A root stays as it is. -/
def detach (f : Forest) (id : NodeId) : Forest :=
  match f.parent? id with
  | none => f
  | some parent =>
    let index := f.childIndex id
    let left := (f.children parent).eraseIdx index
    ((f.setChildren parent left).numberFrom parent index).setPlace id none 0

/-- Hangs the tree of the root `node` below `parent` as child number `index`. -/
def attach (f : Forest) (parent node : NodeId) (index : Nat) : Except EditFault Forest :=
  if (f.parent? node).isSome then .error .stillAttached
  else if f.isWithin parent node then .error .ownDescendant
  else if f.childCount parent < index then
    .error (.indexOutOfBounds index (f.childCount parent))
  else .ok (f.link parent node index)

/-- Moves a subtree below `parent` as child number `index`, counted after it was taken away. When
this is refused, the subtree has been detached. -/
def insertChild (f : Forest) (parent : NodeId) (index : Nat) (node : NodeId) :
    Except EditFault Forest :=
  (f.detach node).attach parent node index

/-- Moves a subtree below `parent` as its last child. -/
def pushChild (f : Forest) (parent node : NodeId) : Except EditFault Forest :=
  let g := f.detach node
  g.attach parent node (g.childCount parent)

/-- Moves subtrees below `parent`, one after the other, each as its last child. -/
def pushChildren (f : Forest) (parent : NodeId) (nodes : List NodeId) : Except EditFault Forest :=
  nodes.foldlM (fun f n => f.pushChild parent n) f

/-- Detaches `child` if it hangs below `parent`, and tells whether it did. -/
def deleteChild (f : Forest) (parent child : NodeId) : Forest × Bool :=
  if f.parent? child = some parent then (f.detach child, true) else (f, false)

end Forest

end GrammarTrees
