import GrammarTrees.Forest.Edit

/-! Adding whole trees of labels to a forest, and copying its subtrees. New nodes are numbered in
preorder. -/

namespace GrammarTrees

namespace Forest

mutual

/-- Adds a tree with the given labels. -/
def plant (f : Forest) : Tree Label → Forest × NodeId
  | .node label trees =>
    let made := f.alloc label
    (made.1.plantBelow made.2 trees, made.2)

def plantBelow (f : Forest) (parent : NodeId) : List (Tree Label) → Forest
  | [] => f
  | t :: ts =>
    let made := f.plant t
    (made.1.link parent made.2 (made.1.childCount parent)).plantBelow parent ts

end

/-- Adds the given trees, each as a tree of its own. -/
def plantAll (f : Forest) (trees : List (Tree Label)) : Forest :=
  trees.foldl (fun f t => (f.plant t).1) f

/-- A copy of a node, without its children and its place. -/
def copyNode (f : Forest) (id : NodeId) : Forest × NodeId := f.alloc (f.label id)

def copyTree (f : Forest) (id : NodeId) : Forest × NodeId := f.plant (f.labelTree id)

end Forest

end GrammarTrees
