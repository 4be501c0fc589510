/-! Ordered trees with a label at every node, and the two orders in which their labels are
listed. -/

namespace GrammarTrees

/-- A label and, below it, any number of trees in order. -/
inductive Tree (α : Type) where
  | node (label : α) (children : List (Tree α))

namespace Tree

variable {α β : Type}

def label : Tree α → α
  | node a _ => a

def children : Tree α → List (Tree α)
  | node _ ts => ts

def leaf (a : α) : Tree α := node a []

instance [Inhabited α] : Inhabited (Tree α) := ⟨leaf default⟩

mutual

/-- The tree of the same shape with `f` applied to every label. -/
def map (f : α → β) : Tree α → Tree β
  | node a ts => node (f a) (mapAll f ts)

def mapAll (f : α → β) : List (Tree α) → List (Tree β)
  | [] => []
  | t :: ts => t.map f :: mapAll f ts

end

mutual

/-- The labels of a tree, each before those below it. -/
def preorder : Tree α → List α
  | node a ts => a :: preorderAll ts

def preorderAll : List (Tree α) → List α
  | [] => []
  | t :: ts => t.preorder ++ preorderAll ts

end

mutual

/-- The labels of a tree, each after those below it. -/
def postorder : Tree α → List α
  | node a ts => postorderAll ts ++ [a]

def postorderAll : List (Tree α) → List α
  | [] => []
  | t :: ts => t.postorder ++ postorderAll ts

end

theorem mapAll_eq (f : α → β) (ts : List (Tree α)) : mapAll f ts = ts.map (map f) := by
  induction ts with
  | nil => rfl
  | cons t ts ih => simp [mapAll, ih]

theorem preorderAll_eq (ts : List (Tree α)) : preorderAll ts = ts.flatMap preorder := by
  induction ts with
  | nil => rfl
  | cons t ts ih => simp [preorderAll, ih]

theorem postorderAll_eq (ts : List (Tree α)) : postorderAll ts = ts.flatMap postorder := by
  induction ts with
  | nil => rfl
  | cons t ts ih => simp [postorderAll, ih]

@[simp] theorem map_node (f : α → β) (a : α) (ts : List (Tree α)) :
    (node a ts).map f = node (f a) (ts.map (map f)) := by
  simp [map, mapAll_eq]

@[simp] theorem preorder_node (a : α) (ts : List (Tree α)) :
    (node a ts).preorder = a :: ts.flatMap preorder := by
  simp [preorder, preorderAll_eq]

@[simp] theorem postorder_node (a : α) (ts : List (Tree α)) :
    (node a ts).postorder = ts.flatMap postorder ++ [a] := by
  simp [postorder, postorderAll_eq]

theorem label_map (f : α → β) (t : Tree α) : (t.map f).label = f t.label := by
  cases t
  rw [map]
  rfl

mutual

theorem preorder_map (f : α → β) : (t : Tree α) →
    (t.map f).preorder = t.preorder.map f
  | .node a ts => by rw [Tree.map, preorder, preorder, List.map_cons, preorderAll_map f ts]

theorem preorderAll_map (f : α → β) : (ts : List (Tree α)) →
    preorderAll (mapAll f ts) = (preorderAll ts).map f
  | [] => rfl
  | t :: ts => by
    rw [mapAll, preorderAll, preorderAll, List.map_append, preorder_map f t, preorderAll_map f ts]

end

mutual

/-- Both orders list the same labels. -/
theorem postorder_perm : (t : Tree α) → t.postorder.Perm t.preorder
  | .node a ts => by
    rw [postorder, preorder]
    exact (List.perm_append_singleton a _).trans ((postorderAll_perm ts).cons a)

theorem postorderAll_perm : (ts : List (Tree α)) → (postorderAll ts).Perm (preorderAll ts)
  | [] => .refl []
  | t :: ts => by
    rw [postorderAll, preorderAll]
    exact (postorder_perm t).append (postorderAll_perm ts)

end

end Tree

end GrammarTrees
