import GrammarTrees.Proofs.Forest.WellFormed

/-! The subtrees of a well-formed forest. The number of nodes bounds the depth of every subtree, so
`tree` and `labelTree` follow the child lists all the way down, and they depend on nothing but the
nodes below. -/

namespace GrammarTrees.Forest

variable {f g : Forest} {a c p : Nat}

/-! ### Depth -/

def depth (f : Forest) (id : NodeId) : Nat := (f.lineage id).length

section Depth

variable (h : f.WellFormed)
include h

theorem depth_le_size (ha : a < f.size) : f.depth a ≤ f.size := h.length_climb_le f.size ha

theorem depth_of_mem_children (hc : c ∈ f.children p) : f.depth c = f.depth p + 1 := by
  rw [depth, h.lineage_eq (h.lt_size_of_child hc), h.mem_children.mp hc]
  simp [depth]

/-- A node as deep as there are nodes has no children. -/
theorem children_of_size_le_depth (ha : f.size ≤ f.depth a) : f.children a = [] := by
  rw [List.eq_nil_iff_forall_not_mem]
  intro c hc
  have hd := depth_of_mem_children h hc
  have hle := depth_le_size h (h.lt_size_of_child hc)
  omega

/-- What holds of a node whenever it holds of its children holds of every node. -/
theorem WellFormed.induction_down {P : NodeId → Prop}
    (step : ∀ a < f.size, (∀ c ∈ f.children a, P c) → P a) (ha : a < f.size) : P a := by
  obtain ⟨n, hn⟩ : ∃ n, n = f.size - f.depth a := ⟨_, rfl⟩
  induction n using Nat.strongRecOn generalizing a with
  | ind n ih =>
    refine step a ha fun c hc => ih (f.size - f.depth c) ?_ (h.lt_size_of_child hc) rfl
    have hd := depth_of_mem_children h hc
    have hle := depth_le_size h (h.lt_size_of_child hc)
    omega

/-! ### Trees -/

theorem treeTo_succ {n : Nat} (ha : a < f.size) (hn : f.size ≤ n + f.depth a) :
    f.treeTo (n + 1) a = f.treeTo n a := by
  induction n generalizing a with
  | zero =>
    simp [treeTo, children_of_size_le_depth h (by omega : f.size ≤ f.depth a), Tree.leaf]
  | succ n ih =>
    rw [treeTo, treeTo]
    congr 1
    refine List.map_congr_left fun c hc => ih (h.lt_size_of_child hc) ?_
    have hd := depth_of_mem_children h hc
    omega

theorem treeTo_eq_tree {n : Nat} (ha : a < f.size) (hn : f.size ≤ n) :
    f.treeTo n a = f.tree a := by
  induction hn with
  | refl => rfl
  | step hn ih => rw [treeTo_succ h ha (Nat.le_add_right_of_le hn), ih]

theorem tree_eq (ha : a < f.size) : f.tree a = .node a ((f.children a).map f.tree) := by
  rw [← treeTo_eq_tree h ha (Nat.le_succ f.size), treeTo]
  rfl

theorem labelTree_eq (ha : a < f.size) :
    f.labelTree a = .node (f.label a) ((f.children a).map f.labelTree) := by
  rw [labelTree, tree_eq h ha, Tree.map_node, List.map_map]
  rfl

end Depth

theorem label_labelTree (f : Forest) (a : NodeId) : (f.labelTree a).label = f.label a := by
  rw [labelTree, Tree.label_map]
  unfold tree
  cases f.size with
  | zero => rfl
  | succ n => rfl

/-- Two forests that agree on a set of nodes that no child list leaves have the same subtrees
there. -/
theorem labelTree_congr {S : NodeId → Prop} (hf : f.WellFormed) (hg : g.WellFormed)
    (hclosed : ∀ x, S x → ∀ c ∈ f.children x, S c)
    (hchildren : ∀ x, S x → g.children x = f.children x)
    (hlabel : ∀ x, S x → g.label x = f.label x) (ha : S a) (hlt : a < f.size)
    (hsize : f.size ≤ g.size) : g.labelTree a = f.labelTree a := by
  revert ha
  refine hf.induction_down (P := fun a => S a → g.labelTree a = f.labelTree a)
    (fun a hlt ih ha => ?_) hlt
  rw [labelTree_eq hf hlt, labelTree_eq hg (Nat.lt_of_lt_of_le hlt hsize), hlabel a ha,
    hchildren a ha]
  congr 1
  exact List.map_congr_left fun c hc => ih c hc (hclosed a ha c hc)

end GrammarTrees.Forest
