import GrammarTrees.Proofs.Forest.Gathering
import GrammarTrees.Proofs.Forest.Walks

/-! How many nodes a new tree takes, and how new nodes stand beside the old ones. As many nodes are
made as the tree has labels, so every new node belongs to it. -/

namespace GrammarTrees

namespace Forest

open Relation

variable {f g : Forest} {a x y root : Nat} {t : Tree Label}

/-! ### Counting -/

mutual

/-- A tree takes one node for each of its labels. -/
theorem size_plant (f : Forest) : (t : Tree Label) →
    (f.plant t).1.size = f.size + t.preorder.length
  | .node l ts => by
    rw [plant, size_plantBelow, size_alloc, Tree.preorder, List.length_cons]
    omega

theorem size_plantBelow (f : Forest) (parent : NodeId) : (ts : List (Tree Label)) →
    (f.plantBelow parent ts).size = f.size + (Tree.preorderAll ts).length
  | [] => rfl
  | t :: ts => by
    rw [plantBelow, size_plantBelow, size_link, size_plant f t, Tree.preorderAll,
      List.length_append, Nat.add_assoc]

end

theorem length_preorder_labelTree (f : Forest) (a : NodeId) :
    (f.labelTree a).preorder.length = (f.tree a).preorder.length := by
  rw [labelTree, Tree.preorder_map, List.length_map]

/-- Where as many nodes were made as a new tree has labels, the new nodes are those of the tree. -/
theorem Planted.within_iff (hf : f.WellFormed) (hg : f.Planted g root t)
    (hsize : g.size = f.size + t.preorder.length) :
    g.Within x root ↔ f.size ≤ x ∧ x < g.size := by
  have hwithin : ∀ {x}, x ∈ (g.tree root).preorder ↔ g.Within x root :=
    mem_preorder_tree hg.wellFormed hg.root_lt
  have hnew : (g.tree root).preorder ⊆ List.range' f.size t.preorder.length := by
    intro x hx
    rw [hwithin] at hx
    rw [List.mem_range'_1, ← hsize]
    exact ⟨hg.size_le_of_within hf hx, hx.lt_size hg.root_lt⟩
  have hlength : (g.tree root).preorder.length = t.preorder.length := by
    rw [← length_preorder_labelTree, hg.labelTree_root]
  have hperm : (g.tree root).preorder.Perm (List.range' f.size t.preorder.length) :=
    (List.subperm_of_subset (nodup_preorder_tree hg.wellFormed hg.root_lt) hnew).perm_of_length_le
      (Nat.le_of_eq (List.length_range'.trans hlength.symm))
  rw [← hwithin, hperm.mem_iff, List.mem_range'_1, ← hsize]

theorem within_plant_iff (hf : f.WellFormed) (t : Tree Label) :
    (f.plant t).1.Within x (f.plant t).2 ↔ f.size ≤ x ∧ x < (f.plant t).1.size :=
  (planted_plant hf t).within_iff hf (size_plant f t)

/-! ### Roots -/

/-- The way up from a node ends at a root. -/
theorem WellFormed.exists_root (h : f.WellFormed) (ha : a < f.size) :
    ∃ root, f.parent? root = none ∧ f.Within a root := by
  obtain ⟨n, hn⟩ : ∃ n, n = f.depth a := ⟨_, rfl⟩
  induction n using Nat.strongRecOn generalizing a with
  | ind n ih =>
    cases hp : f.parent? a with
    | none => exact ⟨a, hp, .refl f a⟩
    | some p =>
      have hdepth := depth_of_mem_children h (h.mem_children.mpr hp)
      obtain ⟨root, hroot, hw⟩ := ih (f.depth p) (by omega) (h.lt_size_of_parent hp) rfl
      exact ⟨root, hroot, .of_parent hp hw⟩

namespace Grown

variable (hf : f.WellFormed) (hg : f.Grown g)
include hf hg

/-- No tree has both old and new nodes. -/
theorem lt_size_iff_of_within (hxy : g.Within x y) : x < f.size ↔ y < f.size := by
  constructor
  · intro hx
    exact hf.within_lt_size (hg.within hf hx hxy) hx
  · intro hy
    induction hxy using ReflTransGen.head_induction_on with
    | refl => exact hy
    | @head a c hac _ ih =>
      have hmem := hg.wellFormed.mem_children.mpr hac
      rw [hg.children ih] at hmem
      exact hf.lt_size_of_child hmem

/-- A new node belongs to a new tree. -/
theorem exists_new_root (hx : f.size ≤ x) (hlt : x < g.size) :
    ∃ root, f.size ≤ root ∧ g.parent? root = none ∧ g.Within x root := by
  obtain ⟨root, hroot, hw⟩ := hg.wellFormed.exists_root hlt
  refine ⟨root, ?_, hroot, hw⟩
  by_contra hlt
  exact Nat.not_lt.mpr hx ((hg.lt_size_iff_of_within hf hw).mpr (Nat.lt_of_not_le hlt))

end Grown

end Forest

end GrammarTrees
