import GrammarTrees.Proofs.Forest.NewTrees
import Mathlib.Data.Set.Card

/-! Copies of subtrees. A copy is made node by node in the forest that is copied from: the copies of
the children are made after that of their parent, and each is hung below it when it is complete. No
step of this is refused, as the nodes of the copy stand apart from those that are read. -/

namespace GrammarTrees.Forest

variable {f g : Forest} {a id parent x : Nat}

/-! ### Node by node -/

/-- Copies `child` and hangs the copy below `parent`. -/
def pushCopy (copy : Forest → NodeId → Except EditFault (Forest × NodeId)) (parent : NodeId)
    (f : Forest) (child : NodeId) : Except EditFault Forest := do
  let made ← copy f child
  made.1.pushChild parent made.2

/-- A copy of the subtree of a node down to `depth` levels below it. -/
def copyTo (f : Forest) : (depth : Nat) → NodeId → Except EditFault (Forest × NodeId)
  | 0, id => .ok (f.copyNode id)
  | depth + 1, id => do
    let made := f.copyNode id
    let g ← (made.1.children id).foldlM (pushCopy (fun g => g.copyTo depth) made.2) made.1
    return (g, made.2)

/-- Children whose copies are hung below a new node one after the other are planted there. -/
theorem foldlM_pushCopy {copy : Forest → NodeId → Except EditFault (Forest × NodeId)}
    (hg : f.Grown g) (hnew : f.size ≤ parent) (hlt : parent < g.size) {cs : List NodeId}
    (hcopy : ∀ c ∈ cs, ∀ k : Forest, f.Grown k → copy k c = .ok (k.plant (f.labelTree c))) :
    cs.foldlM (pushCopy copy parent) g = .ok (g.plantBelow parent (cs.map f.labelTree)) := by
  induction cs generalizing g with
  | nil => rfl
  | cons c cs ih =>
    rw [List.forall_mem_cons] at hcopy
    have hplanted := planted_plant hg.wellFormed (f.labelTree c)
    obtain ⟨hbelow, -⟩ := hplanted.link hg.wellFormed hlt rfl
    have hpushed : pushCopy copy parent g c = .ok ((g.plant (f.labelTree c)).1.link parent
        (g.plant (f.labelTree c)).2 ((g.plant (f.labelTree c)).1.childCount parent)) := by
      rw [pushCopy, hcopy.1 g hg]
      exact hplanted.pushChild_eq_link hg.wellFormed hlt
    rw [List.foldlM_cons, hpushed, List.map_cons, plantBelow]
    exact ih (hbelow.grown hg hnew) (Nat.lt_of_lt_of_le hlt hbelow.size_le) hcopy.2

/-- A copy that goes down far enough plants the tree of the node. -/
theorem copyTo_eq {depth : Nat} (hf : f.WellFormed) (hg : f.Grown g) (ha : a < f.size)
    (hdepth : f.size ≤ depth + f.depth a) : g.copyTo depth a = .ok (g.plant (f.labelTree a)) := by
  induction depth generalizing g a with
  | zero =>
    have hnil := children_of_size_le_depth hf (by omega : f.size ≤ f.depth a)
    rw [labelTree_eq hf ha, hnil, copyTo, copyNode, hg.label ha]
    rfl
  | succ depth ih =>
    have hgrown : f.Grown (g.alloc (f.label a)).1 := hg.trans (.alloc hg.wellFormed _)
    have hlt : g.size < (g.alloc (f.label a)).1.size := by
      rw [size_alloc]
      exact Nat.lt_succ_self _
    have hcopies : (f.children a).foldlM (pushCopy (fun k => k.copyTo depth) g.size)
        (g.alloc (f.label a)).1 =
          .ok ((g.alloc (f.label a)).1.plantBelow g.size ((f.children a).map f.labelTree)) := by
      refine foldlM_pushCopy hgrown hg.size_le hlt fun c hc k hk => ?_
      have hd := depth_of_mem_children hf hc
      exact ih hk (hf.lt_size_of_child hc) (by omega)
    rw [labelTree_eq hf ha, copyTo, copyNode, hg.label ha, plant]
    simp only [children_alloc, hg.children ha, alloc_snd, hcopies]
    rfl

/-! ### The copy -/

theorem ncard_within (hf : f.WellFormed) (ha : a < f.size) :
    {x | f.Within x a}.ncard = (f.tree a).preorder.length := by
  have hset : {x | f.Within x a} = ((f.tree a).preorder.toFinset : Set Nat) := by
    ext x
    rw [Set.mem_ofPred_eq, Finset.mem_coe, List.mem_toFinset, mem_preorder_tree hf ha]
  rw [hset, Set.ncard_coe_finset, List.toFinset_card_of_nodup (nodup_preorder_tree hf ha)]

/-- `g` is `f` with a copy of the subtree of `id`, a tree of its own at `copy`. -/
structure Copied (f g : Forest) (id copy : NodeId) : Prop where
  wellFormed : g.WellFormed
  isRoot : g.parent? copy = none
  /-- Every label is copied, and so is the shape. -/
  labelTree : g.labelTree copy = f.labelTree id
  /-- The copy consists of all new nodes. -/
  within_iff : ∀ x, g.Within x copy ↔ f.size ≤ x ∧ x < g.size
  /-- There are as many new nodes as the subtree has. -/
  size : g.size = f.size + {x | f.Within x id}.ncard
  /-- The nodes from before keep all their data. -/
  node : ∀ x < f.size, g.node x = f.node x

/-- Copying a subtree node by node is never refused. It leaves what it copies alone, and makes a new
tree that says the same at every node. -/
theorem copyTree_copied (h : f.WellFormed) (hid : id < f.size) :
    (∀ depth, f.size ≤ depth → f.copyTo depth id = .ok (f.copyTree id)) ∧
      f.Copied (f.copyTree id).1 id (f.copyTree id).2 := by
  have hplanted := planted_copyTree h id
  have hsize : (f.copyTree id).1.size = f.size + {x | f.Within x id}.ncard := by
    rw [copyTree, size_plant, length_preorder_labelTree, ncard_within h hid]
  exact ⟨fun _ hdepth => copyTo_eq h (.refl h) hid (Nat.le_add_right_of_le hdepth),
    ⟨hplanted.wellFormed, hplanted.isRoot, hplanted.labelTree_root,
      fun x => within_plant_iff h (f.labelTree id), hsize, hplanted.node⟩⟩

/-- A rule whose block was read at the third line and belongs to a grammar. -/
def placedRule : Forest := (empty.plant (.node (.ofKind .rule)
  [.leaf (.make .ruleRef "r"),
    .node { Label.ofKind .block with position := ⟨3, 5⟩, owner := some 1 }
      [.node (.ofKind .alt) [.leaf (.make .ruleRef "a")]],
    .leaf (.make .action "end")])).1

/-- The block is copied from between its siblings. -/
theorem copyTree_copied_block :
    placedRule.Copied (placedRule.copyTree 2).1 2 6 ∧ (placedRule.copyTree 2).1.size = 9 ∧
      (placedRule.copyTree 2).1.children 6 = [7] ∧ (placedRule.copyTree 2).1.owner 6 = some 1 := by
  have h : placedRule.WellFormed := wellFormed_plant_empty _
  exact ⟨(copyTree_copied h (by decide +kernel)).2, by decide +kernel, by decide +kernel,
    by decide +kernel⟩

end GrammarTrees.Forest
