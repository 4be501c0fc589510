import GrammarTrees.Proofs.Forest.Planting
import Mathlib.Data.List.InsertIdx

/-! Putting a tree in the place of another. Outside the subtree that is replaced, the child list of
its parent names the new root, and nothing else changes. What has been taken out stays as it is,
whatever happens later in its old place. -/

namespace GrammarTrees

/-! ### Trees of nodes -/

abbrev NodeTree := Tree (NodeId × Label)

def Tree.root (t : NodeTree) : NodeId := t.label.1

@[simp] theorem Tree.root_node (x : NodeId × Label) (ts : List NodeTree) :
    (node x ts).root = x.1 := rfl

namespace Forest

open Relation

variable {f g k : Forest} {a b c d p r x : Nat} {seen : NodeTree}

/-- The subtree of a node: which nodes it has, and what they say. -/
def nodeTree (f : Forest) (a : NodeId) : NodeTree := (f.tree a).map fun x => (x, f.label x)

theorem nodeTree_eq (h : f.WellFormed) (ha : a < f.size) :
    f.nodeTree a = .node (a, f.label a) ((f.children a).map f.nodeTree) := by
  rw [nodeTree, tree_eq h ha, Tree.map_node, List.map_map]
  rfl

theorem label_nodeTree (f : Forest) (a : NodeId) : (f.nodeTree a).label = (a, f.label a) := by
  rw [nodeTree, Tree.label_map]
  unfold tree
  cases f.size <;> rfl

@[simp] theorem root_nodeTree (f : Forest) (a : NodeId) : (f.nodeTree a).root = a := by
  rw [Tree.root, label_nodeTree]

/-- Forests that agree on nodes that no child list leaves have the same subtrees there. -/
theorem nodeTree_congr {S : NodeId → Prop} (hf : f.WellFormed) (hg : g.WellFormed)
    (hclosed : ∀ x, S x → ∀ c ∈ f.children x, S c)
    (hchildren : ∀ x, S x → g.children x = f.children x)
    (hlabel : ∀ x, S x → g.label x = f.label x) (ha : S a) (hlt : a < f.size)
    (hsize : f.size ≤ g.size) : g.nodeTree a = f.nodeTree a := by
  revert ha
  refine hf.induction_down (P := fun a => S a → g.nodeTree a = f.nodeTree a)
    (fun a hlt ih ha => ?_) hlt
  rw [nodeTree_eq hf hlt, nodeTree_eq hg (Nat.lt_of_lt_of_le hlt hsize), hlabel a ha,
    hchildren a ha]
  congr 1
  exact List.map_congr_left fun c hc => ih c hc (hclosed a ha c hc)

theorem Grown.nodeTree (hf : f.WellFormed) (hg : f.Grown g) (ha : a < f.size) :
    g.nodeTree a = f.nodeTree a :=
  nodeTree_congr (S := fun x => x < f.size) hf hg.wellFormed
    (fun _ _ _ hc => hf.lt_size_of_child hc) (fun _ hx => hg.children hx)
    (fun _ hx => hg.label hx) ha ha hg.size_le

/-! ### One node for another -/

/-- The node that stands where `x` stood once `r` has taken the place of `a`. -/
def swap (a r x : NodeId) : NodeId := if x = a then r else x

theorem map_swap_self (a : NodeId) (cs : List NodeId) : cs.map (swap a a) = cs := by
  refine List.map_id'' (fun x => ?_) cs
  rw [swap]
  split
  · exact Eq.symm ‹_›
  · rfl

theorem map_swap_of_not_mem {cs : List NodeId} (h : a ∉ cs) (r : NodeId) :
    cs.map (swap a r) = cs := by
  refine (List.map_congr_left fun x hx => ?_).trans (List.map_id cs)
  have hne : x ≠ a := by
    rintro rfl
    exact h hx
  rw [swap, if_neg hne]
  rfl

theorem map_swap_append {done cs : List NodeId} (h : (done ++ c :: cs).Nodup) (r : NodeId) :
    (done ++ c :: cs).map (swap c r) = done ++ r :: cs := by
  obtain ⟨hc, hrest⟩ := List.nodup_middle.mp h |> List.nodup_cons.mp
  rw [List.mem_append, not_or] at hc
  rw [List.map_append, List.map_cons, map_swap_of_not_mem hc.1, map_swap_of_not_mem hc.2, swap,
    if_pos rfl]

theorem set_eq_map_swap {cs : List NodeId} {i : Nat} (h : cs.Nodup) (hc : cs[i]? = some a)
    (r : NodeId) : cs.set i r = cs.map (swap a r) := by
  refine List.ext_getElem? fun j => ?_
  obtain ⟨hlt, -⟩ := List.getElem?_eq_some_iff.mp hc
  rw [List.getElem?_set, List.getElem?_map]
  by_cases hij : i = j
  · subst hij
    rw [if_pos rfl, if_pos hlt, hc, Option.map_some, swap, if_pos rfl]
  · rw [if_neg hij]
    cases hx : cs[j]? with
    | none => rfl
    | some x =>
      have hne : x ≠ a := by
        rintro rfl
        exact hij ((List.getElem?_inj hlt h).mp (hc.trans hx.symm))
      rw [Option.map_some, swap, if_neg hne]

/-- `g` is `f` with the tree of `r` in the place of `a`, which is taken from its parent. -/
structure Replaced (f g : Forest) (a r : NodeId) : Prop where
  wellFormed : g.WellFormed
  size : g.size = f.size
  label : ∀ x, g.label x = f.label x
  children : ∀ x, g.children x = (f.children x).map (swap a r)
  parent? : ∀ x, g.parent? x = if x = a then none else if x = r then f.parent? a else f.parent? x

theorem replaced_of_root (h : f.WellFormed) (ha : f.parent? a = none) (hr : f.parent? r = none) :
    f.Replaced f a r := by
  refine ⟨h, rfl, fun _ => rfl, fun x => ?_, fun x => ?_⟩
  · rw [map_swap_of_not_mem (h.not_mem_children_of_root ha)]
  · by_cases hxa : x = a
    · rw [if_pos hxa, hxa, ha]
    · by_cases hxr : x = r
      · rw [if_neg hxa, if_pos hxr, hxr, hr, ha]
      · rw [if_neg hxa, if_neg hxr]

/-- A root takes the place of a child at the index that the child had. -/
theorem replaced_insertChild (h : f.WellFormed) (hp : f.parent? a = some p)
    (hr : f.parent? r = none) (hlt : r < f.size) (hw : ¬ f.Within p r) :
    ∃ g, (f.detach a).insertChild p (f.childIndex a) r = .ok g ∧ f.Replaced g a r := by
  have hra : r ≠ a := by
    rintro rfl
    rw [hp] at hr
    simp at hr
  have hindex := h.getElem?_childIndex hp
  obtain ⟨hi, -⟩ := List.getElem?_eq_some_iff.mp hindex
  have herase : ∀ x, ((f.detach a).children x).erase r = (f.children x).erase a := by
    intro x
    rw [children_detach h, List.erase_of_not_mem]
    exact fun hmem => h.not_mem_children_of_root hr (List.mem_of_mem_erase hmem)
  have hle : f.childIndex a ≤ (((f.detach a).children p).erase r).length := by
    rw [herase, List.length_erase_of_mem (h.mem_children.mpr hp)]
    omega
  obtain ⟨g, hg, hmoved⟩ := insertChild_eq_ok (h.detach a) (by simpa using h.lt_size_of_parent hp)
    (by simpa using hlt) (fun hpr => hw (within_of_detach h hpr)) hle
  refine ⟨g, hg, hmoved.wellFormed, hmoved.size.trans (size_detach ..),
    fun x => (hmoved.label x).trans (label_detach ..), fun x => ?_, fun x => ?_⟩
  · rw [hmoved.children, herase, herase]
    split
    · rename_i hx
      rw [hx, ← eraseIdx_childIndex h hp, List.insertIdx_eraseIdx_self (Nat.ne_of_lt hi),
        set_eq_map_swap (h.nodup_children p) hindex]
    · rename_i hx
      have hnot : a ∉ f.children x := fun hmem =>
        hx (h.children_disjoint hmem (h.mem_children.mpr hp))
      rw [List.erase_of_not_mem hnot, map_swap_of_not_mem hnot]
  · rw [hmoved.parent?, parent?_detach h]
    by_cases hxr : x = r
    · subst hxr
      rw [if_pos rfl, if_neg hra, if_pos rfl, hp]
    · rw [if_neg hxr, if_neg hxr]

/-- There is one way to put a tree in the place of another. -/
theorem Replaced.unique (hg : f.Replaced g a r) (hk : f.Replaced k a r) : k = g := by
  have hchildren : ∀ x, k.children x = g.children x := fun x => by rw [hk.children, hg.children]
  refine eq_of_node (hk.size.trans hg.size.symm) fun x => ?_
  refine hg.wellFormed.node_eq hk.wellFormed (by rw [hk.label, hg.label]) (hchildren x)
    (by rw [hk.parent?, hg.parent?]) fun p _ => hchildren p

/-! ### Rewriting a subtree -/

/-- `g` is `f` with something else, whose root is `r`, in the place of the subtree of `a`. -/
structure Rewritten (f g : Forest) (a r : NodeId) : Prop where
  wellFormed : g.WellFormed
  size_le : f.size ≤ g.size
  root_lt : r < g.size
  old_or_new : r = a ∨ f.size ≤ r
  place : g.parent? r = f.parent? a
  label : ∀ x < f.size, g.label x = f.label x
  parent? : ∀ x < f.size, ¬ f.Within x a → g.parent? x = f.parent? x
  children : ∀ x < f.size, ¬ f.Within x a → g.children x = (f.children x).map (swap a r)

theorem Grown.rewritten (hg : f.Grown g) (ha : a < f.size) : f.Rewritten g a a :=
  ⟨hg.wellFormed, hg.size_le, Nat.lt_of_lt_of_le ha hg.size_le, .inl rfl, hg.parent? ha,
    fun _ hx => hg.label hx, fun _ hx _ => hg.parent? hx,
    fun x hx _ => by rw [map_swap_self, hg.children hx]⟩

theorem Rewritten.refl (h : f.WellFormed) (ha : a < f.size) : f.Rewritten f a a :=
  (Grown.refl h).rewritten ha

theorem Replaced.rewritten (hg : f.Grown g) (ha : a < f.size) (hnew : f.size ≤ r)
    (hlt : r < g.size) (hk : g.Replaced k a r) : f.Rewritten k a r := by
  have hra : r ≠ a := by omega
  refine ⟨hk.wellFormed, hk.size ▸ hg.size_le, hk.size ▸ hlt, .inr hnew, ?_, fun x hx => ?_,
    fun x hx hxa => ?_, fun x hx hxa => ?_⟩
  · rw [hk.parent?, if_neg hra, if_pos rfl, hg.parent? ha]
  · rw [hk.label, hg.label hx]
  · have hne : x ≠ a := by
      rintro rfl
      exact hxa (.refl f x)
    rw [hk.parent?, if_neg hne, if_neg (Nat.ne_of_lt (Nat.lt_of_lt_of_le hx hnew)), hg.parent? hx]
  · rw [hk.children, hg.children hx]

namespace Rewritten

variable (hf : f.WellFormed) (hg : f.Rewritten g a r)
include hf hg

/-- Outside, a child list may name the new root. All else stays. -/
theorem node (hx : x < f.size) (hxa : ¬ f.Within x a) :
    g.node x = { f.node x with children := (f.children x).map (swap a r) } := by
  have hindex : g.childIndex x = f.childIndex x := by
    cases hp : f.parent? x with
    | none => rw [hf.rootIndex x hp, hg.wellFormed.rootIndex x ((hg.parent? x hx hxa).trans hp)]
    | some p =>
      have hpa : ¬ f.Within p a := fun hpa => hxa (.of_parent hp hpa)
      have hne : x ≠ a := by
        rintro rfl
        exact hxa (.refl f x)
      have hlisted : g.child? p (f.childIndex x) = some x := by
        rw [child?, hg.children p (hf.lt_size_of_parent hp) hpa, List.getElem?_map,
          hf.getElem?_childIndex hp, Option.map_some, swap, if_neg hne]
      exact ((hg.wellFormed.links p _ x).mp hlisted).2
  calc g.node x = ⟨g.label x, g.children x, g.parent? x, g.childIndex x⟩ := rfl
    _ = ⟨f.label x, (f.children x).map (swap a r), f.parent? x, f.childIndex x⟩ := by
      rw [hg.label x hx, hg.children x hx hxa, hg.parent? x hx hxa, hindex]
    _ = { f.node x with children := (f.children x).map (swap a r) } := rfl

/-- Outside, the way up leads to the same nodes. -/
theorem within_of_within (hx : x < f.size) (hxa : ¬ f.Within x a) (hw : g.Within x b) :
    f.Within x b := by
  induction hw using ReflTransGen.head_induction_on with
  | refl => exact .refl f b
  | @head x q hxq _ ih =>
    have hp : f.parent? x = some q := (hg.parent? x hx hxa).symm.trans hxq
    exact .of_parent hp (ih (hf.lt_size_of_parent hp) fun hqa => hxa (.of_parent hp hqa))

theorem not_within_root (hx : x < f.size) (hxa : ¬ f.Within x a) : ¬ g.Within x r := by
  intro hw
  have hwf := hg.within_of_within hf hx hxa hw
  rcases hg.old_or_new with rfl | hnew
  · exact hxa hwf
  · have := hf.within_lt_size hwf hx
    omega

theorem new_or_within (hw : g.Within x r) : f.size ≤ x ∨ f.Within x a := by
  by_contra hnot
  rw [not_or, Nat.not_le] at hnot
  exact hg.not_within_root hf hnot.1 hnot.2 hw

theorem eq_or_within_of_root (hw : g.Within r d) :
    r = d ∨ ∃ q, f.parent? a = some q ∧ f.Within q d := by
  rcases within_iff.mp hw with he | ⟨q, hq, hqd⟩
  · exact .inl he
  · rw [hg.place] at hq
    exact .inr ⟨q, hq, hg.within_of_within hf (hf.lt_size_of_parent hq)
      (hf.not_within_of_parent hq) hqd⟩

theorem trans (hk : g.Rewritten k r b) : f.Rewritten k a b := by
  have hout : ∀ x < f.size, ¬ f.Within x a → x < g.size ∧ ¬ g.Within x r := fun x hx hxa =>
    ⟨Nat.lt_of_lt_of_le hx hg.size_le, hg.not_within_root hf hx hxa⟩
  refine ⟨hk.wellFormed, Nat.le_trans hg.size_le hk.size_le, hk.root_lt, ?_,
    hk.place.trans hg.place, fun x hx => ?_, fun x hx hxa => ?_, fun x hx hxa => ?_⟩
  · rcases hk.old_or_new with rfl | hnew
    · exact hg.old_or_new
    · exact .inr (Nat.le_trans hg.size_le hnew)
  · rw [hk.label x (Nat.lt_of_lt_of_le hx hg.size_le), hg.label x hx]
  · obtain ⟨hlt, hxr⟩ := hout x hx hxa
    rw [hk.parent? x hlt hxr, hg.parent? x hx hxa]
  · obtain ⟨hlt, hxr⟩ := hout x hx hxa
    rw [hk.children x hlt hxr, hg.children x hx hxa, List.map_map]
    refine List.map_congr_left fun c hc => ?_
    have hclt := hf.lt_size_of_child hc
    by_cases hca : c = a
    · simp [swap, hca]
    · have hcr : c ≠ r := by
        rcases hg.old_or_new with rfl | hnew
        · exact hca
        · exact Nat.ne_of_lt (Nat.lt_of_lt_of_le hclt hnew)
      simp [swap, hca, hcr]

/-- Rewriting the subtree of a child is rewriting that of its parent. -/
theorem of_child (hp : f.parent? a = some p) : f.Rewritten g p p := by
  have hplt := hf.lt_size_of_parent hp
  have hout : ∀ x, ¬ f.Within x p → ¬ f.Within x a ∧ a ∉ f.children x := fun x hxp =>
    ⟨fun hxa => hxp (hxa.trans (.of_parent hp (.refl f p))), fun hmem => hxp <| by
      rw [hf.children_disjoint hmem (hf.mem_children.mpr hp)]
      exact .refl f p⟩
  refine ⟨hg.wellFormed, hg.size_le, Nat.lt_of_lt_of_le hplt hg.size_le, .inl rfl, ?_, hg.label,
    fun x hx hxp => hg.parent? x hx (hout x hxp).1, fun x hx hxp => ?_⟩
  · exact hg.parent? p hplt (hf.not_within_of_parent hp)
  · rw [hg.children x hx (hout x hxp).1, map_swap_of_not_mem (hout x hxp).2, map_swap_self]

/-- A tree that the subtree of `a` is no part of, and that is no part of it, stays as it is. -/
theorem nodeTree (hd : d < f.size) (hda : ¬ f.Within d a) (had : ¬ f.Within a d) :
    g.nodeTree d = f.nodeTree d := by
  have hapart : ∀ x, f.Within x d → ¬ f.Within x a := fun x hxd hxa => by
    rcases hxd.total hxa with hw | hw
    · exact hda hw
    · exact had hw
  refine nodeTree_congr (S := fun x => f.Within x d) hf hg.wellFormed
    (fun x hx c hc => .of_parent (hf.mem_children.mp hc) hx) (fun x hx => ?_)
    (fun x hx => hg.label x (hx.lt_size hd)) (.refl f d) hd hg.size_le
  rw [hg.children x (hx.lt_size hd) (hapart x hx), map_swap_of_not_mem]
  intro hmem
  exact had (.of_parent (hf.mem_children.mp hmem) hx)

end Rewritten

/-! ### Trees that have been taken out -/

/-- The tree `seen` at the root `d` is not the one that `r` stands in. -/
structure TakenOut (f : Forest) (r d : NodeId) (seen : NodeTree) : Prop where
  lt_size : d < f.size
  isRoot : f.parent? d = none
  nodeTree : f.nodeTree d = seen
  apart : ¬ f.Within r d

namespace TakenOut

theorem parent (hd : f.TakenOut c d seen) (hp : f.parent? c = some p) : f.TakenOut p d seen :=
  ⟨hd.lt_size, hd.isRoot, hd.nodeTree, fun hpd => hd.apart (.of_parent hp hpd)⟩

/-- What happens in another tree later does not matter. -/
theorem step (hf : f.WellFormed) (hg : f.Rewritten g a r) (hd : f.TakenOut a d seen) :
    g.TakenOut r d seen := by
  have hda : ¬ f.Within d a := fun hda => hd.apart (hda.eq_of_root hd.isRoot ▸ .refl f a)
  refine ⟨Nat.lt_of_lt_of_le hd.lt_size hg.size_le, ?_, ?_, fun hrd => ?_⟩
  · rw [hg.parent? d hd.lt_size hda, hd.isRoot]
  · rw [hg.nodeTree hf hd.lt_size hda hd.apart, hd.nodeTree]
  · rcases hg.eq_or_within_of_root hf hrd with rfl | ⟨q, hq, hqd⟩
    · rcases hg.old_or_new with rfl | hnew
      · exact hd.apart (.refl f r)
      · exact Nat.not_lt.mpr hnew hd.lt_size
    · exact hd.apart (.of_parent hq hqd)

end TakenOut

/-- What takes the place of a subtree is as the visitor left it. -/
theorem Replaced.nodeTree_root (hf : f.WellFormed) (hg : f.Grown g) (ha : a < f.size)
    (hnew : f.size ≤ r) (hlt : r < g.size) (hk : g.Replaced k a r) :
    k.nodeTree r = g.nodeTree r := by
  refine nodeTree_congr (S := fun x => g.Within x r) hg.wellFormed hk.wellFormed
    (fun x hx c hc => .of_parent (hg.wellFormed.mem_children.mp hc) hx) (fun x hx => ?_)
    (fun x _ => hk.label x) (.refl g r) hlt (Nat.le_of_eq hk.size.symm)
  rw [hk.children, map_swap_of_not_mem]
  intro hmem
  have hw := hg.within hf ha (.of_parent (hg.wellFormed.mem_children.mp hmem) hx)
  exact Nat.not_lt.mpr hnew (hf.within_lt_size hw ha)

/-- The subtree that is replaced is taken out as it is. -/
theorem Replaced.takenOut (hf : f.WellFormed) (hg : f.Grown g) (ha : a < f.size)
    (hnew : f.size ≤ r) (hlt : r < g.size) (hk : g.Replaced k a r) :
    k.TakenOut r a (f.nodeTree a) := by
  have hag := Nat.lt_of_lt_of_le ha hg.size_le
  refine ⟨hk.size ▸ hag, by rw [hk.parent?, if_pos rfl], ?_, fun hra => ?_⟩
  · rw [← hg.nodeTree hf ha]
    refine nodeTree_congr (S := fun x => g.Within x a) hg.wellFormed hk.wellFormed
      (fun x hx c hc => .of_parent (hg.wellFormed.mem_children.mp hc) hx) (fun x hx => ?_)
      (fun x _ => hk.label x) (.refl g a) hag (Nat.le_of_eq hk.size.symm)
    rw [hk.children, map_swap_of_not_mem]
    intro hmem
    exact hg.wellFormed.not_within_of_parent (hg.wellFormed.mem_children.mp hmem) hx
  · rcases (hk.rewritten hg ha hnew hlt).eq_or_within_of_root hf hra with rfl | ⟨q, hq, hqa⟩
    · exact Nat.not_lt.mpr hnew ha
    · exact hf.not_within_of_parent hq hqa

end Forest

end GrammarTrees
