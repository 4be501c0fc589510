import GrammarTrees.Forest.Copy
import GrammarTrees.Proofs.Forest.Edits
import GrammarTrees.Proofs.Forest.Subtrees

/-! Adding trees of labels to a forest, and copying subtrees: the nodes from before keep all their
data, and the new ones form a tree of their own with the given labels. -/

namespace GrammarTrees.Forest

open Relation

variable {f g : Forest} {a b parent root : Nat}

/-! ### New nodes and new labels -/

/-- Forests with the same links are well-formed together. -/
theorem WellFormed.congr (h : f.WellFormed) (hchildren : ∀ x, g.children x = f.children x)
    (hparent : ∀ x, g.parent? x = f.parent? x) (hindex : ∀ x, g.childIndex x = f.childIndex x) :
    g.WellFormed := by
  have hab : g.HangsBelow = f.HangsBelow := by
    funext a b
    rw [HangsBelow, HangsBelow, hparent]
  refine .of_listed (fun p i c hc => ?_) (fun c p hc => ?_) (fun c hc => ?_) fun a haa => ?_
  · rw [child?, hchildren] at hc
    rw [hparent, hindex]
    exact (h.links p i c).mp hc
  · rw [hparent] at hc
    rw [hchildren]
    exact h.mem_children.mpr hc
  · rw [hparent] at hc
    rw [hindex]
    exact h.rootIndex c hc
  · rw [hab] at haa
    exact h.acyclic a haa

theorem WellFormed.alloc (h : f.WellFormed) (l : Label) : (f.alloc l).1.WellFormed :=
  h.congr (children_alloc f l) (parent?_alloc f l) (childIndex_alloc f l)

theorem WellFormed.relabel (h : f.WellFormed) (id : NodeId) (k : Label → Label) :
    (f.relabel id k).WellFormed :=
  h.congr (children_relabel f id k) (parent?_relabel f id k) (childIndex_relabel f id k)

theorem WellFormed.empty : Forest.empty.WellFormed := by
  have hnone : ∀ c, Forest.empty.parent? c = none := fun c =>
    parent?_of_size_le (Nat.zero_le c)
  have hnil : ∀ p, Forest.empty.children p = [] := fun p =>
    children_of_size_le (Nat.zero_le p)
  refine .of_listed (fun p i c hc => ?_) (fun c p hc => ?_) (fun c _ => ?_) fun a haa => ?_
  · simp [child?, hnil] at hc
  · simp [hnone] at hc
  · rw [childIndex, node_of_size_le (Nat.zero_le c)]
    rfl
  · obtain ⟨p, hp, -⟩ := TransGen.head'_iff.mp haa
    simp [HangsBelow, hnone] at hp

/-! ### Grown forests -/

/-- `g` is `f` with further nodes: those from before keep all their data. -/
structure Grown (f g : Forest) : Prop where
  wellFormed : g.WellFormed
  size_le : f.size ≤ g.size
  node : ∀ x < f.size, g.node x = f.node x

namespace Grown

theorem refl (h : f.WellFormed) : f.Grown f := ⟨h, Nat.le_refl _, fun _ _ => rfl⟩

theorem alloc (h : f.WellFormed) (l : Label) : f.Grown (f.alloc l).1 :=
  ⟨h.alloc l, by simp, fun _ hx => node_alloc_of_ne (Nat.ne_of_lt hx) l⟩

variable (hg : f.Grown g)
include hg

theorem trans {k : Forest} (hk : g.Grown k) : f.Grown k :=
  ⟨hk.wellFormed, Nat.le_trans hg.size_le hk.size_le, fun x hx =>
    (hk.node x (Nat.lt_of_lt_of_le hx hg.size_le)).trans (hg.node x hx)⟩

theorem label (ha : a < f.size) : g.label a = f.label a := by
  rw [Forest.label, hg.node a ha, ← Forest.label]

theorem children (ha : a < f.size) : g.children a = f.children a := by
  rw [Forest.children, hg.node a ha, ← Forest.children]

theorem parent? (ha : a < f.size) : g.parent? a = f.parent? a := by
  rw [Forest.parent?, hg.node a ha, ← Forest.parent?]

/-- A way up from an old node meets old nodes only. -/
theorem within (hf : f.WellFormed) (ha : a < f.size) (hab : g.Within a b) : f.Within a b := by
  induction hab using ReflTransGen.head_induction_on with
  | refl => exact .refl f _
  | head hp _ ih =>
    rw [HangsBelow, hg.parent? ha] at hp
    exact .of_parent hp (ih (hf.lt_size_of_parent hp))

theorem size_le_of_mem_children (hf : f.WellFormed) (hb : b ∈ g.children a) (ha : f.size ≤ a) :
    f.size ≤ b := by
  by_contra hlt
  have hp := hg.wellFormed.mem_children.mp hb
  rw [hg.parent? (Nat.lt_of_not_le hlt)] at hp
  exact Nat.not_lt.mpr ha (hf.lt_size_of_parent hp)

theorem labelTree (hf : f.WellFormed) (ha : a < f.size) : g.labelTree a = f.labelTree a :=
  labelTree_congr (S := fun x => x < f.size) hf hg.wellFormed
    (fun _ _ _ hc => hf.lt_size_of_child hc) (fun _ hx => hg.children hx)
    (fun _ hx => hg.label hx) ha ha hg.size_le

end Grown

/-! ### Planting -/

theorem link_last (hp : parent < f.size) (ha : a ≠ parent) (hb : a ≠ b) :
    (f.link parent b (f.childCount parent)).node a = f.node a := by
  have hdrop : ((f.children parent) ++ [b]).drop (f.childCount parent) = [b] := by
    simp [childCount]
  rw [link, numberFrom, children_setChildren hp, if_pos rfl, childCount, List.insertIdx_length_self,
    ← childCount, hdrop, placeAll, placeAll, node_setPlace_of_ne hb, setChildren,
    node_modify_of_ne ha]

theorem plantBelow_append (f : Forest) (parent : NodeId) (ts us : List (Tree Label)) :
    f.plantBelow parent (ts ++ us) = (f.plantBelow parent ts).plantBelow parent us := by
  induction ts generalizing f with
  | nil => rfl
  | cons t ts ih => rw [List.cons_append, plantBelow, ih, plantBelow]

/-- `g` is `f` with a new tree `t` at `root`. -/
structure Planted (f g : Forest) (root : NodeId) (t : Tree Label) : Prop extends Grown f g where
  root_eq : root = f.size
  root_lt : root < g.size
  isRoot : g.parent? root = none
  labelTree_root : g.labelTree root = t

/-- `g` is `f` with new trees below `parent`, after its other children. -/
structure PlantedBelow (f g : Forest) (parent : NodeId) (ts : List (Tree Label)) : Prop where
  wellFormed : g.WellFormed
  size_le : f.size ≤ g.size
  node : ∀ x < f.size, x ≠ parent → g.node x = f.node x
  label_parent : g.label parent = f.label parent
  parent?_parent : g.parent? parent = f.parent? parent
  children_parent : ∃ roots, g.children parent = f.children parent ++ roots ∧
    roots.map g.labelTree = ts

theorem Planted.attachable {t : Tree Label} (hf : f.WellFormed) (hp : parent < f.size)
    (hg : f.Planted g root t) : g.Attachable parent root := by
  refine ⟨hg.isRoot, hg.root_lt, Nat.lt_of_lt_of_le hp hg.size_le, fun hw => ?_⟩
  have hlt := hf.within_lt_size (hg.toGrown.within hf hp hw) hp
  rw [hg.root_eq] at hlt
  exact Nat.lt_irrefl _ hlt

theorem Planted.link {k : Forest} {t : Tree Label} (hf : f.WellFormed) (hp : parent < f.size)
    (hg : f.Planted g root t) (hk : k = g.link parent root (g.childCount parent)) :
    f.PlantedBelow k parent [t] ∧ k.size = g.size ∧
      k.children parent = f.children parent ++ [root] ∧
      ∀ x, x ≠ parent → k.children x = g.children x := by
  subst hk
  have hpg : parent < g.size := Nat.lt_of_lt_of_le hp hg.size_le
  have ha := hg.attachable hf hp
  have hwf := hg.wellFormed.link ha (Nat.le_refl _)
  have hchildren : ∀ x, x ≠ parent →
      (g.link parent root (g.childCount parent)).children x = g.children x := fun x hx => by
    rw [children_link hpg, if_neg hx]
  have hparent : (g.link parent root (g.childCount parent)).children parent =
      f.children parent ++ [root] := by
    rw [children_link hpg, if_pos rfl, childCount, List.insertIdx_length_self,
      hg.toGrown.children hp]
  have hroot : parent ≠ root := by
    rw [hg.root_eq]
    exact Nat.ne_of_lt hp
  refine ⟨⟨hwf, ?_, fun x hx hne => ?_, ?_, ?_, [root], hparent, ?_⟩, size_link .., hparent,
    hchildren⟩
  · rw [size_link]
    exact hg.size_le
  · rw [link_last hpg hne (hg.root_eq ▸ Nat.ne_of_lt hx), hg.node x hx]
  · rw [label_link, hg.toGrown.label hp]
  · rw [parent?_link hg.wellFormed ha (Nat.le_refl _), if_neg hroot, hg.toGrown.parent? hp]
  · have hlabel : (g.link parent root (g.childCount parent)).labelTree root = g.labelTree root :=
      labelTree_congr (S := fun x => f.size ≤ x) hg.wellFormed hwf
        (fun x hx c hc => hg.toGrown.size_le_of_mem_children hf hc hx)
        (fun x hx => hchildren x (Nat.ne_of_gt (Nat.lt_of_lt_of_le hp hx)))
        (fun x _ => label_link ..) (Nat.le_of_eq hg.root_eq.symm) hg.root_lt
        (Nat.le_of_eq (size_link ..).symm)
    rw [List.map_singleton, hlabel, hg.labelTree_root]

/-- A new tree may be hung below a node from before. -/
theorem Planted.pushChild_eq_link {t : Tree Label} (hf : f.WellFormed) (hp : parent < f.size)
    (hg : f.Planted g root t) :
    g.pushChild parent root = .ok (g.link parent root (g.childCount parent)) := by
  rw [Forest.pushChild, detach_of_root hg.isRoot]
  exact attach_eq_ok hg.wellFormed (hg.attachable hf hp) (Nat.le_refl _)

theorem Planted.pushChild {t : Tree Label} (hf : f.WellFormed) (hp : parent < f.size)
    (hg : f.Planted g root t) :
    ∃ k, g.pushChild parent root = .ok k ∧ f.PlantedBelow k parent [t] ∧ k.size = g.size ∧
      k.children parent = f.children parent ++ [root] ∧
      ∀ x, x ≠ parent → k.children x = g.children x :=
  ⟨g.link parent root (g.childCount parent), hg.pushChild_eq_link hf hp, hg.link hf hp rfl⟩

namespace PlantedBelow

variable {ts us : List (Tree Label)}

theorem refl (h : f.WellFormed) (parent : NodeId) : f.PlantedBelow f parent [] :=
  ⟨h, Nat.le_refl _, fun _ _ _ => rfl, rfl, rfl, [], by simp, rfl⟩

theorem parent?_eq (hg : f.PlantedBelow g parent ts) (ha : a < f.size) :
    g.parent? a = f.parent? a := by
  by_cases hne : a = parent
  · rw [hne, hg.parent?_parent]
  · rw [Forest.parent?, hg.node a ha hne, ← Forest.parent?]

/-- The tree planted below a node is its last child. -/
theorem last {t : Tree Label} (hg : f.PlantedBelow g parent [t])
    (hb : g.children parent = f.children parent ++ [b]) :
    g.label b = t.label ∧ (g.children b).map g.labelTree = t.children := by
  obtain ⟨roots, hroots, htrees⟩ := hg.children_parent
  obtain rfl : [b] = roots := List.append_cancel_left (hb.symm.trans hroots)
  have hlt : b < g.size := by
    apply hg.wellFormed.lt_size_of_child
    rw [hb]
    simp
  rw [← (List.cons.inj htrees).1, labelTree_eq hg.wellFormed hlt]
  exact ⟨rfl, rfl⟩

theorem label_eq (hg : f.PlantedBelow g parent ts) (ha : a < f.size) : g.label a = f.label a := by
  by_cases hne : a = parent
  · rw [hne, hg.label_parent]
  · rw [Forest.label, hg.node a ha hne, ← Forest.label]

theorem children_eq (hg : f.PlantedBelow g parent ts) (ha : a < f.size) (hne : a ≠ parent) :
    g.children a = f.children a := by
  rw [Forest.children, hg.node a ha hne, ← Forest.children]

section Parts

variable (hf : f.WellFormed) (hg : f.PlantedBelow g parent ts)
include hf hg

theorem size_le_of_mem_children (hb : b ∈ g.children a) (ha : f.size ≤ a) : f.size ≤ b := by
  by_contra hlt
  have hba := hg.wellFormed.mem_children.mp hb
  rw [hg.parent?_eq (Nat.lt_of_not_le hlt)] at hba
  exact Nat.not_lt.mpr ha (hf.lt_size_of_parent hba)

theorem size_le_of_mem_roots {roots : List NodeId}
    (hroots : g.children parent = f.children parent ++ roots) (hb : b ∈ roots) : f.size ≤ b := by
  by_contra hlt
  have hbp := hg.wellFormed.mem_children.mp (hroots ▸ List.mem_append_right _ hb)
  rw [hg.parent?_eq (Nat.lt_of_not_le hlt)] at hbp
  have hnodup := hg.wellFormed.nodup_children parent
  rw [hroots] at hnodup
  exact List.disjoint_of_nodup_append hnodup (hf.mem_children.mpr hbp) hb

end Parts

theorem trans {k : Forest} (hf : f.WellFormed) (hp : parent < f.size)
    (hg : f.PlantedBelow g parent ts) (hk : g.PlantedBelow k parent us) :
    f.PlantedBelow k parent (ts ++ us) := by
  obtain ⟨roots, hroots, hts⟩ := hg.children_parent
  obtain ⟨roots', hroots', hus⟩ := hk.children_parent
  have hkeep : ∀ x < g.size, f.size ≤ x → k.node x = g.node x := fun x hx hle =>
    hk.node x hx (Nat.ne_of_gt (Nat.lt_of_lt_of_le hp hle))
  have hlabels : roots.map k.labelTree = roots.map g.labelTree := by
    refine List.map_congr_left fun r hr => ?_
    have hmem : r ∈ g.children parent := hroots ▸ List.mem_append_right _ hr
    refine labelTree_congr (S := fun x => x < g.size ∧ f.size ≤ x) hg.wellFormed hk.wellFormed
      (fun x hx c hc => ⟨hg.wellFormed.lt_size_of_child hc,
        hg.size_le_of_mem_children hf hc hx.2⟩)
      (fun x hx => ?_) (fun x hx => ?_)
      ⟨hg.wellFormed.lt_size_of_child hmem, hg.size_le_of_mem_roots hf hroots hr⟩
      (hg.wellFormed.lt_size_of_child hmem) hk.size_le
    · rw [Forest.children, hkeep x hx.1 hx.2, ← Forest.children]
    · rw [Forest.label, hkeep x hx.1 hx.2, ← Forest.label]
  refine ⟨hk.wellFormed, Nat.le_trans hg.size_le hk.size_le, fun x hx hne => ?_, ?_, ?_,
    roots ++ roots', ?_, ?_⟩
  · rw [hk.node x (Nat.lt_of_lt_of_le hx hg.size_le) hne, hg.node x hx hne]
  · rw [hk.label_parent, hg.label_parent]
  · rw [hk.parent?_parent, hg.parent?_parent]
  · rw [hroots', hroots, List.append_assoc]
  · rw [List.map_append, hlabels, hts, hus]

end PlantedBelow

/-! ### Trees planted below new nodes -/

section Extending

variable {k : Forest} {l : Label} {ts us : List (Tree Label)}

theorem PlantedBelow.grown (hg : f.Grown g) (hp : f.size ≤ parent)
    (hk : g.PlantedBelow k parent ts) : f.Grown k := by
  refine ⟨hk.wellFormed, Nat.le_trans hg.size_le hk.size_le, fun x hx => ?_⟩
  rw [hk.node x (Nat.lt_of_lt_of_le hx hg.size_le) (by omega), hg.node x hx]

/-- A planted tree with further trees below its root. -/
theorem Planted.extend (hg : f.Planted g root (.node l ts))
    (hk : g.PlantedBelow k root us) : f.Planted k root (.node l (ts ++ us)) := by
  have hlt := Nat.lt_of_lt_of_le hg.root_lt hk.size_le
  refine ⟨hk.grown hg.toGrown (Nat.le_of_eq hg.root_eq.symm), hg.root_eq, hlt, ?_, ?_⟩
  · rw [hk.parent?_parent, hg.isRoot]
  have htree := hg.labelTree_root
  rw [labelTree_eq hg.wellFormed hg.root_lt] at htree
  obtain ⟨hlabel, hchildren⟩ := Tree.node.inj htree
  obtain ⟨roots, hroots, hus⟩ := hk.children_parent
  have hold : (g.children root).map k.labelTree = (g.children root).map g.labelTree := by
    refine List.map_congr_left fun c hc => ?_
    have hclt := hg.wellFormed.lt_size_of_child hc
    refine labelTree_congr (S := fun x => x < g.size ∧ x ≠ root) hg.wellFormed hk.wellFormed
      (fun x hx d hd => ⟨hg.wellFormed.lt_size_of_child hd, ?_⟩)
      (fun x hx => hk.children_eq hx.1 hx.2) (fun x hx => hk.label_eq hx.1) ⟨hclt, ?_⟩ hclt
      hk.size_le
    · rintro rfl
      exact hg.wellFormed.not_mem_children_of_root hg.isRoot hd
    · rintro rfl
      exact hg.wellFormed.not_mem_children_of_root hg.isRoot hc
  rw [labelTree_eq hk.wellFormed hlt, hk.label_parent, hlabel, hroots, List.map_append, hold,
    hchildren, hus]

/-- A planted leaf with trees below it. -/
theorem PlantedBelow.extendLast (hf : f.WellFormed) (hp : parent < f.size)
    (hg : f.PlantedBelow g parent [.leaf l]) (hb : g.children parent = f.children parent ++ [b])
    (hk : g.PlantedBelow k b us) : f.PlantedBelow k parent [.node l us] := by
  have hbp : b ∈ g.children parent := by
    rw [hb]
    exact List.mem_append_right _ (List.mem_singleton_self b)
  have hblt := hg.wellFormed.lt_size_of_child hbp
  have hnew : f.size ≤ b :=
    hg.size_le_of_mem_roots hf hb (List.mem_singleton_self b)
  have hne : ∀ x < f.size, x ≠ b := fun x hx => Nat.ne_of_lt (Nat.lt_of_lt_of_le hx hnew)
  have hlt : ∀ x < f.size, x < g.size := fun x hx => Nat.lt_of_lt_of_le hx hg.size_le
  obtain ⟨hlabel, hnil⟩ := hg.last hb
  obtain ⟨roots, hroots, hus⟩ := hk.children_parent
  refine ⟨hk.wellFormed, Nat.le_trans hg.size_le hk.size_le, fun x hx hxp => ?_, ?_, ?_, [b], ?_,
    ?_⟩
  · rw [hk.node x (hlt x hx) (hne x hx), hg.node x hx hxp]
  · rw [hk.label_eq (hlt parent hp), hg.label_parent]
  · rw [hk.parent?_eq (hlt parent hp), hg.parent?_parent]
  · rw [hk.children_eq (hlt parent hp) (hne parent hp), hb]
  · rw [List.map_singleton, labelTree_eq hk.wellFormed (Nat.lt_of_lt_of_le hblt hk.size_le),
      hk.label_parent, hlabel, hroots, List.map_eq_nil_iff.mp hnil, List.nil_append, hus]
    rfl

end Extending

/-- A new node with trees planted below it is a planted tree. -/
theorem PlantedBelow.planted {l : Label} {ts : List (Tree Label)}
    (hg : (f.alloc l).1.PlantedBelow g f.size ts) : f.Planted g f.size (.node l ts) := by
  obtain ⟨roots, hroots, hts⟩ := hg.children_parent
  have hlt : f.size < g.size := Nat.lt_of_lt_of_le (by simp) hg.size_le
  refine ⟨⟨hg.wellFormed, Nat.le_of_lt hlt, fun x hx => ?_⟩, rfl, hlt, ?_, ?_⟩
  · rw [hg.node x (by rw [size_alloc]; exact Nat.lt_succ_of_lt hx) (Nat.ne_of_lt hx),
      node_alloc_of_ne (Nat.ne_of_lt hx)]
  · rw [hg.parent?_parent, parent?_alloc, parent?_of_size_le (Nat.le_refl _)]
  · rw [labelTree_eq hg.wellFormed hlt, hg.label_parent, label_alloc_self, hroots, children_alloc,
      children_of_size_le (Nat.le_refl _), List.nil_append, hts]

mutual

/-- `plant` adds a new tree with the given labels. -/
theorem planted_plant {f : Forest} (h : f.WellFormed) :
    (t : Tree Label) → f.Planted (f.plant t).1 (f.plant t).2 t
  | .node l ts => by
    rw [plant]
    exact (plantedBelow_plantBelow (h.alloc l) (by simp) ts).planted

theorem plantedBelow_plantBelow {f : Forest} {parent : NodeId} (h : f.WellFormed)
    (hp : parent < f.size) :
    (ts : List (Tree Label)) → f.PlantedBelow (f.plantBelow parent ts) parent ts
  | [] => .refl h parent
  | t :: ts => by
    obtain ⟨hlink, hsize, -⟩ := (planted_plant h t).link h hp rfl
    rw [plantBelow]
    refine hlink.trans h hp (plantedBelow_plantBelow hlink.wellFormed ?_ ts)
    rw [hsize]
    exact Nat.lt_of_lt_of_le hp (planted_plant h t).size_le

end

/-- A tree alone makes a well-formed forest. -/
theorem wellFormed_plant_empty (t : Tree Label) : (empty.plant t).1.WellFormed :=
  (planted_plant .empty t).wellFormed

theorem grown_plantAll (h : f.WellFormed) (trees : List (Tree Label)) :
    f.Grown (f.plantAll trees) := by
  unfold plantAll
  induction trees generalizing f with
  | nil => exact .refl h
  | cons t ts ih =>
    have hplanted := planted_plant h t
    exact hplanted.toGrown.trans (ih hplanted.wellFormed)

theorem planted_copyTree (h : f.WellFormed) (id : NodeId) :
    f.Planted (f.copyTree id).1 (f.copyTree id).2 (f.labelTree id) := planted_plant h _

end GrammarTrees.Forest
