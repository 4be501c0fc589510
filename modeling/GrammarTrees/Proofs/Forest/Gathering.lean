import GrammarTrees.Proofs.Forest.Planting

/-! Moving several subtrees from one parent to another, and giving new trees to a grammar before
they are hung below old nodes. -/

namespace GrammarTrees.Forest

open Relation

variable {f g k : Forest} {parent source node index a b x : Nat} {nodes : List NodeId}

/-! ### Moving children together -/

theorem Moved.hangs (hg : f.Moved g parent node index) : g.parent? node = some parent := by
  rw [hg.parent?, if_pos rfl]

theorem Moved.parent?_of_ne (hg : f.Moved g parent node index) (hx : x ≠ node) :
    g.parent? x = f.parent? x := by
  rw [hg.parent?, if_neg hx]

/-- Hanging a tree of its own below a node changes no other children. -/
theorem Moved.children_of_free (hf : f.WellFormed) (hg : f.Moved g parent node index)
    (hfree : f.parent? node = none) (hx : x ≠ parent) : g.children x = f.children x := by
  rw [hg.children, if_neg hx, List.erase_of_not_mem (hf.not_mem_children_of_root hfree)]

/-- The way up from the new parent does not meet the node that was moved. -/
theorem Moved.within_of_within (hg : f.Moved g parent node index) (hw : g.Within parent b) :
    f.Within parent b := by
  induction hw with
  | refl => exact .refl f parent
  | @tail b c hb hbc ih =>
    have hne : b ≠ node := by
      intro he
      exact hg.wellFormed.not_within_of_parent hg.hangs (he ▸ hb)
    have hbc : g.parent? b = some c := hbc
    rw [hg.parent?_of_ne hne] at hbc
    exact ih.trans (.of_parent hbc (.refl f c))

/-- Only one node loses children when some of its children are taken away. -/
theorem filter_children_of_ne (h : f.WellFormed) (hnodes : ∀ n ∈ nodes, f.parent? n = some parent)
    (hx : x ≠ parent) : ((f.children x).filter fun c => decide (c ∉ nodes)) = f.children x := by
  rw [List.filter_eq_self]
  intro c hc
  rw [decide_eq_true_eq]
  intro hcn
  have hcx := h.mem_children.mp hc
  rw [hnodes c hcn] at hcx
  exact hx (Option.some.inj hcx).symm

/-- `g` is `f` with `nodes` moved to the end of the children of `parent`. -/
structure Collected (f g : Forest) (parent : NodeId) (nodes : List NodeId) : Prop where
  wellFormed : g.WellFormed
  size : g.size = f.size
  label : ∀ x, g.label x = f.label x
  children : ∀ x, g.children x =
    ((f.children x).filter fun c => decide (c ∉ nodes)) ++ if x = parent then nodes else []
  parent? : ∀ x, g.parent? x = if x ∈ nodes then some parent else f.parent? x

theorem Collected.refl (h : f.WellFormed) (parent : NodeId) : f.Collected f parent [] :=
  ⟨h, rfl, fun _ => rfl, fun x => by simp, fun x => by simp⟩

theorem Collected.children_of_ne (h : f.WellFormed) (hg : f.Collected g parent nodes)
    (hx : x ≠ parent) (hnodes : ∀ n ∈ nodes, f.parent? n ≠ some x) :
    g.children x = f.children x := by
  rw [hg.children, if_neg hx, List.append_nil, List.filter_eq_self]
  intro c hc
  rw [decide_eq_true_eq]
  exact fun hcn => hnodes c hcn (h.mem_children.mp hc)

theorem pushChildren_collected (h : f.WellFormed) (hp : parent < f.size)
    (hlt : ∀ n ∈ nodes, n < f.size) (hapart : ∀ n ∈ nodes, ¬ f.Within parent n)
    (hnodup : nodes.Nodup) :
    ∃ g, f.pushChildren parent nodes = .ok g ∧ f.Collected g parent nodes := by
  induction nodes generalizing f with
  | nil => exact ⟨f, rfl, .refl h parent⟩
  | cons n ns ih =>
    rw [List.forall_mem_cons] at hlt hapart
    obtain ⟨hn, hns⟩ := List.nodup_cons.mp hnodup
    obtain ⟨k, hk, hfk⟩ := pushChild_eq_ok h hp hlt.1 hapart.1
    obtain ⟨g, hg, hkg⟩ := ih hfk.wellFormed (hfk.size ▸ hp) (hfk.size ▸ hlt.2)
      (fun m hm hpm => hapart.2 m hm (hfk.within_of_within hpm)) hns
    refine ⟨g, ?_, hkg.wellFormed, hkg.size.trans hfk.size,
      fun x => (hkg.label x).trans (hfk.label x), fun x => ?_, fun x => ?_⟩
    · rw [pushChildren, List.foldlM_cons, hk]
      exact hg
    · have hfilter : ((f.children x).erase n).filter (fun c => decide (c ∉ ns)) =
          (f.children x).filter fun c => decide (c ∉ n :: ns) := by
        rw [(h.nodup_children x).erase_eq_filter, List.filter_filter]
        apply List.filter_congr
        intro c _
        by_cases hc : c = n <;> simp [hc]
      rw [hkg.children, hfk.children]
      by_cases hx : x = parent
      · subst hx
        simp only [if_true, List.filter_append, List.append_assoc, hfilter]
        simp [hn]
      · simp only [if_neg hx, hfilter]
    · rw [hkg.parent?, hfk.parent?]
      by_cases hx : x = n
      · simp [hx, hn]
      · simp [hx]

/-- `g` is `f` with `nodes`, which are children of `source`, moved to the end of the children of
`parent`. -/
structure Gathered (f g : Forest) (parent source : NodeId) (nodes : List NodeId) : Prop where
  wellFormed : g.WellFormed
  size : g.size = f.size
  label : ∀ x, g.label x = f.label x
  children : ∀ x, g.children x =
    if x = parent then f.children parent ++ nodes
    else (f.children x).filter fun c => decide (c ∉ nodes)
  parent? : ∀ x, g.parent? x = if x ∈ nodes then some parent else f.parent? x

theorem pushChildren_eq_ok (h : f.WellFormed) (hp : parent < f.size) (hw : ¬ f.Within parent source)
    (hnodes : ∀ n ∈ nodes, f.parent? n = some source) (hnodup : nodes.Nodup) :
    ∃ g, f.pushChildren parent nodes = .ok g ∧ f.Gathered g parent source nodes := by
  obtain ⟨g, hg, hfg⟩ := pushChildren_collected h hp
    (fun n hn => lt_size_of_parent?_eq (hnodes n hn))
    (fun n hn hpn => hw (hpn.trans (.of_parent (hnodes n hn) (.refl f source)))) hnodup
  refine ⟨g, hg, hfg.wellFormed, hfg.size, hfg.label, fun x => ?_, hfg.parent?⟩
  rw [hfg.children]
  split
  · rename_i hx
    subst hx
    rw [filter_children_of_ne h hnodes fun he => hw (he ▸ .refl f x)]
  · rw [List.append_nil]

theorem Gathered.collected (h : f.WellFormed) (hg : f.Gathered g parent source nodes)
    (hnodes : ∀ n ∈ nodes, f.parent? n = some source) (hne : parent ≠ source) :
    f.Collected g parent nodes := by
  refine ⟨hg.wellFormed, hg.size, hg.label, fun x => ?_, hg.parent?⟩
  rw [hg.children]
  split
  · rename_i hx
    rw [hx, filter_children_of_ne h hnodes hne]
  · rw [List.append_nil]

/-- `g` is `f` without the children `nodes` of one node. They are trees of their own. -/
structure Pruned (f g : Forest) (nodes : List NodeId) : Prop where
  wellFormed : g.WellFormed
  size : g.size = f.size
  label : ∀ x, g.label x = f.label x
  children : ∀ x, g.children x = (f.children x).filter fun c => decide (c ∉ nodes)
  parent? : ∀ x, g.parent? x = if x ∈ nodes then none else f.parent? x

theorem pruned_deleteAll (h : f.WellFormed) (hnodes : ∀ n ∈ nodes, f.parent? n = some parent)
    (hnodup : nodes.Nodup) :
    f.Pruned (nodes.foldl (fun f n => (f.deleteChild parent n).1) f) nodes := by
  induction nodes generalizing f with
  | nil => exact ⟨h, rfl, fun _ => rfl, fun x => by simp, fun x => by simp⟩
  | cons n ns ih =>
    rw [List.forall_mem_cons] at hnodes
    obtain ⟨hn, hns⟩ := List.nodup_cons.mp hnodup
    have hstep : (f.deleteChild parent n).1 = f.detach n := by
      rw [deleteChild, if_pos hnodes.1]
    have hrest : ∀ m ∈ ns, (f.detach n).parent? m = some parent := by
      intro m hm
      have hmn : m ≠ n := fun he => hn (he ▸ hm)
      rw [parent?_detach h, if_neg hmn]
      exact hnodes.2 m hm
    have hpruned := ih (h.detach n) hrest hns
    rw [List.foldl_cons, hstep]
    refine ⟨hpruned.wellFormed, hpruned.size.trans (size_detach ..),
      fun x => (hpruned.label x).trans (label_detach ..), fun x => ?_, fun x => ?_⟩
    · rw [hpruned.children, children_detach h, (h.nodup_children x).erase_eq_filter,
        List.filter_filter]
      apply List.filter_congr
      intro c _
      by_cases hc : c = n <;> simp [hc]
    · rw [hpruned.parent?, parent?_detach h]
      by_cases hx : x = n
      · simp [hx]
      · simp [hx]

theorem attach_of_root (hr : f.parent? node = none) :
    f.attach parent node index = f.insertChild parent index node := by
  rw [insertChild, detach_of_root hr]

/-! ### New nodes -/

theorem Grown.relabel (hg : f.Grown g) (hx : f.size ≤ x) (l : Label → Label) :
    f.Grown (g.relabel x l) := by
  refine ⟨hg.wellFormed.relabel x l, ?_, fun y hy => ?_⟩
  · rw [size_relabel]
    exact hg.size_le
  · rw [Forest.relabel, node_modify_of_ne (by omega), hg.node y hy]

theorem planted_alloc (h : f.WellFormed) (l : Label) :
    f.Planted (f.alloc l).1 f.size (.leaf l) := planted_plant h (.leaf l)

theorem planted_alloc_relabel (h : f.WellFormed) (l : Label) (k : Label → Label) :
    f.Planted ((f.alloc l).1.relabel f.size k) f.size (.leaf (k l)) := by
  rw [relabel_alloc]
  exact planted_alloc h (k l)

theorem within_of_mem_visit {n : Nat} {pending : List NodeId} (h : f.WellFormed)
    (hx : x ∈ f.visit n pending) : ∃ a ∈ pending, f.Within x a := by
  induction n generalizing pending with
  | zero => simp [visit] at hx
  | succ n ih =>
    cases pending with
    | nil => simp [visit] at hx
    | cons a as =>
      rw [visit, List.mem_cons] at hx
      rcases hx with rfl | hx
      · exact ⟨x, by simp, .refl f x⟩
      · obtain ⟨b, hb, hxb⟩ := ih hx
        rcases List.mem_append.mp hb with hb | hb
        · have hba := h.mem_children.mp hb
          exact ⟨a, by simp, hxb.trans (.of_parent hba (.refl f a))⟩
        · exact ⟨b, List.mem_cons_of_mem a hb, hxb⟩

theorem within_of_mem_preorder (h : f.WellFormed) (hx : x ∈ f.preorder a) : f.Within x a := by
  obtain ⟨b, hb, hxb⟩ := within_of_mem_visit h hx
  rwa [List.mem_singleton.mp hb] at hxb

theorem Planted.size_le_of_within {t : Tree Label} (hg : f.Planted g a t) (hf : f.WellFormed)
    (hx : g.Within x a) : f.size ≤ x := by
  by_contra hlt
  have hxa := hg.toGrown.within hf (by omega) hx
  have hlt' := hf.within_lt_size hxa (by omega)
  rw [hg.root_eq] at hlt'
  exact Nat.lt_irrefl _ hlt'

/-! ### Owners -/

/-- `g` is `f` with other owners. -/
structure Reowned (f g : Forest) : Prop where
  wellFormed : g.WellFormed
  size : g.size = f.size
  children : ∀ x, g.children x = f.children x
  parent? : ∀ x, g.parent? x = f.parent? x
  label : ∀ x, ∃ owner, g.label x = { f.label x with owner := owner }

namespace Reowned

theorem refl (h : f.WellFormed) : f.Reowned f :=
  ⟨h, rfl, fun _ => rfl, fun _ => rfl, fun x => ⟨(f.label x).owner, rfl⟩⟩

theorem trans (hfg : f.Reowned g) (hgk : g.Reowned k) : f.Reowned k := by
  refine ⟨hgk.wellFormed, hgk.size.trans hfg.size, fun x => (hgk.children x).trans (hfg.children x),
    fun x => (hgk.parent? x).trans (hfg.parent? x), fun x => ?_⟩
  obtain ⟨owner, hl⟩ := hgk.label x
  obtain ⟨first, hl'⟩ := hfg.label x
  exact ⟨owner, by rw [hl, hl']⟩

theorem setOwner (h : f.WellFormed) (id owner : Nat) : f.Reowned (f.setOwner id owner) := by
  refine ⟨h.relabel id _, size_relabel .., fun x => children_relabel ..,
    fun x => parent?_relabel .., fun x => ?_⟩
  by_cases hx : x = id ∧ x < f.size
  · obtain ⟨rfl, hlt⟩ := hx
    exact ⟨some owner, label_relabel_self hlt _⟩
  · refine ⟨(f.label x).owner, ?_⟩
    rw [Forest.label, Forest.setOwner, Forest.relabel, node_modify, if_neg hx]
    rfl

theorem kind (hg : f.Reowned g) (x : NodeId) : g.kind x = f.kind x := by
  obtain ⟨owner, hl⟩ := hg.label x
  rw [Forest.kind, hl, ← Forest.kind]

theorem text (hg : f.Reowned g) (x : NodeId) : g.text x = f.text x := by
  obtain ⟨owner, hl⟩ := hg.label x
  rw [Forest.text, hl, ← Forest.text]

theorem within (hg : f.Reowned g) : g.Within x a ↔ f.Within x a := by
  have hsame : g.HangsBelow = f.HangsBelow := by
    funext b c
    rw [HangsBelow, HangsBelow, hg.parent?]
  rw [Within, Within, hsame]

end Reowned

theorem reowned_setOwnerBelow (h : f.WellFormed) (id owner : Nat) :
    f.Reowned (f.setOwnerBelow id owner) := by
  rw [setOwnerBelow]
  generalize f.preorder id = ns
  induction ns generalizing f with
  | nil => exact .refl h
  | cons n ns ih =>
    have hstep := Reowned.setOwner h n owner
    exact hstep.trans (ih hstep.wellFormed)

theorem node_setOwnerBelow_of_not_mem {owner : Nat} (hx : x ∉ f.preorder a) :
    (f.setOwnerBelow a owner).node x = f.node x := by
  rw [setOwnerBelow]
  revert hx
  generalize f.preorder a = ns
  intro hx
  induction ns generalizing f with
  | nil => rfl
  | cons n ns ih =>
    rw [List.mem_cons, not_or] at hx
    rw [List.foldl_cons, ih hx.2]
    exact node_modify_of_ne hx.1 _

theorem owner_setOwner (h : x < f.size) (n owner : Nat) :
    (f.setOwner n owner).owner x = if x = n then some owner else f.owner x := by
  unfold Forest.owner Forest.setOwner
  by_cases hx : x = n
  · subst hx
    rw [label_relabel_self h, if_pos rfl]
  · rw [label_relabel_of_ne hx, if_neg hx]

theorem owner_setOwnerBelow_of_mem {owner : Nat} (hx : x ∈ f.preorder a) (hlt : x < f.size) :
    (f.setOwnerBelow a owner).owner x = some owner := by
  have howned : ∀ ns : List NodeId, x ∈ ns ∨ f.owner x = some owner →
      (ns.foldl (fun f n => f.setOwner n owner) f).owner x = some owner := by
    intro ns
    clear hx
    induction ns generalizing f with
    | nil => simp
    | cons n ns ih =>
      intro hx
      refine ih (f := f.setOwner n owner) ?_ ?_
      · show x < (f.relabel n _).size
        rwa [size_relabel]
      · rw [owner_setOwner hlt]
        by_cases hn : x = n
        · exact .inr (if_pos hn)
        · rw [if_neg hn]
          exact hx.imp_left fun hmem => (List.mem_cons.mp hmem).resolve_left hn
  exact howned _ (.inl hx)

/-- Giving a new tree to a grammar changes new nodes only. -/
theorem Grown.setOwnerBelow (hf : f.WellFormed) (hg : f.Grown g) (ha : f.size ≤ a)
    (owner : GrammarId) : f.Grown (g.setOwnerBelow a owner) := by
  have ho := reowned_setOwnerBelow hg.wellFormed a owner
  refine ⟨ho.wellFormed, ho.size ▸ hg.size_le, fun x hx => ?_⟩
  rw [node_setOwnerBelow_of_not_mem, hg.node x hx]
  intro hmem
  have hw := hg.within hf hx (within_of_mem_preorder hg.wellFormed hmem)
  exact Nat.not_lt.mpr ha (hf.within_lt_size hw hx)

end GrammarTrees.Forest
