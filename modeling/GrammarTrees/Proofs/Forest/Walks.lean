import GrammarTrees.Forest.Rewrite
import GrammarTrees.Proofs.Forest.Subtrees

/-! The walk through a subtree. In a well-formed forest it meets each node at and below its start
once, in the order in which the tree lists its labels, and so does rewriting by a visitor that
changes no links. -/

namespace GrammarTrees.Forest

open Relation

variable {f : Forest} {a b c x : Nat}

/-! ### Preorder -/

section Preorder

variable (h : f.WellFormed)
include h

theorem preorder_tree_eq (ha : a < f.size) :
    (f.tree a).preorder = a :: (f.children a).flatMap fun c => (f.tree c).preorder := by
  rw [tree_eq h ha, Tree.preorder_node, List.flatMap_map]

theorem mem_preorder_tree (ha : a < f.size) : x ∈ (f.tree a).preorder ↔ f.Within x a := by
  refine h.induction_down (P := fun a => x ∈ (f.tree a).preorder ↔ f.Within x a)
    (fun a ha ih => ?_) ha
  rw [preorder_tree_eq h ha, List.mem_cons, List.mem_flatMap]
  constructor
  · rintro (rfl | ⟨c, hc, hx⟩)
    · exact .refl f x
    · exact ((ih c hc).mp hx).trans (.of_parent (h.mem_children.mp hc) (.refl f a))
  · intro hx
    rcases ReflTransGen.cases_tail hx with rfl | ⟨c, hxc, hc⟩
    · exact .inl rfl
    · have hc : c ∈ f.children a := h.mem_children.mpr hc
      exact .inr ⟨c, hc, (ih c hc).mpr hxc⟩

/-- Subtrees of different children have no node in common. -/
theorem WellFormed.not_within_siblings (ha : f.parent? a = some c) (hb : f.parent? b = some c)
    (hne : a ≠ b) (hxa : f.Within x a) : ¬ f.Within x b := by
  intro hxb
  have hapart : ∀ {a b : NodeId}, f.parent? a = some c → f.parent? b = some c → a ≠ b →
      ¬ f.Within a b := by
    intro a b ha hb hne hab
    rcases within_iff.mp hab with rfl | ⟨p, hp, hpb⟩
    · exact hne rfl
    · obtain rfl : c = p := Option.some.inj (ha.symm.trans hp)
      exact h.not_within_of_parent hb hpb
  rcases hxa.total hxb with hab | hba
  · exact hapart ha hb hne hab
  · exact hapart hb ha hne.symm hba

theorem nodup_preorder_tree (ha : a < f.size) : (f.tree a).preorder.Nodup := by
  refine h.induction_down (P := fun a => (f.tree a).preorder.Nodup) (fun a ha ih => ?_) ha
  rw [preorder_tree_eq h ha, List.nodup_cons, List.nodup_flatMap]
  refine ⟨fun hmem => ?_, ih, ?_⟩
  · obtain ⟨c, hc, hac⟩ := List.mem_flatMap.mp hmem
    rw [mem_preorder_tree h (h.lt_size_of_child hc)] at hac
    exact h.not_within_of_parent (h.mem_children.mp hc) hac
  · refine (h.nodup_children a).imp_of_mem fun {c d} hc hd hne x hxc hxd => ?_
    rw [mem_preorder_tree h (h.lt_size_of_child hc)] at hxc
    rw [mem_preorder_tree h (h.lt_size_of_child hd)] at hxd
    exact h.not_within_siblings (h.mem_children.mp hc) (h.mem_children.mp hd) hne hxc hxd

theorem length_preorder_tree_le (ha : a < f.size) : (f.tree a).preorder.length ≤ f.size := by
  have hsub : (f.tree a).preorder ⊆ List.range f.size := fun x hx =>
    List.mem_range.mpr (((mem_preorder_tree h ha).mp hx).lt_size ha)
  simpa using (List.subperm_of_subset (nodup_preorder_tree h ha) hsub).length_le

theorem visit_eq_take (n : Nat) {pending : List NodeId} (hp : ∀ a ∈ pending, a < f.size) :
    f.visit n pending = (pending.flatMap fun a => (f.tree a).preorder).take n := by
  induction n generalizing pending with
  | zero => simp [visit]
  | succ n ih =>
    cases pending with
    | nil => simp [visit]
    | cons a pending =>
      rw [List.forall_mem_cons] at hp
      have hnext : ∀ c ∈ f.children a ++ pending, c < f.size := by
        intro c hc
        rcases List.mem_append.mp hc with hc | hc
        · exact h.lt_size_of_child hc
        · exact hp.2 c hc
      rw [visit, ih hnext, List.flatMap_cons, preorder_tree_eq h hp.1, List.flatMap_append]
      rfl

/-- The walk lists the nodes as their tree does. -/
theorem preorder_eq (ha : a < f.size) : f.preorder a = (f.tree a).preorder := by
  rw [preorder, visit_eq_take h f.size (by simpa using ha), List.flatMap_singleton,
    List.take_of_length_le (length_preorder_tree_le h ha)]

/-- The walk meets the start, the nodes below it, and no others. -/
theorem mem_preorder (ha : a < f.size) : x ∈ f.preorder a ↔ f.Within x a := by
  rw [preorder_eq h ha, mem_preorder_tree h ha]

theorem nodup_preorder (ha : a < f.size) : (f.preorder a).Nodup := by
  rw [preorder_eq h ha]
  exact nodup_preorder_tree h ha

theorem preorder_eq_cons (ha : a < f.size) :
    f.preorder a = a :: (f.children a).flatMap f.preorder := by
  rw [preorder_eq h ha, preorder_tree_eq h ha]
  congr 1
  exact List.flatMap_congr fun c hc => (preorder_eq h (h.lt_size_of_child hc)).symm

theorem postorder_eq_concat (ha : a < f.size) :
    f.postorder a = (f.children a).flatMap f.postorder ++ [a] := by
  rw [postorder, tree_eq h ha, Tree.postorder_node, List.flatMap_map]
  rfl

theorem postorder_perm_preorder (ha : a < f.size) : (f.postorder a).Perm (f.preorder a) := by
  rw [preorder_eq h ha]
  exact (f.tree a).postorder_perm

theorem sublist_preorder_tree (ha : a < f.size) (hx : f.Within x a) :
    (f.tree x).preorder.Sublist (f.tree a).preorder := by
  induction hx using ReflTransGen.head_induction_on with
  | refl => exact .refl _
  | @head x p hxp hpa ih =>
    have hmem : x ∈ f.children p := h.mem_children.mpr hxp
    refine .trans ?_ ih
    rw [preorder_tree_eq h (Within.lt_size hpa ha)]
    exact .cons _ (List.sublist_flatten_of_mem (List.mem_map_of_mem hmem))

theorem children_sublist_preorder_tree (ha : a < f.size) :
    (f.children a).Sublist (f.tree a).preorder := by
  have hheads : ∀ cs : List NodeId, (∀ c ∈ cs, c < f.size) →
      cs.Sublist (cs.flatMap fun c => (f.tree c).preorder) := by
    intro cs hcs
    induction cs with
    | nil => exact .refl _
    | cons c cs ih =>
      rw [List.forall_mem_cons] at hcs
      rw [List.flatMap_cons, preorder_tree_eq h hcs.1]
      exact .cons_cons _ (.trans (ih hcs.2) (List.sublist_append_right _ _))
  rw [preorder_tree_eq h ha]
  exact .cons _ (hheads _ fun c hc => h.lt_size_of_child hc)

/-- The nodes of a subtree that hang below `x` come in the order of the children of `x`. -/
theorem filter_parent?_preorder_tree (ha : a < f.size) (hx : f.Within x a) :
    ((f.tree a).preorder.filter fun c => f.parent? c = some x) = f.children x := by
  have hlt : x < f.size := hx.lt_size ha
  -- Both lists are parts of one walk and have the same nodes, so they have them in the same order.
  have hsub : (f.children x).Sublist
      ((f.tree a).preorder.filter fun c => f.parent? c = some x) := by
    have hall : ((f.children x).filter fun c => f.parent? c = some x) = f.children x :=
      List.filter_eq_self.mpr fun c hc => by simpa using h.mem_children.mp hc
    rw [← hall]
    exact ((children_sublist_preorder_tree h hlt).trans (sublist_preorder_tree h ha hx)).filter _
  refine (hsub.eq_of_length_le ?_).symm
  refine (List.subperm_of_subset ((nodup_preorder_tree h ha).filter _) fun c hc => ?_).length_le
  exact h.mem_children.mpr (by simpa using (List.mem_filter.mp hc).2)

end Preorder

theorem preorder_of_size_le (ha : f.size ≤ a) : f.preorder a = [] ∨ f.preorder a = [a] := by
  unfold preorder
  cases f.size with
  | zero => exact .inl rfl
  | succ n =>
    rw [visit, children_of_size_le ha]
    cases n with
    | zero => exact .inr rfl
    | succ n => exact .inr rfl

theorem preorder_tree_of_size_le (ha : f.size ≤ a) : (f.tree a).preorder = [a] := by
  unfold tree
  cases f.size with
  | zero => rfl
  | succ n =>
    rw [treeTo, children_of_size_le ha]
    rfl

/-! ### Rewriting without replacing -/

/-- The nodes of the subtree of `id` in the order in which a rewrite visits them. -/
def inOrder (f : Forest) (order : VisitOrder) (id : NodeId) : List NodeId :=
  match order with
  | .pre => f.preorder id
  | .post => f.postorder id

theorem length_inOrder (h : f.WellFormed) (order : VisitOrder) (ha : a < f.size) :
    (f.inOrder order a).length = (f.preorder a).length := by
  cases order with
  | pre => rfl
  | post => exact (postorder_perm_preorder h ha).length_eq

theorem length_inOrder_pos (h : f.WellFormed) (order : VisitOrder) (ha : a < f.size) :
    0 < (f.inOrder order a).length := by
  rw [length_inOrder h order ha, preorder_eq_cons h ha]
  exact Nat.succ_pos _

/-- A visitor that puts nothing in the place of a node and changes no child list. -/
structure Stationary {σ : Type} (visitor : Visitor σ) : Prop where
  stays : ∀ s f id, (visitor s f id).2.2 = none
  children : ∀ s f id x, (visitor s f id).2.1.children x = f.children x

section Rewriting

variable {σ : Type} {visitor : Visitor σ}

/-- The state and the forest after a visit. -/
def visited (visitor : Visitor σ) (s : σ × Forest) (id : NodeId) : σ × Forest :=
  ((visitor s.1 s.2 id).1, (visitor s.1 s.2 id).2.1)

/-- The state and the forest after visits to the given nodes, one after the other. -/
def visitedAll (visitor : Visitor σ) (s : σ × Forest) (ids : List NodeId) : σ × Forest :=
  ids.foldl (visited visitor) s

theorem visitedAll_append (s : σ × Forest) (ids later : List NodeId) :
    visitedAll visitor s (ids ++ later) = visitedAll visitor (visitedAll visitor s ids) later :=
  List.foldl_append

/-- Rewriting the subtree of `a` visits its nodes in the given order, and takes no more nested steps
than twice their number. -/
def WalksInOrder (f : Forest) (order : VisitOrder) (visitor : Visitor σ) (a : NodeId) : Prop :=
  ∀ (bound : Nat) (s : σ × Forest), (∀ x, s.2.children x = f.children x) →
    2 * (f.inOrder order a).length ≤ bound →
    rewriteNode order visitor bound s.1 s.2 a =
      .ok ((visitedAll visitor s (f.inOrder order a)).1,
        (visitedAll visitor s (f.inOrder order a)).2, a)

theorem visitOne_of_stays (hstays : ∀ s f id, (visitor s f id).2.2 = none) (s : σ × Forest)
    (id : NodeId) : visitOne visitor s.1 s.2 id =
      .ok ((visited visitor s id).1, (visited visitor s id).2, id) := by
  have hnone := hstays s.1 s.2 id
  unfold visitOne visited
  revert hnone
  rcases visitor s.1 s.2 id with ⟨t, g, _ | replacement⟩
  · exact fun _ => rfl
  · intro hnone
    simp at hnone

variable (hv : Stationary visitor)
include hv

theorem Stationary.children_visitedAll (s : σ × Forest) (ids : List NodeId) (x : NodeId) :
    (visitedAll visitor s ids).2.children x = s.2.children x := by
  unfold visitedAll
  induction ids generalizing s with
  | nil => rfl
  | cons n ids ih => rw [List.foldl_cons, ih, visited, hv.children]

theorem Stationary.rewriteChildren_eq {order : VisitOrder} {bound index : Nat} {s : σ × Forest}
    {cs : List NodeId} (hwalk : ∀ c ∈ cs, f.WalksInOrder order visitor c)
    (hpos : ∀ c ∈ cs, 0 < (f.inOrder order c).length)
    (hs : ∀ x, s.2.children x = f.children x) (hcs : (f.children a).drop index = cs)
    (hbound : 2 * (cs.flatMap (f.inOrder order)).length < bound) :
    rewriteChildren order visitor bound s.1 s.2 a index =
      .ok (visitedAll visitor s (cs.flatMap (f.inOrder order))) := by
  induction cs generalizing bound index s with
  | nil =>
    obtain ⟨bound, rfl⟩ := Nat.exists_eq_add_one_of_ne_zero (Nat.ne_of_gt hbound)
    have hnone : s.2.child? a index = none := by
      rw [child?, hs, List.getElem?_eq_none (List.drop_eq_nil_iff.mp hcs)]
    rw [rewriteChildren, hnone]
    rfl
  | cons c cs ih =>
    rw [List.forall_mem_cons] at hwalk hpos
    obtain ⟨hfirst, hwalk⟩ := hwalk
    obtain ⟨hlength, hpos⟩ := hpos
    rw [List.flatMap_cons, List.length_append] at hbound
    obtain ⟨bound, rfl⟩ := Nat.exists_eq_add_one_of_ne_zero (show bound ≠ 0 by omega)
    have hchild : s.2.child? a index = some c := by
      rw [child?, hs, ← List.head?_drop, hcs, List.head?_cons]
    have hrest : (f.children a).drop (index + 1) = cs := by
      rw [← List.tail_drop, hcs, List.tail_cons]
    have hkept : ∀ x, (visitedAll visitor s (f.inOrder order c)).2.children x = f.children x :=
      fun x => (hv.children_visitedAll s _ x).trans (hs x)
    rw [rewriteChildren, hchild]
    simp only [hfirst bound s hs (by omega), bind, Except.bind]
    rw [ih hwalk hpos hkept hrest (by omega), List.flatMap_cons, visitedAll_append]

theorem Stationary.walksInOrder (h : f.WellFormed) (order : VisitOrder) (ha : a < f.size) :
    f.WalksInOrder order visitor a := by
  refine h.induction_down (P := f.WalksInOrder order visitor)
    (fun a ha ih bound s hs hbound => ?_) ha
  have hpos : ∀ c ∈ f.children a, 0 < (f.inOrder order c).length := fun c hc =>
    length_inOrder_pos h order (h.lt_size_of_child hc)
  cases order with
  | pre =>
    have horder : f.inOrder .pre a = a :: (f.children a).flatMap (f.inOrder .pre) :=
      preorder_eq_cons h ha
    rw [horder, List.length_cons] at hbound
    obtain ⟨bound, rfl⟩ := Nat.exists_eq_add_one_of_ne_zero (show bound ≠ 0 by omega)
    have hkept : ∀ x, (visited visitor s a).2.children x = f.children x :=
      fun x => (hv.children s.1 s.2 a x).trans (hs x)
    rw [rewriteNode]
    simp only [visitOne_of_stays hv.stays, bind, Except.bind]
    rw [hv.rewriteChildren_eq ih hpos hkept rfl (by omega), horder]
    rfl
  | post =>
    have horder : f.inOrder .post a = (f.children a).flatMap (f.inOrder .post) ++ [a] :=
      postorder_eq_concat h ha
    rw [horder, List.length_append, List.length_singleton] at hbound
    obtain ⟨bound, rfl⟩ := Nat.exists_eq_add_one_of_ne_zero (show bound ≠ 0 by omega)
    have hbelow : rewriteChildren .post visitor bound s.1 s.2 a 0 =
        .ok (visitedAll visitor s ((f.children a).flatMap (f.inOrder .post))) :=
      hv.rewriteChildren_eq ih hpos hs rfl (by omega)
    rw [rewriteNode]
    simp only [hbelow, bind, Except.bind]
    rw [visitOne_of_stays hv.stays, horder, visitedAll_append]
    rfl

end Rewriting

end GrammarTrees.Forest
