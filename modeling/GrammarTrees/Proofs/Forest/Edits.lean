import GrammarTrees.Proofs.Forest.WellFormed
import Mathlib.Data.List.Perm.Basic

/-! What the edits do to child lists and parents, and that they keep a forest well-formed. Numbering
the children of the edited parent from the first that moved is enough, since those before it still
stand where they record. -/

namespace GrammarTrees.Forest

open Relation

variable {f : Forest} {node parent index start id c p x : Nat}

/-! ### Numbering -/

@[simp] theorem size_numberFrom (f : Forest) (p : NodeId) (start : Nat) :
    (f.numberFrom p start).size = f.size := size_placeAll ..

@[simp] theorem label_numberFrom (f : Forest) (p : NodeId) (start : Nat) (x : NodeId) :
    (f.numberFrom p start).label x = f.label x := label_placeAll ..

@[simp] theorem children_numberFrom (f : Forest) (p : NodeId) (start : Nat) (x : NodeId) :
    (f.numberFrom p start).children x = f.children x := children_placeAll ..

theorem node_numberFrom_of_not_mem (hx : x ∉ f.children p) :
    (f.numberFrom p start).node x = f.node x :=
  node_placeAll_of_not_mem fun h => hx (List.mem_of_mem_drop h)

/-- If the children before `start` record their places, then after numbering from `start` on all
children do. -/
theorem place_numberFrom (hn : (f.children p).Nodup) (hs : ∀ c ∈ f.children p, c < f.size)
    (hbefore : ∀ i < start, ∀ c, (f.children p)[i]? = some c →
      f.parent? c = some p ∧ f.childIndex c = i)
    {i : Nat} (hc : (f.children p)[i]? = some c) :
    (f.numberFrom p start).parent? c = some p ∧ (f.numberFrom p start).childIndex c = i := by
  by_cases hi : i < start
  · have hnot : c ∉ (f.children p).drop start := by
      intro hmem
      obtain ⟨j, hj⟩ := List.mem_iff_getElem?.mp hmem
      rw [List.getElem?_drop] at hj
      have hlt := (List.getElem?_eq_some_iff.mp hc).1
      have := (List.getElem?_inj hlt hn).mp (hc.trans hj.symm)
      omega
    rw [numberFrom, Forest.parent?, childIndex, node_placeAll_of_not_mem hnot]
    exact hbefore i hi c hc
  · have hdrop : ((f.children p).drop start)[i - start]? = some c := by
      rw [List.getElem?_drop, show start + (i - start) = i by omega]
      exact hc
    have hplace := place_placeAll (p := p) start (hn.sublist (List.drop_sublist _ _))
      (fun c hc => hs c (List.mem_of_mem_drop hc)) hdrop
    rwa [show start + (i - start) = i by omega] at hplace

/-! ### Linking -/

/-- `node` is a root that may be hung below `parent`. -/
structure Attachable (f : Forest) (parent node : NodeId) : Prop where
  root : f.parent? node = none
  node_lt : node < f.size
  parent_lt : parent < f.size
  apart : ¬ f.Within parent node

@[simp] theorem size_link (f : Forest) (parent node index : Nat) :
    (f.link parent node index).size = f.size := by
  simp [link]

@[simp] theorem label_link (f : Forest) (parent node index x : Nat) :
    (f.link parent node index).label x = f.label x := by
  simp [link]

theorem children_link (hp : parent < f.size) (node index x : Nat) :
    (f.link parent node index).children x =
      if x = parent then (f.children parent).insertIdx index node else f.children x := by
  simp [link, children_setChildren hp]

theorem place_link_of_not_mem (index : Nat) (hp : parent < f.size) (hne : x ≠ node)
    (hx : x ∉ f.children parent) :
    (f.link parent node index).parent? x = f.parent? x ∧
      (f.link parent node index).childIndex x = f.childIndex x := by
  have hnot : x ∉ (f.setChildren parent ((f.children parent).insertIdx index node)).children
      parent := by
    rw [children_setChildren hp, if_pos rfl]
    intro hmem
    rcases List.eq_or_mem_of_mem_insertIdx hmem with he | hmem
    · exact hne he
    · exact hx hmem
  rw [link, Forest.parent?, childIndex, node_numberFrom_of_not_mem hnot, ← Forest.parent?,
    ← childIndex, parent?_setChildren, childIndex_setChildren]
  exact ⟨rfl, rfl⟩

section Link

variable (h : f.WellFormed) (ha : f.Attachable parent node) (hi : index ≤ f.childCount parent)
include h ha hi

theorem place_link {i : Nat}
    (hc : ((f.children parent).insertIdx index node)[i]? = some c) :
    (f.link parent node index).parent? c = some parent ∧
      (f.link parent node index).childIndex c = i := by
  have hperm := List.perm_insertIdx node (f.children parent) hi
  have hchildren : (f.setChildren parent ((f.children parent).insertIdx index node)).children
      parent = (f.children parent).insertIdx index node := by
    rw [children_setChildren ha.parent_lt, if_pos rfl]
  refine place_numberFrom (by rw [hchildren]; exact hperm.nodup_iff.mpr (List.nodup_cons.mpr
    ⟨h.not_mem_children_of_root ha.root, h.nodup_children parent⟩)) ?_ ?_ (by rwa [hchildren])
  · intro d hd
    rw [hchildren, hperm.mem_iff] at hd
    rw [size_setChildren]
    rcases List.mem_cons.mp hd with rfl | hd
    · exact ha.node_lt
    · exact h.lt_size_of_child hd
  · intro j hj d hd
    rw [hchildren, List.getElem?_insertIdx_of_lt hj] at hd
    rw [parent?_setChildren, childIndex_setChildren]
    exact (h.links parent j d).mp hd

theorem parent?_link (x : Nat) :
    (f.link parent node index).parent? x = if x = node then some parent else f.parent? x := by
  have hmem : x ∈ (f.children parent).insertIdx index node ↔ x = node ∨ x ∈ f.children parent :=
    List.mem_insertIdx hi
  by_cases hx : x ∈ (f.children parent).insertIdx index node
  · obtain ⟨i, hget⟩ := List.mem_iff_getElem?.mp hx
    rw [(place_link h ha hi hget).1]
    split
    · rfl
    · rename_i hne
      exact (h.mem_children.mp ((hmem.mp hx).resolve_left hne)).symm
  · rw [hmem, not_or] at hx
    rw [(place_link_of_not_mem index ha.parent_lt hx.1 hx.2).1, if_neg hx.1]

/-- A way up after linking is one from before, unless it leads over the new link. -/
theorem hangsBelow_link {a b : Nat} (hab : TransGen (f.link parent node index).HangsBelow a b) :
    TransGen f.HangsBelow a b ∨ f.Within a node ∧ f.Within parent b := by
  have hstep : ∀ {a b : Nat}, (f.link parent node index).HangsBelow a b →
      f.HangsBelow a b ∨ a = node ∧ b = parent := by
    intro a b hab
    rw [HangsBelow, parent?_link h ha hi] at hab
    split at hab
    · exact .inr ⟨‹_›, (Option.some.inj hab).symm⟩
    · exact .inl hab
  induction hab with
  | single hab =>
    rcases hstep hab with hab | ⟨rfl, rfl⟩
    · exact .inl (.single hab)
    · exact .inr ⟨.refl f _, .refl f _⟩
  | tail _ hbc ih =>
    rcases hstep hbc with hbc | ⟨rfl, rfl⟩
    · rcases ih with hab | ⟨han, hpb⟩
      · exact .inl (.tail hab hbc)
      · exact .inr ⟨han, .tail hpb hbc⟩
    · rcases ih with hab | ⟨han, hpb⟩
      · exact .inr ⟨hab.to_reflTransGen, .refl f _⟩
      · exact (ha.apart hpb).elim

theorem WellFormed.link : (f.link parent node index).WellFormed := by
  refine .of_listed ?_ ?_ ?_ ?_
  · intro q i c hc
    rw [child?, children_link ha.parent_lt] at hc
    split at hc
    · subst q
      exact place_link h ha hi hc
    · rename_i hq
      have hmem : c ∈ f.children q := List.mem_of_getElem? hc
      have hne : c ≠ node := fun he => h.not_mem_children_of_root ha.root (he ▸ hmem)
      have hnot : c ∉ f.children parent := fun hp => hq (h.children_disjoint hmem hp)
      obtain ⟨h1, h2⟩ := place_link_of_not_mem index ha.parent_lt hne hnot
      rw [h1, h2]
      exact (h.links q i c).mp hc
  · intro c q hc
    rw [parent?_link h ha hi] at hc
    rw [children_link ha.parent_lt]
    split at hc
    · obtain rfl := Option.some.inj hc
      rw [if_pos rfl]
      exact (List.mem_insertIdx hi).mpr (.inl ‹_›)
    · split
      · subst q
        exact (List.mem_insertIdx hi).mpr (.inr (h.mem_children.mpr hc))
      · exact h.mem_children.mpr hc
  · intro c hc
    rw [parent?_link h ha hi] at hc
    split at hc
    · simp at hc
    · rename_i hne
      have hnot : c ∉ f.children parent := h.not_mem_children_of_root hc
      rw [(place_link_of_not_mem index ha.parent_lt hne hnot).2]
      exact h.rootIndex c hc
  · intro a haa
    rcases hangsBelow_link h ha hi haa with haa | ⟨han, hpa⟩
    · exact h.acyclic a haa
    · exact ha.apart (hpa.trans han)

end Link

/-! ### Detaching -/

@[simp] theorem size_detach (f : Forest) (id : NodeId) : (f.detach id).size = f.size := by
  rw [detach]
  split <;> simp

@[simp] theorem label_detach (f : Forest) (id x : NodeId) :
    (f.detach id).label x = f.label x := by
  rw [detach]
  split <;> simp

theorem detach_of_root (hr : f.parent? id = none) : f.detach id = f := by
  rw [detach, hr]

section Detach

variable (h : f.WellFormed)
include h

theorem eraseIdx_childIndex (hp : f.parent? id = some p) :
    (f.children p).eraseIdx (f.childIndex id) = (f.children p).erase id := by
  obtain ⟨hlt, hget⟩ := List.getElem?_eq_some_iff.mp (h.getElem?_childIndex hp)
  rw [← (h.nodup_children p).erase_getElem _ hlt, hget]

/-- The forest with `id` no longer listed and the children of its parent numbered, before the place
of `id` itself is cleared. -/
theorem detach_eq (hp : f.parent? id = some p) :
    f.detach id = ((f.setChildren p ((f.children p).erase id)).numberFrom p
      (f.childIndex id)).setPlace id none 0 := by
  rw [detach, hp, ← eraseIdx_childIndex h hp]

theorem children_detach (id x : Nat) :
    (f.detach id).children x = (f.children x).erase id := by
  cases hp : f.parent? id with
  | none =>
    rw [detach_of_root hp, List.erase_of_not_mem (h.not_mem_children_of_root hp)]
  | some p =>
    rw [detach_eq h hp, children_setPlace, children_numberFrom,
      children_setChildren (h.lt_size_of_parent hp)]
    split
    · subst x
      rfl
    · rename_i hx
      rw [List.erase_of_not_mem fun hmem => hx (h.children_disjoint hmem (h.mem_children.mpr hp))]

theorem place_detach {i : Nat} (hp : f.parent? id = some p)
    (hc : ((f.children p).erase id)[i]? = some c) :
    (f.detach id).parent? c = some p ∧ (f.detach id).childIndex c = i := by
  have hchildren : (f.setChildren p ((f.children p).erase id)).children p =
      (f.children p).erase id := by
    rw [children_setChildren (h.lt_size_of_parent hp), if_pos rfl]
  have hne : c ≠ id := by
    rintro rfl
    exact (h.nodup_children p).not_mem_erase (List.mem_of_getElem? hc)
  have hid : id < f.size := lt_size_of_parent?_eq hp
  rw [detach_eq h hp, parent?_setPlace (by simpa using hid), if_neg hne,
    childIndex_setPlace (by simpa using hid), if_neg hne]
  refine place_numberFrom (by rw [hchildren]; exact (h.nodup_children p).erase id) ?_ ?_
    (by rwa [hchildren])
  · intro d hd
    rw [hchildren] at hd
    rw [size_setChildren]
    exact h.lt_size_of_child (List.mem_of_mem_erase hd)
  · intro j hj d hd
    rw [hchildren, ← eraseIdx_childIndex h hp, List.getElem?_eraseIdx_of_lt hj] at hd
    rw [parent?_setChildren, childIndex_setChildren]
    exact (h.links p j d).mp hd

theorem place_detach_of_not_mem (hp : f.parent? id = some p) (hne : x ≠ id)
    (hx : x ∉ f.children p) :
    (f.detach id).parent? x = f.parent? x ∧ (f.detach id).childIndex x = f.childIndex x := by
  have hnot : x ∉ (f.setChildren p ((f.children p).erase id)).children p := by
    rw [children_setChildren (h.lt_size_of_parent hp), if_pos rfl]
    exact fun hmem => hx (List.mem_of_mem_erase hmem)
  have hnode : (f.detach id).node x = (f.setChildren p ((f.children p).erase id)).node x := by
    rw [detach_eq h hp, node_setPlace_of_ne hne, node_numberFrom_of_not_mem hnot]
  rw [Forest.parent?, childIndex, hnode, ← Forest.parent?, ← childIndex, parent?_setChildren,
    childIndex_setChildren]
  exact ⟨rfl, rfl⟩

theorem place_detach_self : (f.detach id).parent? id = none ∧ (f.detach id).childIndex id = 0 := by
  cases hp : f.parent? id with
  | none =>
    rw [detach_of_root hp]
    exact ⟨hp, h.rootIndex id hp⟩
  | some p =>
    have hid : id < f.size := lt_size_of_parent?_eq hp
    rw [detach_eq h hp, parent?_setPlace (by simpa using hid),
      childIndex_setPlace (by simpa using hid)]
    simp

theorem parent?_detach (id x : Nat) :
    (f.detach id).parent? x = if x = id then none else f.parent? x := by
  by_cases hx : x = id
  · rw [if_pos hx, hx]
    exact (place_detach_self h).1
  rw [if_neg hx]
  cases hp : f.parent? id with
  | none => rw [detach_of_root hp]
  | some p =>
    by_cases hmem : x ∈ f.children p
    · obtain ⟨i, hi⟩ := List.mem_iff_getElem?.mp ((List.mem_erase_of_ne hx).mpr hmem)
      rw [(place_detach h hp hi).1, h.mem_children.mp hmem]
    · exact (place_detach_of_not_mem h hp hx hmem).1

theorem hangsBelow_of_detach {a b : Nat} (hab : (f.detach id).HangsBelow a b) :
    f.HangsBelow a b := by
  rw [HangsBelow, parent?_detach h] at hab
  split at hab
  · simp at hab
  · exact hab

theorem within_of_detach {a b : Nat} (hab : (f.detach id).Within a b) : f.Within a b :=
  ReflTransGen.mono (fun _ _ => hangsBelow_of_detach h) _ _ hab

theorem WellFormed.detach (id : Nat) : (f.detach id).WellFormed := by
  refine .of_listed ?_ ?_ ?_ ?_
  · intro q i c hc
    rw [child?, children_detach h] at hc
    cases hp : f.parent? id with
    | none =>
      rw [List.erase_of_not_mem (h.not_mem_children_of_root hp)] at hc
      rw [detach_of_root hp]
      exact (h.links q i c).mp hc
    | some p =>
      by_cases hq : q = p
      · rw [hq] at hc ⊢
        exact place_detach h hp hc
      · have hnot : id ∉ f.children q := fun hmem =>
          hq (h.children_disjoint hmem (h.mem_children.mpr hp))
        rw [List.erase_of_not_mem hnot] at hc
        have hmem : c ∈ f.children q := List.mem_of_getElem? hc
        obtain ⟨h1, h2⟩ := place_detach_of_not_mem h hp (fun he => hnot (he ▸ hmem))
          fun hcp => hq (h.children_disjoint hmem hcp)
        rw [h1, h2]
        exact (h.links q i c).mp hc
  · intro c q hc
    rw [parent?_detach h] at hc
    split at hc
    · simp at hc
    · rename_i hne
      rw [children_detach h, List.mem_erase_of_ne hne]
      exact h.mem_children.mpr hc
  · intro c hc
    rw [parent?_detach h] at hc
    split at hc
    · subst c
      exact (place_detach_self h).2
    · rename_i hne
      cases hp : f.parent? id with
      | none =>
        rw [detach_of_root hp]
        exact h.rootIndex c hc
      | some p =>
        rw [(place_detach_of_not_mem h hp hne (h.not_mem_children_of_root hc)).2]
        exact h.rootIndex c hc
  · intro a haa
    exact h.acyclic a (TransGen.mono (fun _ _ => hangsBelow_of_detach h) _ _ haa)

end Detach

/-! ### Attaching and moving -/

section Attach

variable (h : f.WellFormed)
include h

theorem attach_eq_ok (ha : f.Attachable parent node) (hi : index ≤ f.childCount parent) :
    f.attach parent node index = .ok (f.link parent node index) := by
  have hw : f.isWithin parent node = false := by
    rw [← Bool.not_eq_true, h.isWithin_iff ha.parent_lt]
    exact ha.apart
  simp [attach, ha.root, hw, Nat.not_lt.mpr hi]

/-- What `attach` checks before it links: a node that hangs somewhere, a node above its new parent
and an index past the end are refused, in this order. -/
theorem attach_cases (index : Nat) (hp : parent < f.size) (hn : node < f.size) :
    (f.Attachable parent node ∧ index ≤ f.childCount parent ∧
      f.attach parent node index = .ok (f.link parent node index)) ∨
    (f.parent? node ≠ none ∧ f.attach parent node index = .error .stillAttached) ∨
    (f.Within parent node ∧ f.attach parent node index = .error .ownDescendant) ∨
    (f.childCount parent < index ∧
      f.attach parent node index = .error (.indexOutOfBounds index (f.childCount parent))) := by
  by_cases hr : f.parent? node = none
  · by_cases hw : f.Within parent node
    · refine .inr (.inr (.inl ⟨hw, ?_⟩))
      simp [attach, hr, (h.isWithin_iff hp).mpr hw]
    · have ha : f.Attachable parent node := ⟨hr, hn, hp, hw⟩
      by_cases hi : index ≤ f.childCount parent
      · exact .inl ⟨ha, hi, attach_eq_ok h ha hi⟩
      · have hw' : f.isWithin parent node = false := by
          rw [← Bool.not_eq_true, h.isWithin_iff hp]
          exact hw
        refine .inr (.inr (.inr ⟨Nat.lt_of_not_le hi, ?_⟩))
        simp [attach, hr, hw', Nat.lt_of_not_le hi]
  · refine .inr (.inl ⟨hr, ?_⟩)
    simp [attach, Option.isSome_iff_ne_none.mpr hr]

theorem Attachable.of_detach (hp : parent < f.size) (hn : node < f.size)
    (hw : ¬ f.Within parent node) : (f.detach node).Attachable parent node where
  root := (place_detach_self h).1
  node_lt := by simpa using hn
  parent_lt := by simpa using hp
  apart hab := hw (within_of_detach h hab)

end Attach

/-- `g` is `f` with the subtree of `node` moved below `parent`, as child number `index` of what is
left there. -/
structure Moved (f g : Forest) (parent node index : Nat) : Prop where
  wellFormed : g.WellFormed
  size : g.size = f.size
  label : ∀ x, g.label x = f.label x
  children : ∀ x, g.children x =
    if x = parent then ((f.children parent).erase node).insertIdx index node
    else (f.children x).erase node
  parent? : ∀ x, g.parent? x = if x = node then some parent else f.parent? x

theorem Moved.of_detach_link (h : f.WellFormed) (hp : parent < f.size) (hn : node < f.size)
    (hw : ¬ f.Within parent node) (hi : index ≤ ((f.children parent).erase node).length) :
    f.Moved ((f.detach node).link parent node index) parent node index := by
  have ha := Attachable.of_detach h hp hn hw
  have hi' : index ≤ (f.detach node).childCount parent := by
    rw [childCount, children_detach h]
    exact hi
  refine ⟨(h.detach node).link ha hi', by simp, by simp, fun x => ?_, fun x => ?_⟩
  · rw [children_link ha.parent_lt, children_detach h, children_detach h]
  · rw [parent?_link (h.detach node) ha hi', parent?_detach h]
    split <;> rfl

theorem insertChild_eq_ok (h : f.WellFormed) (hp : parent < f.size) (hn : node < f.size)
    (hw : ¬ f.Within parent node) (hi : index ≤ ((f.children parent).erase node).length) :
    ∃ g, f.insertChild parent index node = .ok g ∧ f.Moved g parent node index := by
  refine ⟨_, attach_eq_ok (h.detach node) (.of_detach h hp hn hw) ?_, .of_detach_link h hp hn hw hi⟩
  rw [childCount, children_detach h]
  exact hi

/-- `g` is `f` with the subtree of `node` moved to the end of the children of `parent`. -/
def Pushed (f g : Forest) (parent node : NodeId) : Prop :=
  f.Moved g parent node ((f.children parent).erase node).length

theorem pushChild_eq_ok (h : f.WellFormed) (hp : parent < f.size) (hn : node < f.size)
    (hw : ¬ f.Within parent node) :
    ∃ g, f.pushChild parent node = .ok g ∧ f.Pushed g parent node := by
  have hcount : (f.detach node).childCount parent = ((f.children parent).erase node).length := by
    rw [childCount, children_detach h]
  refine ⟨_, ?_, .of_detach_link h hp hn hw (Nat.le_refl _)⟩
  rw [pushChild, hcount]
  exact attach_eq_ok (h.detach node) (.of_detach h hp hn hw) (Nat.le_of_eq hcount.symm)

theorem Pushed.children {g : Forest} (hg : f.Pushed g parent node) (x : NodeId) :
    g.children x =
      if x = parent then (f.children parent).erase node ++ [node]
      else (f.children x).erase node := by
  rw [Moved.children hg, List.insertIdx_length_self]

end GrammarTrees.Forest
