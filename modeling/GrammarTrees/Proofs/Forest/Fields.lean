import GrammarTrees.Forest.Edit
import Mathlib.Data.List.Nodup

/-! What the elementary changes of a forest do to each field of each node. -/

namespace GrammarTrees.Forest

variable {f : Forest} {id x p : Nat}

/-! ### Nodes -/

theorem node_of_size_le (h : f.size ≤ x) : f.node x = default := by
  simp only [node, size] at *
  rw [Array.getElem?_eq_none h]
  rfl

theorem children_of_size_le (h : f.size ≤ x) : f.children x = [] := by
  rw [children, node_of_size_le h]
  rfl

theorem parent?_of_size_le (h : f.size ≤ x) : f.parent? x = none := by
  rw [parent?, node_of_size_le h]
  rfl

theorem lt_size_of_mem_children {c : NodeId} (h : c ∈ f.children p) : p < f.size := by
  by_contra hp
  rw [children_of_size_le (by omega)] at h
  simp at h

theorem lt_size_of_parent?_eq (h : f.parent? x = some p) : x < f.size := by
  by_contra hx
  rw [parent?_of_size_le (by omega)] at h
  simp at h

/-- A node that hangs somewhere is no root. -/
theorem ne_of_parent {root : Nat} (hroot : f.parent? root = none) (hp : f.parent? x = some p) :
    x ≠ root := by
  rintro rfl
  rw [hroot] at hp
  simp at hp

/-- Forests with the same nodes are the same. -/
theorem eq_of_node {f g : Forest} (hsize : g.size = f.size) (hnode : ∀ x, g.node x = f.node x) :
    g = f := by
  obtain ⟨as⟩ := f
  obtain ⟨bs⟩ := g
  rw [mk.injEq]
  refine Array.ext hsize fun i hi hi' => ?_
  have h := hnode i
  rwa [node, node, Array.getElem?_eq_getElem hi, Array.getElem?_eq_getElem hi'] at h

/-! ### Changing one node -/

@[simp] theorem size_modify (f : Forest) (id : NodeId) (g : Node → Node) :
    (f.modify id g).size = f.size := by
  simp [modify, size]

theorem node_modify (f : Forest) (id : NodeId) (g : Node → Node) (x : Nat) :
    (f.modify id g).node x = if x = id ∧ x < f.size then g (f.node x) else f.node x := by
  by_cases hx : x < f.size
  · have hx' : f.nodes[x]? = some f.nodes[x] := Array.getElem?_eq_getElem hx
    by_cases h : id = x <;>
      simp [node, modify, Array.getElem?_modify, h, hx, hx', eq_comm]
  · rw [node_of_size_le (by simpa using hx), node_of_size_le (by omega)]
    simp [hx]

theorem node_modify_of_ne (h : x ≠ id) (g : Node → Node) : (f.modify id g).node x = f.node x := by
  simp [node_modify, h]

@[simp] theorem size_setChildren (f : Forest) (id : NodeId) (cs : List NodeId) :
    (f.setChildren id cs).size = f.size := size_modify ..

@[simp] theorem size_setPlace (f : Forest) (id : NodeId) (parent : Option NodeId) (i : Nat) :
    (f.setPlace id parent i).size = f.size := size_modify ..

@[simp] theorem size_relabel (f : Forest) (id : NodeId) (g : Label → Label) :
    (f.relabel id g).size = f.size := size_modify ..

@[simp] theorem label_setChildren (f : Forest) (id : NodeId) (cs : List NodeId) (x : Nat) :
    (f.setChildren id cs).label x = f.label x := by
  simp only [label, setChildren, node_modify]
  split <;> rfl

@[simp] theorem parent?_setChildren (f : Forest) (id : NodeId) (cs : List NodeId) (x : Nat) :
    (f.setChildren id cs).parent? x = f.parent? x := by
  simp only [parent?, setChildren, node_modify]
  split <;> rfl

@[simp] theorem childIndex_setChildren (f : Forest) (id : NodeId) (cs : List NodeId) (x : Nat) :
    (f.setChildren id cs).childIndex x = f.childIndex x := by
  simp only [childIndex, setChildren, node_modify]
  split <;> rfl

theorem children_setChildren (h : id < f.size) (cs : List NodeId) (x : Nat) :
    (f.setChildren id cs).children x = if x = id then cs else f.children x := by
  by_cases hx : x = id
  · subst hx
    simp [children, setChildren, node_modify, h]
  · simp [children, setChildren, node_modify, hx]

@[simp] theorem label_setPlace (f : Forest) (id : NodeId) (parent : Option NodeId) (i : Nat)
    (x : Nat) : (f.setPlace id parent i).label x = f.label x := by
  simp only [label, setPlace, node_modify]
  split <;> rfl

@[simp] theorem children_setPlace (f : Forest) (id : NodeId) (parent : Option NodeId) (i : Nat)
    (x : Nat) : (f.setPlace id parent i).children x = f.children x := by
  simp only [children, setPlace, node_modify]
  split <;> rfl

theorem parent?_setPlace (h : id < f.size) (parent : Option NodeId) (i : Nat) (x : Nat) :
    (f.setPlace id parent i).parent? x = if x = id then parent else f.parent? x := by
  by_cases hx : x = id
  · subst hx
    simp [parent?, setPlace, node_modify, h]
  · simp [parent?, setPlace, node_modify, hx]

theorem childIndex_setPlace (h : id < f.size) (parent : Option NodeId) (i : Nat) (x : Nat) :
    (f.setPlace id parent i).childIndex x = if x = id then i else f.childIndex x := by
  by_cases hx : x = id
  · subst hx
    simp [childIndex, setPlace, node_modify, h]
  · simp [childIndex, setPlace, node_modify, hx]

theorem node_setPlace_of_ne (h : x ≠ id) (parent : Option NodeId) (i : Nat) :
    (f.setPlace id parent i).node x = f.node x := node_modify_of_ne h _

@[simp] theorem children_relabel (f : Forest) (id : NodeId) (g : Label → Label) (x : Nat) :
    (f.relabel id g).children x = f.children x := by
  simp only [children, relabel, node_modify]
  split <;> rfl

@[simp] theorem parent?_relabel (f : Forest) (id : NodeId) (g : Label → Label) (x : Nat) :
    (f.relabel id g).parent? x = f.parent? x := by
  simp only [parent?, relabel, node_modify]
  split <;> rfl

@[simp] theorem childIndex_relabel (f : Forest) (id : NodeId) (g : Label → Label) (x : Nat) :
    (f.relabel id g).childIndex x = f.childIndex x := by
  simp only [childIndex, relabel, node_modify]
  split <;> rfl

theorem label_relabel_of_ne (h : x ≠ id) (g : Label → Label) :
    (f.relabel id g).label x = f.label x := by
  rw [label, relabel, node_modify_of_ne h]
  rfl

theorem label_relabel_self (h : id < f.size) (g : Label → Label) :
    (f.relabel id g).label id = g (f.label id) := by
  simp [label, relabel, node_modify, h]

/-! ### New nodes -/

@[simp] theorem size_alloc (f : Forest) (l : Label) : (f.alloc l).1.size = f.size + 1 := by
  simp [alloc, size]

@[simp] theorem alloc_snd (f : Forest) (l : Label) : (f.alloc l).2 = f.size := rfl

theorem node_alloc (f : Forest) (l : Label) (x : Nat) :
    (f.alloc l).1.node x = if x = f.size then .single l else f.node x := by
  by_cases hx : x = f.nodes.size <;> simp [alloc, node, size, Array.getElem?_push, hx]

theorem node_alloc_of_ne (h : x ≠ f.size) (l : Label) : (f.alloc l).1.node x = f.node x := by
  simp [node_alloc, h]

@[simp] theorem label_alloc_self (f : Forest) (l : Label) : (f.alloc l).1.label f.size = l := by
  simp [label, node_alloc, Node.single]

/-- A new node has no children, so all child lists are as before. -/
@[simp] theorem children_alloc (f : Forest) (l : Label) (x : Nat) :
    (f.alloc l).1.children x = f.children x := by
  by_cases hx : x = f.size
  · rw [hx, children_of_size_le (Nat.le_refl _)]
    simp [children, node_alloc, Node.single]
  · rw [children, node_alloc_of_ne hx, children]

@[simp] theorem parent?_alloc (f : Forest) (l : Label) (x : Nat) :
    (f.alloc l).1.parent? x = f.parent? x := by
  by_cases hx : x = f.size
  · rw [hx, parent?_of_size_le (Nat.le_refl _)]
    simp [parent?, node_alloc, Node.single]
  · rw [parent?, node_alloc_of_ne hx, parent?]

@[simp] theorem childIndex_alloc (f : Forest) (l : Label) (x : Nat) :
    (f.alloc l).1.childIndex x = f.childIndex x := by
  by_cases hx : x = f.size
  · rw [hx, childIndex, childIndex, node_of_size_le (Nat.le_refl _), node_alloc]
    simp [Node.single, default]
  · rw [childIndex, node_alloc_of_ne hx, childIndex]

/-- A new node may as well be made with the label that it is given later. -/
theorem relabel_alloc (f : Forest) (l : Label) (g : Label → Label) :
    (f.alloc l).1.relabel f.size g = (f.alloc (g l)).1 := by
  refine eq_of_node (by simp) fun x => ?_
  rw [relabel, node_modify, node_alloc, node_alloc, size_alloc]
  by_cases hx : x = f.size
  · rw [if_pos hx, if_pos hx, if_pos ⟨hx, hx ▸ Nat.lt_succ_self _⟩]
    rfl
  · rw [if_neg hx, if_neg hx, if_neg fun h => hx h.1]

/-! ### Recording places -/

@[simp] theorem size_placeAll (f : Forest) (p : NodeId) (start : Nat) (cs : List NodeId) :
    (f.placeAll p start cs).size = f.size := by
  induction cs generalizing f start with
  | nil => rfl
  | cons c cs ih => simp [placeAll, ih]

@[simp] theorem label_placeAll (f : Forest) (p : NodeId) (start : Nat) (cs : List NodeId)
    (x : Nat) : (f.placeAll p start cs).label x = f.label x := by
  induction cs generalizing f start with
  | nil => rfl
  | cons c cs ih => simp [placeAll, ih]

@[simp] theorem children_placeAll (f : Forest) (p : NodeId) (start : Nat) (cs : List NodeId)
    (x : Nat) : (f.placeAll p start cs).children x = f.children x := by
  induction cs generalizing f start with
  | nil => rfl
  | cons c cs ih => simp [placeAll, ih]

theorem node_placeAll_of_not_mem {start : Nat} {cs : List NodeId} (h : x ∉ cs) :
    (f.placeAll p start cs).node x = f.node x := by
  induction cs generalizing f start with
  | nil => rfl
  | cons c cs ih =>
    simp only [List.mem_cons, not_or] at h
    rw [placeAll, ih h.2, node_setPlace_of_ne h.1]

/-- The nodes of a list without repetitions are recorded at their numbers. -/
theorem place_placeAll (start : Nat) {i : Nat} {cs : List NodeId} (hn : cs.Nodup)
    (hs : ∀ c ∈ cs, c < f.size) (h : cs[i]? = some x) :
    (f.placeAll p start cs).parent? x = some p ∧
      (f.placeAll p start cs).childIndex x = start + i := by
  induction cs generalizing f start i with
  | nil => simp at h
  | cons c cs ih =>
    obtain ⟨hc, hn⟩ := List.nodup_cons.mp hn
    cases i with
    | zero =>
      obtain rfl : c = x := by simpa using h
      have hlt : c < f.size := hs c (by simp)
      rw [placeAll, parent?, childIndex, node_placeAll_of_not_mem hc, ← parent?, ← childIndex,
        parent?_setPlace hlt, childIndex_setPlace hlt]
      simp
    | succ i =>
      rw [placeAll, show start + (i + 1) = start + 1 + i by omega]
      exact ih (start + 1) hn (fun c hc => by simpa using hs c (by simp [hc])) (by simpa using h)

end GrammarTrees.Forest
