import GrammarTrees.Integration.Rules
import GrammarTrees.Proofs.Integration.Carrying

/-! Modes that are made for the rules of an imported mode: a copy of the mode and of its first
child, which takes in the rules and is then hung below the root. -/

namespace GrammarTrees.Integration

open Forest

variable {f g k : Forest} {root mode copy x y : Nat} {grammar : GrammarId} {new : List NodeId}

/-- `k` is `g` with a new mode at `copy` that has the label of `mode` and a copy of its first
child. -/
structure ModeCopied (g k : Forest) (grammar : GrammarId) (mode copy : NodeId) : Prop where
  grown : g.Grown k
  copy_eq : copy = g.size
  copy_lt : copy < k.size
  isRoot : k.parent? copy = none
  label : k.label copy = { g.label mode with owner := some grammar }
  first : ∀ name, g.child? mode 0 = some name →
    ∃ leaf, k.children copy = [leaf] ∧ k.label leaf = g.label name ∧ k.children leaf = []

/-- A new node with the label of `mode` that belongs to the grammar. -/
def newMode (grammar : GrammarId) (mode : NodeId) (g : Forest) : Forest :=
  (g.alloc (g.label mode)).1.setOwner g.size grammar

theorem newMode_copied (h : g.WellFormed) (grammar : GrammarId) (mode : NodeId) :
    g.Grown (newMode grammar mode g) ∧ g.size < (newMode grammar mode g).size ∧
      (newMode grammar mode g).parent? g.size = none ∧
      (newMode grammar mode g).label g.size = { g.label mode with owner := some grammar } ∧
      ∀ x, (newMode grammar mode g).children x = g.children x := by
  have howned := Reowned.setOwner (h.alloc (g.label mode)) g.size grammar
  refine ⟨?_, ?_, ?_, ?_, fun x => ?_⟩
  · rw [newMode, setOwner]
    exact (Grown.alloc h _).relabel (Nat.le_refl _) _
  · rw [newMode, howned.size, size_alloc]
    exact Nat.lt_succ_self _
  · rw [newMode, howned.parent?, parent?_alloc, parent?_of_size_le (Nat.le_refl _)]
  · rw [newMode, setOwner, label_relabel_self (by simp), label_alloc_self]
  · rw [newMode, howned.children, children_alloc]

theorem copyMode_eq (grammar : GrammarId) (mode : NodeId) (g : Forest) :
    copyMode grammar mode g =
      match (newMode grammar mode g).child? mode 0 with
      | none => .ok (newMode grammar mode g, g.size)
      | some name => do
        let copy := (newMode grammar mode g).plant (.leaf ((newMode grammar mode g).label name))
        let k ← copy.1.pushChild g.size copy.2
        return (k, g.size) := rfl

theorem copyMode_eq_ok (h : g.WellFormed) (grammar : GrammarId) (mode : NodeId) :
    ∃ k copy, copyMode grammar mode g = .ok (k, copy) ∧ ModeCopied g k grammar mode copy := by
  obtain ⟨hgrown, hlt, hroot, hlabel, hchildren⟩ := newMode_copied h grammar mode
  rw [copyMode_eq]
  generalize newMode grammar mode g = k at *
  rw [child?, hchildren, ← child?]
  cases hname : g.child? mode 0 with
  | none => exact ⟨k, g.size, rfl, hgrown, rfl, hlt, hroot, hlabel, by simp [hname]⟩
  | some name =>
    have hnamelt : name < g.size := h.lt_size_of_child (List.mem_of_getElem? hname)
    have hplanted := planted_plant hgrown.wellFormed (.leaf (k.label name))
    obtain ⟨m, hm, hbelow, -, hleaf, -⟩ := hplanted.pushChild hgrown.wellFormed hlt
    obtain ⟨hl, hc⟩ := hbelow.last hleaf
    have hnil : k.children g.size = [] := by
      rw [hchildren, children_of_size_le (Nat.le_refl _)]
    refine ⟨m, g.size, ?_, ⟨hbelow.wellFormed, Nat.le_trans hgrown.size_le hbelow.size_le,
      fun x hx => ?_⟩, rfl, Nat.lt_of_lt_of_le hlt hbelow.size_le, ?_, ?_, fun name' hname' => ?_⟩
    · simp only [hm]
      rfl
    · rw [hbelow.node x (Nat.lt_of_lt_of_le hx hgrown.size_le) (Nat.ne_of_lt hx), hgrown.node x hx]
    · rw [hbelow.parent?_parent, hroot]
    · rw [hbelow.label_parent, hlabel]
    · obtain rfl : name = name' := by
        rw [hname] at hname'
        exact Option.some.inj hname'
      refine ⟨_, ?_, hl.trans (hgrown.label hnamelt), List.map_eq_nil_iff.mp hc⟩
      rw [hleaf, hnil, List.nil_append]

/-- `k` is `g` with a new mode at `copy`, after the other children of the root, that has a copy of
the first child of `mode` and the children `new` of `mode`. -/
structure ModeAdded (g k : Forest) (grammar : GrammarId) (root mode copy : NodeId)
    (new : List NodeId) : Prop where
  carried : g.Carried k
  size_le : g.size ≤ copy
  label : ∀ y < g.size, k.label y = g.label y
  children : ∀ y < g.size, y ≠ root → y ≠ mode → k.children y = g.children y
  source : k.children mode = (g.children mode).filter (· ∉ new)
  root : k.children root = g.children root ++ [copy]
  copy_label : k.label copy = { g.label mode with owner := some grammar }
  first : ∀ name, g.child? mode 0 = some name →
    ∃ leaf, k.children copy = leaf :: new ∧ k.label leaf = g.label name ∧
      k.children leaf = [] ∧ g.size ≤ leaf

section Adding

variable {m k' : Forest} (hk : ModeCopied g k grammar mode copy)
include hk

theorem ModeCopied.le : g.size ≤ copy := Nat.le_of_eq hk.copy_eq.symm

theorem ModeCopied.ne (hy : y < g.size) : y ≠ copy :=
  Nat.ne_of_lt (Nat.lt_of_lt_of_le hy hk.le)

variable (hnodes : ∀ n ∈ new, g.parent? n = some mode)
include hnodes

theorem ModeCopied.nodes : ∀ n ∈ new, k.parent? n = some mode := by
  intro n hn
  rw [hk.grown.parent? (lt_size_of_parent?_eq (hnodes n hn)), hnodes n hn]

theorem ModeCopied.gather (hmode : mode < g.size) (hnodup : new.Nodup) :
    ∃ m, k.pushChildren copy new = .ok m ∧ k.Gathered m copy mode new := by
  have hapart : ¬ k.Within copy mode := by
    intro hw
    exact hk.ne hmode (hw.eq_of_root hk.isRoot)
  exact pushChildren_eq_ok hk.grown.wellFormed hk.copy_lt hapart (hk.nodes hnodes) hnodup

variable (hroot : g.parent? root = none) (hlt : root < g.size)
  (hm : k.Gathered m copy mode new)
include hroot hlt hm

theorem ModeCopied.push : ∃ k', m.pushChild root copy = .ok k' ∧ m.Pushed k' root copy := by
  have hmroot : m.parent? root = none := by
    apply hm.roots (hk.nodes hnodes)
    rw [hk.grown.parent? hlt, hroot]
  have hapart : ¬ m.Within root copy := by
    intro hw
    exact hk.ne hlt (hw.eq_of_root hmroot).symm
  apply pushChild_eq_ok hm.wellFormed _ _ hapart
  · rw [hm.size]
    exact Nat.lt_of_lt_of_le hlt hk.grown.size_le
  · rw [hm.size]
    exact hk.copy_lt

theorem ModeCopied.added (hg : g.WellFormed) (hmode : g.RuleSection mode)
    (hk' : m.Pushed k' root copy) : ModeAdded g k' grammar root mode copy new := by
  have hlabel : ∀ y < g.size, k'.label y = g.label y := by
    intro y hy
    rw [hk'.label, hm.label, hk.grown.label hy]
  have hfree : m.parent? copy = none := hm.roots (hk.nodes hnodes) hk.isRoot
  have hmodelt : mode < g.size := hmode.lt_size_of_within (.refl g mode)
  have hrootmode : root ≠ mode := by
    rintro rfl
    exact outside_of_root hroot root hmode (.refl g root)
  have hchildren : ∀ y < g.size, y ≠ mode → m.children y = g.children y := by
    intro y hy hne
    rw [hm.children_of_ne hk.grown.wellFormed (hk.nodes hnodes) (hk.ne hy) hne,
      hk.grown.children hy]
  refine ⟨?_, hk.le, hlabel, fun y hy hyr hym => ?_, ?_, ?_, ?_, fun name hname => ?_⟩
  · refine carried_of_new hg hk.grown hm hk' hk.le ?_ hlt hroot hmode hnodes
    rw [Forest.kind, hk.label]
    exact hmode.holds
  · rw [hk'.children_of_free hm.wellFormed hfree hyr, hchildren y hy hym]
  · rw [hk'.children_of_free hm.wellFormed hfree hrootmode.symm, hm.children,
      if_neg (hk.ne hmodelt), hk.grown.children hmodelt]
  · rw [hk'.children, if_pos rfl,
      List.erase_of_not_mem (hm.wellFormed.not_mem_children_of_root hfree),
      hchildren root hlt hrootmode]
  · rw [hk'.label, hm.label, hk.label]
  · obtain ⟨leaf, hleaf, hleaflabel, hnil⟩ := hk.first name hname
    have hmchildren : m.children copy = leaf :: new := by
      rw [hm.children, if_pos rfl, hleaf]
      rfl
    have hleafp : k.parent? leaf = some copy := by
      apply hk.grown.wellFormed.mem_children.mp
      rw [hleaf]
      simp
    have hleafcopy : leaf ≠ copy := by
      rintro rfl
      exact hk.grown.wellFormed.not_within_of_parent hleafp (.refl k leaf)
    have hleafold : ∀ y < g.size, leaf ≠ y := by
      rintro y hy rfl
      rw [hk.grown.parent? hy] at hleafp
      exact hk.ne (hg.lt_size_of_parent hleafp) rfl
    refine ⟨leaf, ?_, ?_, ?_, ?_⟩
    · rw [hk'.children_of_free hm.wellFormed hfree (hk.ne hlt).symm, hmchildren]
    · rw [hk'.label, hm.label, hleaflabel]
    · rw [hk'.children_of_free hm.wellFormed hfree (hleafold root hlt),
        hm.children_of_ne hk.grown.wellFormed (hk.nodes hnodes) hleafcopy (hleafold mode hmodelt),
        hnil]
    · by_contra hlt
      exact hleafold leaf (Nat.lt_of_not_le hlt) rfl

end Adding

end GrammarTrees.Integration
