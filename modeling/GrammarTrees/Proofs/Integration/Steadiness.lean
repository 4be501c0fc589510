import GrammarTrees.Proofs.Integration.RuleSections

/-! Changes to a forest that keep the roots of the grammars, what hangs below them, and the named
actions with all that stands below them. -/

namespace GrammarTrees.Forest

variable {f g k : Forest} {T : NodeId → Prop} {a b p q t x : Nat}

/-- The nodes that `T` holds of are roots of trees. -/
structure Rooted (f : Forest) (T : NodeId → Prop) : Prop where
  wellFormed : f.WellFormed
  lt_size : ∀ t, T t → t < f.size
  isRoot : ∀ t, T t → f.parent? t = none

theorem Rooted.mono {U : NodeId → Prop} (hT : f.Rooted T) (h : ∀ t, U t → T t) : f.Rooted U :=
  ⟨hT.wellFormed, fun t ht => hT.lt_size t (h t ht), fun t ht => hT.isRoot t (h t ht)⟩

/-- A named action of one of the trees. -/
def IsAction (f : Forest) (T : NodeId → Prop) (a : NodeId) : Prop :=
  f.kind a = .namedAction ∧ ∃ t, T t ∧ f.parent? a = some t

theorem IsAction.lt_size (ha : f.IsAction T a) : a < f.size := by
  obtain ⟨-, t, -, hp⟩ := ha
  exact lt_size_of_parent?_eq hp

theorem IsAction.ne_of_root (ha : f.IsAction T a) (hr : f.parent? x = none) : x ≠ a := by
  rintro rfl
  obtain ⟨-, t, -, hp⟩ := ha
  simp [hr] at hp

/-- A child of a root does not stand below a node that is further down. -/
theorem not_within_of_section (hp : f.parent? x = some t) (ht : f.parent? t = none)
    (hn : f.parent? b = some q) (hq : f.parent? q ≠ none) : ¬ f.Within x b := by
  intro hw
  rcases within_iff.mp hw with rfl | ⟨p, hxp, hpw⟩
  · obtain rfl : q = t := Option.some.inj (hn.symm.trans hp)
    exact hq ht
  · obtain rfl : p = t := Option.some.inj (hxp.symm.trans hp)
    obtain rfl := hpw.eq_of_root ht
    simp [ht] at hn

/-- `g` is `f` after changes that keep the roots, their children and the named actions. -/
structure Steady (T : NodeId → Prop) (f g : Forest) : Prop where
  wellFormed : g.WellFormed
  size_le : f.size ≤ g.size
  label : ∀ x < f.size, g.label x = f.label x
  isRoot : ∀ t, T t → g.parent? t = none
  hangs : ∀ t x, T t → f.parent? x = some t → g.parent? x = some t
  actions : ∀ t, T t → g.childrenOfKind t .namedAction = f.childrenOfKind t .namedAction
  below : ∀ a x, f.IsAction T a → f.Within x a → g.children x = f.children x

namespace Steady

variable (hg : f.Steady T g)
include hg

theorem kind (hx : x < f.size) : g.kind x = f.kind x := kind_of_label (hg.label x hx)

theorem rooted (hT : f.Rooted T) : g.Rooted T :=
  ⟨hg.wellFormed, fun t ht => Nat.lt_of_lt_of_le (hT.lt_size t ht) hg.size_le, hg.isRoot⟩

theorem isAction (ha : f.IsAction T a) : g.IsAction T a := by
  obtain ⟨t, ht, hp⟩ := ha.2
  exact ⟨(hg.kind ha.lt_size).trans ha.1, t, ht, hg.hangs t a ht hp⟩

theorem within (hf : f.WellFormed) (ha : f.IsAction T a) (hw : f.Within x a) : g.Within x a := by
  induction hw using Relation.ReflTransGen.head_induction_on with
  | refl => exact .refl g a
  | head hxp hpw ih =>
    refine .of_parent (hg.wellFormed.mem_children.mp ?_) ih
    rw [hg.below a _ ha hpw]
    exact hf.mem_children.mpr hxp

theorem trans (hT : f.Rooted T) (hk : g.Steady T k) : f.Steady T k := by
  refine ⟨hk.wellFormed, Nat.le_trans hg.size_le hk.size_le, fun x hx => ?_, hk.isRoot,
    fun t x ht hp => hk.hangs t x ht (hg.hangs t x ht hp),
    fun t ht => (hk.actions t ht).trans (hg.actions t ht), fun a x ha hw => ?_⟩
  · rw [hk.label x (Nat.lt_of_lt_of_le hx hg.size_le), hg.label x hx]
  · rw [hk.below a x (hg.isAction ha) (hg.within hT.wellFormed ha hw), hg.below a x ha hw]

end Steady

/-! ### Steps -/

theorem Grown.steady (hT : f.Rooted T) (hg : f.Grown g) : f.Steady T g := by
  refine ⟨hg.wellFormed, hg.size_le, fun x hx => hg.label hx, fun t ht => ?_,
    fun t x _ hp => (hg.parent? (lt_size_of_parent?_eq hp)).trans hp, fun t ht => ?_,
    fun a x ha hw => hg.children (hw.lt_size ha.lt_size)⟩
  · rw [hg.parent? (hT.lt_size t ht), hT.isRoot t ht]
  · exact childrenOfKind_congr (hg.children (hT.lt_size t ht))
      (fun c hc => hg.label (hT.wellFormed.lt_size_of_child hc)) _

end GrammarTrees.Forest
