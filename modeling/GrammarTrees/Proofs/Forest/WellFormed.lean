import GrammarTrees.Proofs.Forest.Fields
import Mathlib.Data.List.Nodup
import Mathlib.Data.List.Perm.Subperm
import Mathlib.Logic.Relation

/-! Well-formed forests. The child lists, the parents and the indexes say the same, no node is
listed twice, and no node stands below itself. In such a forest the walk up from a node ends at a
root, within as many steps as there are nodes. -/

namespace GrammarTrees.Forest

open Relation

/-- `child` records `parent` as its parent. -/
def HangsBelow (f : Forest) (child parent : NodeId) : Prop := f.parent? child = some parent

/-- `id` is `ancestor`, or the way from `id` up leads to it. -/
def Within (f : Forest) (id ancestor : NodeId) : Prop := ReflTransGen f.HangsBelow id ancestor

structure WellFormed (f : Forest) : Prop where
  links : ∀ p i c, f.child? p i = some c ↔ f.parent? c = some p ∧ f.childIndex c = i
  listedOnce : ((List.range f.size).flatMap f.children).Nodup
  rootIndex : ∀ c, f.parent? c = none → f.childIndex c = 0
  acyclic : ∀ id, ¬ TransGen f.HangsBelow id id

variable {f : Forest} {id a b c p q x : Nat}

/-- A forest is well-formed if every listed node records where it is listed, every node is listed by
its parent, and ways up do not return. -/
theorem WellFormed.of_listed
    (listed : ∀ p i c, f.child? p i = some c → f.parent? c = some p ∧ f.childIndex c = i)
    (placed : ∀ c p, f.parent? c = some p → c ∈ f.children p)
    (rootIndex : ∀ c, f.parent? c = none → f.childIndex c = 0)
    (acyclic : ∀ id, ¬ TransGen f.HangsBelow id id) : f.WellFormed where
  links p i c := by
    refine ⟨listed p i c, fun ⟨hp, hi⟩ => ?_⟩
    obtain ⟨j, hj⟩ := List.mem_iff_getElem?.mp (placed c p hp)
    rw [← (listed p j c hj).2.symm.trans hi]
    exact hj
  listedOnce := by
    rw [List.nodup_flatMap]
    refine ⟨fun p _ => ?_, List.nodup_range.imp fun {p q} hne c hp hq => hne ?_⟩
    · rw [List.nodup_iff_getElem?_ne_getElem?]
      intro i j hij hj heq
      rw [List.getElem?_eq_getElem hj] at heq
      have hi := (listed p i _ heq).2
      have hj := (listed p j _ (List.getElem?_eq_getElem hj)).2
      omega
    · obtain ⟨i, hi⟩ := List.mem_iff_getElem?.mp hp
      obtain ⟨j, hj⟩ := List.mem_iff_getElem?.mp hq
      exact Option.some.inj ((listed p i c hi).1.symm.trans (listed q j c hj).1)
  rootIndex := rootIndex
  acyclic := acyclic

namespace WellFormed

variable (h : f.WellFormed)
include h

theorem mem_children : c ∈ f.children p ↔ f.parent? c = some p := by
  constructor
  · intro hc
    obtain ⟨i, hi⟩ := List.mem_iff_getElem?.mp hc
    exact ((h.links p i c).mp hi).1
  · intro hp
    exact List.mem_of_getElem? ((h.links p _ c).mpr ⟨hp, rfl⟩)

theorem getElem?_childIndex (hp : f.parent? c = some p) :
    (f.children p)[f.childIndex c]? = some c := (h.links p _ c).mpr ⟨hp, rfl⟩

theorem nodup_children (p : NodeId) : (f.children p).Nodup := by
  by_cases hp : p < f.size
  · exact (List.nodup_flatMap.mp h.listedOnce).1 p (List.mem_range.mpr hp)
  · rw [children_of_size_le (Nat.le_of_not_lt hp)]
    exact List.nodup_nil

theorem pairwise_childIndex (p : NodeId) :
    (f.children p).Pairwise fun a b => f.childIndex a < f.childIndex b := by
  have hindex : ∀ i (hi : i < (f.children p).length), f.childIndex (f.children p)[i] = i :=
    fun i hi => ((h.links p i _).mp (List.getElem?_eq_getElem hi)).2
  rw [List.pairwise_iff_getElem]
  intro i j hi hj hij
  rwa [hindex i hi, hindex j hj]

theorem lt_size_of_parent (hp : f.parent? c = some p) : p < f.size :=
  lt_size_of_mem_children (h.mem_children.mpr hp)

theorem lt_size_of_child (hc : c ∈ f.children p) : c < f.size :=
  lt_size_of_parent?_eq (h.mem_children.mp hc)

theorem not_mem_children_of_root (hx : f.parent? x = none) : x ∉ f.children p := by
  rw [h.mem_children, hx]
  simp

theorem children_disjoint (hp : x ∈ f.children p) (hq : x ∈ f.children q) : p = q :=
  Option.some.inj ((h.mem_children.mp hp).symm.trans (h.mem_children.mp hq))

/-- A node says the same in two forests that agree on its label, on its links, and on the children
of its parent. -/
theorem node_eq {g : Forest} (hg : g.WellFormed) (hlabel : g.label x = f.label x)
    (hchildren : g.children x = f.children x) (hparent : g.parent? x = f.parent? x)
    (hsiblings : ∀ p, f.parent? x = some p → g.children p = f.children p) :
    g.node x = f.node x := by
  have hindex : g.childIndex x = f.childIndex x := by
    cases hp : f.parent? x with
    | none => rw [h.rootIndex x hp, hg.rootIndex x (hparent.trans hp)]
    | some p =>
      have hlisted := h.getElem?_childIndex hp
      rw [← hsiblings p hp] at hlisted
      exact ((hg.links p _ x).mp hlisted).2
  calc g.node x = ⟨g.label x, g.children x, g.parent? x, g.childIndex x⟩ := rfl
    _ = ⟨f.label x, f.children x, f.parent? x, f.childIndex x⟩ := by
      rw [hlabel, hchildren, hparent, hindex]
    _ = f.node x := rfl

/-- In every subtree, each child records the place where it is listed. -/
theorem linksAgree (a : NodeId) : f.linksAgree a = true := by
  rw [Forest.linksAgree, List.all_eq_true]
  intro n _
  rw [List.all_eq_true]
  rintro ⟨c, i⟩ hc
  obtain ⟨hp, hi⟩ := (h.links n i c).mp (List.mem_zipIdx_iff_getElem?.mp hc)
  rw [Bool.and_eq_true, decide_eq_true_eq, decide_eq_true_eq]
  exact ⟨hp, hi⟩

end WellFormed

/-! ### Ways up -/

theorem Within.refl (f : Forest) (id : NodeId) : f.Within id id := ReflTransGen.refl

theorem Within.trans (hab : f.Within a b) (hbc : f.Within b c) : f.Within a c :=
  ReflTransGen.trans hab hbc

theorem Within.of_parent (hp : f.parent? a = some p) (hpb : f.Within p b) : f.Within a b :=
  ReflTransGen.head hp hpb

theorem within_iff : f.Within a b ↔ a = b ∨ ∃ p, f.parent? a = some p ∧ f.Within p b := by
  constructor
  · intro hab
    rcases hab.cases_head with rfl | ⟨p, hp, hpb⟩
    · exact .inl rfl
    · exact .inr ⟨p, hp, hpb⟩
  · rintro (rfl | ⟨p, hp, hpb⟩)
    · exact .refl f a
    · exact .of_parent hp hpb

theorem Within.lt_size (hab : f.Within a b) (hb : b < f.size) : a < f.size := by
  rcases within_iff.mp hab with rfl | ⟨p, hp, -⟩
  · exact hb
  · exact lt_size_of_parent?_eq hp

theorem Within.eq_of_root (hr : f.parent? a = none) (hab : f.Within a b) : b = a := by
  rcases within_iff.mp hab with rfl | ⟨p, hp, -⟩
  · rfl
  · simp [hr] at hp

theorem Within.total (hb : f.Within a b) (hc : f.Within a c) : f.Within b c ∨ f.Within c b :=
  ReflTransGen.total_of_right_unique
    (fun _ _ _ h1 h2 => Option.some.inj (Eq.trans (Eq.symm h1) h2)) hb hc

theorem Within.root_unique (hb : f.Within a b) (hc : f.Within a c) (hrb : f.parent? b = none)
    (hrc : f.parent? c = none) : b = c := by
  rcases hb.total hc with hbc | hcb
  · exact (hbc.eq_of_root hrb).symm
  · exact hcb.eq_of_root hrc

theorem WellFormed.within_lt_size (h : f.WellFormed) (hab : f.Within a b) (ha : a < f.size) :
    b < f.size := by
  induction hab with
  | refl => exact ha
  | tail _ hbc _ => exact h.lt_size_of_parent hbc

theorem WellFormed.not_within_of_parent (h : f.WellFormed) (hp : f.parent? c = some p) :
    ¬ f.Within p c := by
  intro hpc
  exact h.acyclic c (TransGen.head' hp hpc)

theorem WellFormed.ne_parent (h : f.WellFormed) (hp : f.parent? c = some p) : c ≠ p := by
  rintro rfl
  exact h.not_within_of_parent hp (.refl f c)

/-! ### The walk up -/

theorem within_of_mem_climb {n : Nat} (hb : b ∈ f.climb n a) : f.Within a b := by
  induction n generalizing a with
  | zero => simp [climb] at hb
  | succ n ih =>
    rw [climb] at hb
    split at hb
    · simp only [List.mem_singleton] at hb
      exact hb ▸ .refl f a
    · rename_i p hp
      rcases List.mem_cons.mp hb with rfl | hb
      · exact .refl f _
      · exact .of_parent hp (ih hb)

theorem WellFormed.nodup_climb (h : f.WellFormed) (n : Nat) (a : NodeId) : (f.climb n a).Nodup := by
  induction n generalizing a with
  | zero => simp [climb]
  | succ n ih =>
    rw [climb]
    split
    · simp
    · rename_i p hp
      exact List.nodup_cons.mpr ⟨fun ha => h.not_within_of_parent hp (within_of_mem_climb ha), ih p⟩

theorem WellFormed.length_climb_le (h : f.WellFormed) (n : Nat) (ha : a < f.size) :
    (f.climb n a).length ≤ f.size := by
  have hsub : f.climb n a ⊆ List.range f.size := fun b hb =>
    List.mem_range.mpr (h.within_lt_size (within_of_mem_climb hb) ha)
  simpa using (List.subperm_of_subset (h.nodup_climb n a) hsub).length_le

/-- A walk that one more step makes longer has taken all of its steps. -/
theorem climb_succ_eq_or (f : Forest) (n : Nat) (a : NodeId) :
    f.climb (n + 1) a = f.climb n a ∨ (f.climb (n + 1) a).length = n + 1 := by
  induction n generalizing a with
  | zero =>
    simp only [climb]
    split <;> simp
  | succ n ih =>
    rw [climb, climb]
    split
    · exact .inl rfl
    · rename_i p hp
      rcases ih p with he | hl
      · exact .inl (by rw [he])
      · exact .inr (by simp [hl])

/-- The walk from a node to its root ends at the root. -/
theorem WellFormed.lineage_eq (h : f.WellFormed) (ha : a < f.size) :
    f.lineage a = a :: ((f.parent? a).map f.lineage).getD [] := by
  have hstop : f.climb (f.size + 1) a = f.climb f.size a := by
    rcases climb_succ_eq_or f f.size a with he | hl
    · exact he
    · have := h.length_climb_le (f.size + 1) ha
      omega
  rw [lineage, ← hstop, climb]
  split <;> simp_all [lineage]

theorem WellFormed.mem_lineage (h : f.WellFormed) (ha : a < f.size) :
    b ∈ f.lineage a ↔ f.Within a b := by
  refine ⟨within_of_mem_climb, fun hab => ?_⟩
  induction hab using ReflTransGen.head_induction_on with
  | refl =>
    rw [h.lineage_eq ha]
    simp
  | head hp _ ih =>
    rw [h.lineage_eq ha, show f.parent? _ = some _ from hp]
    exact List.mem_cons_of_mem _ (ih (h.lt_size_of_parent hp))

/-- The test of whether a node stands below another one walks up to the root. -/
theorem WellFormed.isWithin_iff (h : f.WellFormed) (ha : a < f.size) :
    f.isWithin a b = true ↔ f.Within a b := by
  rw [isWithin, List.contains_iff_mem, h.mem_lineage ha]

end GrammarTrees.Forest
