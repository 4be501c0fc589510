import GrammarTrees.Proofs.Integration.Steadiness

/-! Steps of integration that change the sections of one kind. Nodes move from such sections of one
tree to those of another, or a new section is hung below its root. What hangs below a root stays
there, and sections of other kinds are what they were. -/

namespace GrammarTrees.Forest

variable {f g k l : Forest} {T : NodeId → Prop} {kind other : Kind}
  {root source parent target node index p s t x : Nat} {nodes : List NodeId}

/-- A section of the given kind in the tree of `root` or of `source`. -/
def Part (f : Forest) (kind : Kind) (root source x : NodeId) : Prop :=
  f.kind x = kind ∧ (f.parent? x = some root ∨ f.parent? x = some source)

/-- `g` is `f` after changes to the sections of one kind in the trees of `root` and `source`. Nodes
that leave the place where they hung are below `root` afterwards. -/
structure Shifted (kind : Kind) (root source : NodeId) (f g : Forest) : Prop where
  wellFormed : g.WellFormed
  size_le : f.size ≤ g.size
  label : ∀ x < f.size, g.label x = f.label x
  isRoot : ∀ x < f.size, f.parent? x = none → g.parent? x = none
  hangs : ∀ x < f.size, g.parent? x = some root ↔ f.parent? x = some root
  sections : ∀ other ≠ kind, g.childrenOfKind root other = f.childrenOfKind root other
  children : ∀ x < f.size, x ≠ root → ¬ f.Part kind root source x → g.children x = f.children x
  stays : ∀ x p, f.parent? x = some p → g.parent? x = some p ∨ g.Within x root

theorem Part.parent?_ne_none (hx : f.Part kind root source x) : f.parent? x ≠ none := by
  rcases hx.2 with hp | hp <;> simp [hp]

theorem not_part_of_root (hx : f.parent? x = none) : ¬ f.Part kind root source x :=
  fun hpart => hpart.parent?_ne_none hx

theorem Part.left (hk : f.kind x = kind) (hp : f.parent? x = some root) (source : NodeId) :
    f.Part kind root source x := ⟨hk, .inl hp⟩

namespace Shifted

theorem refl (hf : f.WellFormed) (kind : Kind) (root source : NodeId) :
    Shifted kind root source f f :=
  ⟨hf, Nat.le_refl _, fun _ _ => rfl, fun _ _ hx => hx, fun _ _ => Iff.rfl, fun _ _ => rfl,
    fun _ _ _ _ => rfl, fun _ _ hp => .inl hp⟩

variable (hg : Shifted kind root source f g)
include hg

theorem kind_eq (hx : x < f.size) : g.kind x = f.kind x := kind_of_label (hg.label x hx)

theorem within (hw : f.Within x root) : g.Within x root := by
  induction hw using Relation.ReflTransGen.head_induction_on with
  | refl => exact .refl g root
  | @head x p hxp _ ih =>
    rcases hg.stays x p hxp with hp | hw
    · exact .of_parent hp ih
    · exact hw

/-- The children of other roots are what they were. -/
theorem children_of_root (ht : t < f.size) (hroot : f.parent? t = none) (hne : t ≠ root) :
    g.children t = f.children t :=
  hg.children t ht hne (not_part_of_root hroot)

theorem parent?_of_root (hf : f.WellFormed) (ht : t < f.size) (hroot : f.parent? t = none)
    (hx : x < f.size) : g.parent? x = some t ↔ f.parent? x = some t := by
  by_cases hne : t = root
  · subst hne
    exact hg.hangs x hx
  · rw [← hg.wellFormed.mem_children, hg.children_of_root ht hroot hne, hf.mem_children]

theorem trans (hT : f.Rooted T) (hi : T source)
    (hk : Shifted kind root source g k) : Shifted kind root source f k := by
  have hlt : ∀ x < f.size, x < g.size := fun x hx => Nat.lt_of_lt_of_le hx hg.size_le
  have hpart : ∀ x < f.size, g.Part kind root source x → f.Part kind root source x := by
    rintro x hx ⟨hkind, hp⟩
    refine ⟨(hg.kind_eq hx).symm.trans hkind, hp.imp (hg.hangs x hx).mp ?_⟩
    exact (hg.parent?_of_root hT.wellFormed (hT.lt_size source hi) (hT.isRoot source hi) hx).mp
  refine ⟨hk.wellFormed, Nat.le_trans hg.size_le hk.size_le, fun x hx => ?_, fun x hx hroot => ?_,
    fun x hx => (hk.hangs x (hlt x hx)).trans (hg.hangs x hx), fun other hne => ?_,
    fun x hx hne hnot => ?_, fun x p hp => ?_⟩
  · rw [hk.label x (hlt x hx), hg.label x hx]
  · exact hk.isRoot x (hlt x hx) (hg.isRoot x hx hroot)
  · rw [hk.sections other hne, hg.sections other hne]
  · rw [hk.children x (hlt x hx) hne fun h => hnot (hpart x hx h), hg.children x hx hne hnot]
  · rcases hg.stays x p hp with hp | hw
    · exact hk.stays x p hp
    · exact .inr (hk.within hw)

end Shifted

/-! ### Steps -/

section Parts

variable (hnodes : ∀ n ∈ nodes, ∃ q, f.parent? n = some q ∧ f.Part kind root source q)
include hnodes

theorem not_mem_of_root (hx : f.parent? x = none) : x ∉ nodes := by
  intro hmem
  obtain ⟨q, hq, -⟩ := hnodes x hmem
  simp [hx] at hq

theorem parent?_ne_of_not_part (hnot : ¬ f.Part kind root source x) :
    ∀ n ∈ nodes, f.parent? n ≠ some x := by
  intro n hn hnx
  obtain ⟨q, hq, hpart⟩ := hnodes n hn
  exact hnot (Option.some.inj (hq.symm.trans hnx) ▸ hpart)

/-- Sections themselves are not among the nodes. -/
theorem not_mem_of_section (hx : f.parent? x = some t) (ht : f.parent? t = none) : x ∉ nodes :=
  fun hmem => parent?_ne_of_not_part hnodes (not_part_of_root ht) x hmem hx

end Parts

theorem Grown.shifted (hf : f.WellFormed) (hr : root < f.size) (hg : f.Grown g) (kind : Kind)
    (source : NodeId) : Shifted kind root source f g := by
  refine ⟨hg.wellFormed, hg.size_le, fun x hx => hg.label hx, fun x hx hroot => ?_, fun x hx => ?_,
    fun other _ => ?_, fun x hx _ _ => hg.children hx, fun x p hp => .inl ?_⟩
  · rw [hg.parent? hx, hroot]
  · rw [hg.parent? hx]
  · exact childrenOfKind_congr (hg.children hr) (fun c hc => hg.label (hf.lt_size_of_child hc))
      other
  · rw [hg.parent? (lt_size_of_parent?_eq hp), hp]

/-- Nodes move from sections to a section of the tree of `root`. -/
theorem Collected.shifted (hf : f.WellFormed) (hr : f.parent? root = none)
    (hg : f.Collected g target nodes) (hkind : f.kind target = kind)
    (hp : f.parent? target = some root)
    (hnodes : ∀ n ∈ nodes, ∃ q, f.parent? n = some q ∧ f.Part kind root source q) :
    Shifted kind root source f g := by
  have hchildren : ∀ x, x ≠ target → ¬ f.Part kind root source x →
      g.children x = f.children x := fun x hx hnot =>
    hg.children_of_ne hf hx (parent?_ne_of_not_part hnodes hnot)
  have hstays : ∀ x p, f.parent? x = some p → f.parent? p = none → g.parent? x = some p := by
    intro x p hxp hroot
    rw [hg.parent?, if_neg (not_mem_of_section hnodes hxp hroot), hxp]
  have hne : target ≠ root := ne_of_parent hr hp
  refine ⟨hg.wellFormed, Nat.le_of_eq hg.size.symm, fun x _ => hg.label x, fun x _ hroot => ?_,
    fun x _ => ⟨fun hx => ?_, fun hx => hstays x root hx hr⟩, fun other _ => ?_,
    fun x _ _ hnot => hchildren x ?_ hnot, fun x p hxp => ?_⟩
  · rw [hg.parent?, if_neg (not_mem_of_root hnodes hroot), hroot]
  · rw [hg.parent?] at hx
    split at hx
    · exact absurd (Option.some.inj hx) hne
    · exact hx
  · exact childrenOfKind_congr (hchildren root hne.symm (not_part_of_root hr))
      (fun c _ => hg.label c) other
  · rintro rfl
    exact hnot (.left hkind hp source)
  · rw [hg.parent?]
    split
    · rename_i hmem
      refine .inr (.of_parent ?_ (.of_parent (hstays target root hp hr) (.refl g root)))
      rw [hg.parent?, if_pos hmem]
    · exact .inl hxp

/-- A node that comes below a root is not among the sections of other kinds there. -/
theorem Moved.childrenOfKind_eq (hg : l.Moved g parent node index) (hfree : node ∉ l.children root)
    (hroot : l.children root = f.children root)
    (hlabel : ∀ c ∈ f.children root, g.label c = f.label c)
    (hnode : root = parent → g.kind node ≠ other) :
    g.childrenOfKind root other = f.childrenOfKind root other := by
  have hkinds : ∀ c ∈ f.children root, decide (g.kind c = other) = decide (f.kind c = other) :=
    fun c hc => by rw [kind_of_label (hlabel c hc)]
  rw [childrenOfKind, hg.children, List.erase_of_not_mem hfree, hroot]
  split
  · rename_i he
    rw [← he, hroot, List.erase_of_not_mem (hroot ▸ hfree),
      filter_insertIdx_of_neg (decide_eq_false (hnode he))]
    exact List.filter_congr hkinds
  · exact List.filter_congr hkinds

/-- A new tree, which may take in nodes from sections, is hung below the root as a section or below
a section. -/
theorem Moved.shifted (hf : f.WellFormed) (hr : f.parent? root = none) (hlt : root < f.size)
    (hk : f.Grown k) (hl : k.Collected l node nodes) (hg : l.Moved g parent node index)
    (hnew : f.size ≤ node) (hfree : k.parent? node = none)
    (hparent : parent = root ∧ k.kind node = kind ∨
      f.parent? parent = some root ∧ f.kind parent = kind)
    (hnodes : ∀ n ∈ nodes, ∃ q, f.parent? n = some q ∧ f.Part kind root source q) :
    Shifted kind root source f g := by
  have hold : ∀ x < f.size, x ≠ node := fun x hx => Nat.ne_of_lt (Nat.lt_of_lt_of_le hx hnew)
  have hfree' : ∀ x, node ∉ l.children x := by
    intro x
    apply hl.wellFormed.not_mem_children_of_root
    rw [hl.parent?, if_neg, hfree]
    intro hmem
    obtain ⟨q, hq, -⟩ := hnodes node hmem
    exact hold node (lt_size_of_parent?_eq hq) rfl
  have hlabel : ∀ x < f.size, g.label x = f.label x := by
    intro x hx
    rw [hg.label, hl.label, hk.label hx]
  have hpar : ∀ x < f.size, g.parent? x = if x ∈ nodes then some node else f.parent? x := by
    intro x hx
    rw [hg.parent?_of_ne (hold x hx), hl.parent?, hk.parent? hx]
  have hchildren : ∀ x < f.size, ¬ f.Part kind root source x → l.children x = f.children x := by
    intro x hx hnot
    rw [hl.children_of_ne hk.wellFormed (hold x hx), hk.children hx]
    intro n hn
    obtain ⟨q, hq, -⟩ := hnodes n hn
    rw [hk.parent? (lt_size_of_parent?_eq hq)]
    exact parent?_ne_of_not_part hnodes hnot n hn
  have hnode : g.Within node root := by
    rcases hparent with ⟨rfl, -⟩ | ⟨hp, -⟩
    · exact .of_parent hg.hangs (.refl g _)
    · refine .of_parent hg.hangs (.of_parent ?_ (.refl g root))
      rw [hpar parent (lt_size_of_parent?_eq hp), if_neg (not_mem_of_section hnodes hp hr), hp]
  have hroot := hchildren root hlt (not_part_of_root hr)
  refine ⟨hg.wellFormed, ?_, hlabel, fun x hx hx' => ?_, fun x hx => ?_, fun other hother => ?_,
    fun x hx hne hnot => ?_, fun x p hxp => ?_⟩
  · rw [hg.size, hl.size]
    exact hk.size_le
  · rw [hpar x hx, if_neg (not_mem_of_root hnodes hx'), hx']
  · rw [hpar x hx]
    split
    · rename_i hmem
      refine ⟨fun he => absurd (Option.some.inj he) (hold root hlt).symm, fun he => ?_⟩
      exact absurd hmem (not_mem_of_section hnodes he hr)
    · exact Iff.rfl
  · refine hg.childrenOfKind_eq (hfree' root) hroot
      (fun c hc => hlabel c (hf.lt_size_of_child hc)) ?_
    rintro rfl he
    rcases hparent with ⟨-, hkind⟩ | ⟨hp, -⟩
    · rw [hg.kind, kind_of_label (hl.label node), hkind] at he
      exact hother he.symm
    · simp [hr] at hp
  · have hnp : x ≠ parent := by
      rintro rfl
      rcases hparent with ⟨rfl, -⟩ | ⟨hp, hkind⟩
      · exact hne rfl
      · exact hnot (.left hkind hp source)
    rw [hg.children, if_neg hnp, List.erase_of_not_mem (hfree' x), hchildren x hx hnot]
  · rw [hpar x (lt_size_of_parent?_eq hxp)]
    split
    · rename_i hmem
      refine .inr (.of_parent ?_ hnode)
      rw [hpar x (lt_size_of_parent?_eq hxp), if_pos hmem]
    · exact .inl hxp

/-- Children of a section move to another section. -/
theorem pushChildren_shifted (hf : f.WellFormed) (hr : f.parent? root = none)
    (hkind : f.kind target = kind) (hp : f.parent? target = some root)
    (hx : f.Part kind root source x)
    (hnodes : ∀ n ∈ nodes, f.parent? n = some x) (hnodup : nodes.Nodup) :
    ∃ g, f.pushChildren target nodes = .ok g ∧ f.Collected g target nodes ∧
      Shifted kind root source f g := by
  have hapart : ∀ n ∈ nodes, ¬ f.Within target n := fun n hn =>
    not_within_of_section hp hr (hnodes n hn) hx.parent?_ne_none
  obtain ⟨g, hg, hcollected⟩ := pushChildren_collected hf (lt_size_of_parent?_eq hp)
    (fun n hn => lt_size_of_parent?_eq (hnodes n hn)) hapart hnodup
  exact ⟨g, hg, hcollected, hcollected.shifted hf hr hkind hp fun n hn => ⟨x, hnodes n hn, hx⟩⟩

/-! ### Sections that are kept -/

/-- The sections of one kind in the trees of `T` are in `g` what they were in `f`. -/
structure Keeps (kind : Kind) (T : NodeId → Prop) (f g : Forest) : Prop where
  sections : ∀ t, T t → g.childrenOfKind t kind = f.childrenOfKind t kind
  below : ∀ t s x, T t → s ∈ f.childrenOfKind t kind → f.Within x s →
    g.children x = f.children x ∧ g.label x = f.label x

namespace Keeps

variable (hg : Keeps kind T f g)
include hg

theorem mono {U : NodeId → Prop} (h : ∀ t, U t → T t) : Keeps kind U f g :=
  ⟨fun t ht => hg.sections t (h t ht), fun t s x ht => hg.below t s x (h t ht)⟩

theorem within (hf : f.WellFormed) (hw : g.WellFormed) (ht : T t)
    (hs : s ∈ f.childrenOfKind t kind) (hx : f.Within x s) : g.Within x s := by
  induction hx using Relation.ReflTransGen.head_induction_on with
  | refl => exact .refl g s
  | @head x p hxp hps ih =>
    refine .of_parent (hw.mem_children.mp ?_) ih
    rw [(hg.below t s p ht hs hps).1]
    exact hf.mem_children.mpr hxp

theorem trans (hf : f.WellFormed) (hw : g.WellFormed) (hk : Keeps kind T g k) :
    Keeps kind T f k := by
  refine ⟨fun t ht => (hk.sections t ht).trans (hg.sections t ht), fun t s x ht hs hx => ?_⟩
  obtain ⟨hchildren, hlabel⟩ := hg.below t s x ht hs hx
  obtain ⟨hchildren', hlabel'⟩ :=
    hk.below t s x ht (hg.sections t ht ▸ hs) (hg.within hf hw ht hs hx)
  exact ⟨hchildren'.trans hchildren, hlabel'.trans hlabel⟩

theorem firstChildOfKind?_eq (ht : T t) :
    g.firstChildOfKind? t kind = f.firstChildOfKind? t kind := by
  rw [firstChildOfKind?, firstChildOfKind?, ← List.head?_filter, ← List.head?_filter,
    ← childrenOfKind, ← childrenOfKind, hg.sections t ht]

end Keeps

/-- Sections of other kinds and of other trees are kept. -/
theorem Shifted.keeps (hT : f.Rooted T) (hr : f.parent? root = none) (hs : f.parent? source = none)
    (hg : Shifted kind root source f g)
    (hother : ∀ t, T t → other ≠ kind ∨ t ≠ root ∧ t ≠ source) : Keeps other T f g := by
  refine ⟨fun t ht => ?_, fun t s x ht hst hw => ?_⟩
  · by_cases he : t = root
    · exact he ▸ hg.sections other ((hother t ht).resolve_right fun h => h.1 he)
    · exact childrenOfKind_congr (hg.children_of_root (hT.lt_size t ht) (hT.isRoot t ht) he)
        (fun c hc => hg.label c (hT.wellFormed.lt_size_of_child hc)) other
  · obtain ⟨hp, hk⟩ := (mem_childrenOfKind hT.wellFormed).mp hst
    have hlt := hw.lt_size (lt_size_of_parent?_eq hp)
    have htop : ∀ u, f.parent? u = none → ¬ f.Within u s := by
      intro u hu hus
      rw [hus.eq_of_root hu, hu] at hp
      simp at hp
    refine ⟨hg.children x hlt ?_ fun hpart => ?_, hg.label x hlt⟩
    · rintro rfl
      exact htop x hr hw
    · obtain ⟨u, hxu, hu, hroot⟩ :
          ∃ u, f.parent? x = some u ∧ (u = root ∨ u = source) ∧ f.parent? u = none := by
        rcases hpart.2 with hxu | hxu
        · exact ⟨root, hxu, .inl rfl, hr⟩
        · exact ⟨source, hxu, .inr rfl, hs⟩
      rcases within_iff.mp hw with rfl | ⟨q, hxq, hqs⟩
      · obtain rfl : u = t := Option.some.inj (hxu.symm.trans hp)
        rcases hother u ht with hne | ⟨hne, hne'⟩
        · exact hne (hk.symm.trans hpart.1)
        · exact hu.elim hne hne'
      · obtain rfl : u = q := Option.some.inj (hxu.symm.trans hxq)
        exact htop u hroot hqs

/-- A step that leaves the named actions alone. -/
theorem Shifted.steady (hT : f.Rooted T) (ht : T root) (hi : T source)
    (hg : Shifted kind root source f g) (hkind : kind ≠ .namedAction) : f.Steady T g := by
  have hkeeps : Keeps .namedAction T f g :=
    hg.keeps hT (hT.isRoot root ht) (hT.isRoot source hi) fun _ _ => .inl hkind.symm
  refine ⟨hg.wellFormed, hg.size_le, hg.label, fun t ht => ?_, fun t x ht hp => ?_,
    hkeeps.sections, fun a x ha hw => ?_⟩
  · exact hg.isRoot t (hT.lt_size t ht) (hT.isRoot t ht)
  · exact (hg.parent?_of_root hT.wellFormed (hT.lt_size t ht) (hT.isRoot t ht)
      (lt_size_of_parent?_eq hp)).mpr hp
  · obtain ⟨hk, t, ht, hp⟩ := ha
    exact (hkeeps.below t a x ht ((mem_childrenOfKind hT.wellFormed).mpr ⟨hp, hk⟩) hw).1

end GrammarTrees.Forest
