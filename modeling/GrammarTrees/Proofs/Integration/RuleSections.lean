import GrammarTrees.Grammar.Basic
import GrammarTrees.Proofs.Forest.Gathering

/-! The sections of a tree that hold rules, and changes to a forest that leave these sections and
all that stands below them alone. -/

namespace GrammarTrees

/-- Sections of these kinds hold rules. -/
def Kind.holdsRules : Kind → Bool
  | .rules | .mode => true
  | _ => false

theorem Kind.eq_of_holdsRules {k : Kind} (h : k.holdsRules = true) : k = .rules ∨ k = .mode := by
  cases k <;> simp [holdsRules] at h ⊢

namespace Forest

open Relation

variable {f g k : Forest} {parent node source root index a b c p q t x y : Nat}
  {l nodes : List NodeId}

theorem of_firstChildOfKind? {kind : Kind} (h : f.WellFormed)
    (hc : f.firstChildOfKind? root kind = some c) : f.parent? c = some root ∧ f.kind c = kind := by
  rw [firstChildOfKind?] at hc
  exact ⟨h.mem_children.mp (List.mem_of_find?_eq_some hc), by simpa using List.find?_some hc⟩

theorem mem_childrenOfKind {kind : Kind} (h : f.WellFormed) :
    c ∈ f.childrenOfKind root kind ↔ f.parent? c = some root ∧ f.kind c = kind := by
  rw [childrenOfKind, List.mem_filter, h.mem_children, decide_eq_true_eq]

/-- The sections of the tree of `root` that hold rules. -/
def sections (f : Forest) (root : NodeId) : List NodeId :=
  (f.children root).filter fun c => (f.kind c).holdsRules

/-! ### What is read off labels and children -/

theorem kind_of_label (h : g.label a = f.label b) : g.kind a = f.kind b := by
  rw [Forest.kind, h, ← Forest.kind]

theorem text_of_label (h : g.label a = f.label b) : g.text a = f.text b := by
  rw [Forest.text, h, ← Forest.text]

section Congr

variable (hchildren : g.children x = f.children x)
  (hlabel : ∀ c ∈ f.children x, g.label c = f.label c)
include hchildren hlabel

theorem sections_congr : g.sections x = f.sections x := by
  rw [sections, hchildren, sections]
  apply List.filter_congr
  intro c hc
  rw [kind_of_label (hlabel c hc)]

theorem childrenOfKind_congr (kind : Kind) : g.childrenOfKind x kind = f.childrenOfKind x kind := by
  rw [childrenOfKind, hchildren, childrenOfKind]
  apply List.filter_congr
  intro c hc
  rw [kind_of_label (hlabel c hc)]

theorem firstChildOfKind?_congr (kind : Kind) :
    g.firstChildOfKind? x kind = f.firstChildOfKind? x kind := by
  rw [firstChildOfKind?, firstChildOfKind?, ← List.head?_filter, ← List.head?_filter,
    ← childrenOfKind, ← childrenOfKind, childrenOfKind_congr hchildren hlabel]

theorem sectionName_congr : g.sectionName x = f.sectionName x := by
  rw [sectionName, sectionName, child?, child?, hchildren]
  cases hc : (f.children x)[0]? with
  | none => rfl
  | some c =>
    simp only [Option.map_some, Option.getD_some]
    exact text_of_label (hlabel c (List.mem_of_getElem? hc))

end Congr

/-! ### Sections that hold rules -/

structure RuleSection (f : Forest) (x : NodeId) : Prop where
  holds : (f.kind x).holdsRules = true
  hangs : ∃ t, f.parent? x = some t ∧ f.parent? t = none

theorem mem_sections (h : f.WellFormed) :
    x ∈ f.sections t ↔ f.parent? x = some t ∧ (f.kind x).holdsRules = true := by
  rw [sections, List.mem_filter, h.mem_children]

theorem ruleSection_of_mem (h : f.WellFormed) (ht : f.parent? t = none) (hx : x ∈ f.sections t) :
    f.RuleSection x := by
  obtain ⟨hp, hk⟩ := (mem_sections h).mp hx
  exact ⟨hk, t, hp, ht⟩

theorem RuleSection.lt_size_of_within (hy : f.RuleSection y) (hxy : f.Within x y) :
    x < f.size := by
  obtain ⟨t, ht, -⟩ := hy.hangs
  exact hxy.lt_size (lt_size_of_parent?_eq ht)

theorem rules_eq_flatMap (grammar : Grammar) (f : Forest) :
    grammar.rules f = (f.sections grammar.root).flatMap fun x => f.childrenOfKind x .rule := by
  rw [Grammar.rules, sections]
  induction f.children grammar.root with
  | nil => rfl
  | cons c cs ih =>
    rw [List.flatMap_cons, ih, List.filter_cons]
    cases hk : f.kind c <;> simp [Kind.holdsRules]

/-! ### Nodes apart from each other -/

/-- Nodes of different trees do not stand below each other. -/
theorem not_within_of_roots (ha : f.Within a root) (hb : f.Within b t)
    (hr : f.parent? root = none) (ht : f.parent? t = none) (hne : root ≠ t) :
    ¬ f.Within a b := by
  intro hab
  exact hne (ha.root_unique (hab.trans hb) hr ht)

theorem Grown.not_within (hf : f.WellFormed) (hk : f.Grown k) (ha : a < f.size)
    (hb : f.size ≤ b) : ¬ k.Within a b := by
  intro hab
  have := hf.within_lt_size (hk.within hf ha hab) ha
  omega

/-! ### Nodes outside of sections -/

/-- No section that holds rules is or has the node. -/
def Outside (f : Forest) (x : NodeId) : Prop := ∀ y, f.RuleSection y → ¬ f.Within x y

theorem outside_of_root (hx : f.parent? x = none) : f.Outside x := by
  intro y hy hxy
  obtain ⟨t, ht, -⟩ := hy.hangs
  rw [hxy.eq_of_root hx, hx] at ht
  simp at ht

theorem outside_of_kind (hp : f.parent? x = some t) (ht : f.parent? t = none)
    (hk : (f.kind x).holdsRules = false) : f.Outside x := by
  intro y hy hxy
  rcases within_iff.mp hxy with rfl | ⟨p, hp', hpy⟩
  · rw [hy.holds] at hk
    exact Bool.noConfusion hk
  · obtain rfl := Option.some.inj (hp.symm.trans hp')
    exact outside_of_root ht y hy hpy

theorem Outside.of_parent (ho : f.Outside p) (hp : f.parent? x = some p)
    (hq : f.parent? p = some q) : f.Outside x := by
  intro y hy hxy
  rcases within_iff.mp hxy with rfl | ⟨p', hp', hpy⟩
  · obtain ⟨t, ht, hroot⟩ := hy.hangs
    obtain rfl := Option.some.inj (hp.symm.trans ht)
    rw [hq] at hroot
    simp at hroot
  · obtain rfl := Option.some.inj (hp.symm.trans hp')
    exact ho y hy hpy

/-! ### Changes apart from sections -/

/-- The children of `t` end with the sections `l`, and another one stands before them. -/
structure Ends (f : Forest) (t : NodeId) (l : List NodeId) : Prop where
  holds : ∀ c ∈ l, (f.kind c).holdsRules = true
  split : ∃ front, f.children t = front ++ l ∧ ∃ x ∈ front, (f.kind x).holdsRules = true

/-- New nodes right after the first child do not stand among the sections at the end. -/
theorem Ends.insert {new : List NodeId} (hl : f.Ends t l)
    (hchildren : g.children t = (f.children t).take 1 ++ (new ++ (f.children t).drop 1))
    (hkind : ∀ c ∈ f.children t, g.kind c = f.kind c) : g.Ends t l := by
  obtain ⟨front, hsplit, x, hx, hk⟩ := hl.split
  obtain ⟨b, bs, rfl⟩ := List.exists_cons_of_ne_nil (List.ne_nil_of_mem hx)
  rw [hsplit] at hkind
  refine ⟨fun c hc => ?_, b :: (new ++ bs), ?_, x, ?_, ?_⟩
  · rw [hkind c (List.mem_append_right _ hc)]
    exact hl.holds c hc
  · rw [hchildren, hsplit]
    simp
  · rcases List.mem_cons.mp hx with rfl | hx
    · exact List.mem_cons_self
    · exact List.mem_cons_of_mem b (List.mem_append_right _ hx)
  · rw [hkind x (List.mem_append_left _ hx)]
    exact hk

theorem Ends.congr (hl : f.Ends t l) (hchildren : g.children t = f.children t)
    (hkind : ∀ c ∈ f.children t, g.kind c = f.kind c) : g.Ends t l := by
  have hsame : g.children t = (f.children t).take 1 ++ ([] ++ (f.children t).drop 1) := by
    rw [hchildren, List.nil_append, List.take_append_drop]
  exact hl.insert hsame hkind

/-- A new section at the end is one of the sections there. -/
theorem Ends.concat (hl : f.Ends t l) (hchildren : g.children t = f.children t ++ [y])
    (hkind : ∀ c ∈ f.children t, g.kind c = f.kind c) (hy : (g.kind y).holdsRules = true) :
    g.Ends t (l ++ [y]) := by
  obtain ⟨front, hsplit, x, hx, hk⟩ := hl.split
  rw [hsplit] at hkind
  refine ⟨fun c hc => ?_, front, ?_, x, hx, ?_⟩
  · rcases List.mem_append.mp hc with hc | hc
    · rw [hkind c (List.mem_append_right _ hc)]
      exact hl.holds c hc
    · rw [List.mem_singleton.mp hc]
      exact hy
  · rw [hchildren, hsplit, List.append_assoc]
  · rw [hkind x (List.mem_append_left _ hx)]
    exact hk

/-- `g` is `f` with changes apart from the sections that hold rules. -/
structure Apart (f g : Forest) : Prop where
  wellFormed : g.WellFormed
  size_le : f.size ≤ g.size
  roots : ∀ x < f.size, f.parent? x = none → g.parent? x = none
  sections : ∀ t < f.size, f.parent? t = none → g.sections t = f.sections t
  ends : ∀ t < f.size, f.parent? t = none → ∀ l, f.Ends t l → g.Ends t l
  below : ∀ x y, f.RuleSection y → f.Within x y →
    g.label x = f.label x ∧ g.children x = f.children x

namespace Apart

theorem refl (h : f.WellFormed) : f.Apart f :=
  ⟨h, Nat.le_refl _, fun _ _ hx => hx, fun _ _ _ => rfl, fun _ _ _ _ hl => hl,
    fun _ _ _ _ => ⟨rfl, rfl⟩⟩

section

variable (h : f.WellFormed) (hg : f.Apart g)
include h hg

theorem ruleSection (hy : f.RuleSection y) : g.RuleSection y := by
  obtain ⟨t, hp, ht⟩ := hy.hangs
  have hlt := h.lt_size_of_parent hp
  refine ruleSection_of_mem hg.wellFormed (hg.roots t hlt ht) ?_
  rw [hg.sections t hlt ht]
  exact (mem_sections h).mpr ⟨hp, hy.holds⟩

theorem parent?_of_within (hy : f.RuleSection y) (hxy : f.Within x y) :
    g.parent? x = f.parent? x := by
  rcases within_iff.mp hxy with rfl | ⟨p, hp, hpy⟩
  · obtain ⟨t, hp, ht⟩ := hy.hangs
    have hlt := h.lt_size_of_parent hp
    have hmem : x ∈ g.sections t := by
      rw [hg.sections t hlt ht]
      exact (mem_sections h).mpr ⟨hp, hy.holds⟩
    rw [((mem_sections hg.wellFormed).mp hmem).1, hp]
  · have hmem : x ∈ g.children p := by
      rw [(hg.below p y hy hpy).2]
      exact h.mem_children.mpr hp
    rw [hg.wellFormed.mem_children.mp hmem, hp]

theorem within (hy : f.RuleSection y) (hxy : f.Within x y) : g.Within x y := by
  induction hxy using ReflTransGen.head_induction_on with
  | refl => exact .refl g y
  | @head x p hp hpy ih =>
    have hx : g.parent? x = f.parent? x :=
      parent?_of_within h hg hy (.of_parent hp hpy)
    exact .of_parent (hx.trans hp) ih

end

theorem trans (h : f.WellFormed) (hfg : f.Apart g) (hgk : g.Apart k) : f.Apart k := by
  have hlt : ∀ x < f.size, x < g.size := fun x hx => Nat.lt_of_lt_of_le hx hfg.size_le
  refine ⟨hgk.wellFormed, Nat.le_trans hfg.size_le hgk.size_le,
    fun x hx hr => hgk.roots x (hlt x hx) (hfg.roots x hx hr), fun t ht hr => ?_,
    fun t ht hr l hl => hgk.ends t (hlt t ht) (hfg.roots t ht hr) l (hfg.ends t ht hr l hl),
    fun x y hy hxy => ?_⟩
  · rw [hgk.sections t (hlt t ht) (hfg.roots t ht hr), hfg.sections t ht hr]
  · obtain ⟨h1, h2⟩ := hfg.below x y hy hxy
    obtain ⟨h3, h4⟩ := hgk.below x y (ruleSection h hfg hy) (within h hfg hy hxy)
    exact ⟨h3.trans h1, h4.trans h2⟩

end Apart

theorem Grown.kind (hg : f.Grown g) (hx : x < f.size) : g.kind x = f.kind x :=
  kind_of_label (hg.label hx)

theorem Grown.sections (hf : f.WellFormed) (hg : f.Grown g) (ht : t < f.size) :
    g.sections t = f.sections t :=
  sections_congr (hg.children ht) fun _ hc => hg.label (hf.lt_size_of_child hc)

theorem PlantedBelow.sections {ts : List (Tree Label)} (hg : f.PlantedBelow g p ts)
    (hf : f.WellFormed) (ht : t < f.size) (hne : t ≠ p) : g.sections t = f.sections t :=
  sections_congr (hg.children_eq ht hne) fun _ hc => hg.label_eq (hf.lt_size_of_child hc)

/-- A new tree below a node is a section of it if it is of such a kind. -/
theorem PlantedBelow.sections_parent {u : Tree Label} (hg : f.PlantedBelow g p [u])
    (hf : f.WellFormed) (hc : g.children p = f.children p ++ [c]) :
    g.kind c = u.label.kind ∧
      g.sections p = f.sections p ++ if u.label.kind.holdsRules then [c] else [] := by
  have hkind : g.kind c = u.label.kind := by
    rw [Forest.kind, (hg.last hc).1]
  refine ⟨hkind, ?_⟩
  rw [Forest.sections, hc, List.filter_append, Forest.sections]
  congr 1
  · apply List.filter_congr
    intro d hd
    rw [kind_of_label (hg.label_eq (hf.lt_size_of_child hd))]
  · rw [List.filter_cons, hkind, List.filter_nil]

theorem Grown.apart (hf : f.WellFormed) (hg : f.Grown g) : f.Apart g := by
  refine ⟨hg.wellFormed, hg.size_le, fun x hx hr => (hg.parent? hx).trans hr,
    fun t ht _ => hg.sections hf ht, fun t ht _ l hl => ?_, fun x y hy hxy => ?_⟩
  · exact hl.congr (hg.children ht) fun c hc => hg.kind (hf.lt_size_of_child hc)
  · have hlt := hy.lt_size_of_within hxy
    exact ⟨hg.label hlt, hg.children hlt⟩

theorem Moved.kind (hg : k.Moved g parent node index) (x : NodeId) : g.kind x = k.kind x :=
  kind_of_label (hg.label x)

theorem filter_erase_of_neg {P : Nat → Bool} (ha : P a = false) (l : List Nat) :
    (l.erase a).filter P = l.filter P := by
  induction l with
  | nil => rfl
  | cons b l ih =>
    by_cases hb : b = a
    · subst hb
      rw [List.erase_cons_head, List.filter_cons_of_neg (by simp [ha])]
    · rw [List.erase_cons_tail (by simpa using hb), List.filter_cons, List.filter_cons, ih]

theorem filter_insertIdx_of_neg {P : Nat → Bool} (ha : P a = false) (l : List Nat) (i : Nat) :
    (l.insertIdx i a).filter P = l.filter P := by
  induction l generalizing i with
  | nil =>
    cases i with
    | zero => simp [ha]
    | succ i => rfl
  | cons b l ih =>
    cases i with
    | zero => rw [List.insertIdx_zero, List.filter_cons_of_neg (by simp [ha])]
    | succ i => rw [List.insertIdx_succ_cons, List.filter_cons, List.filter_cons, ih]

section Moving

variable (hk : f.Grown k) (hg : k.Moved g parent node index)
include hk hg

theorem Moved.children_of_grown (hf : f.WellFormed) (hnode : f.size ≤ node) (hx : x < f.size) :
    g.children x = if x = parent then (f.children x).insertIdx index node else f.children x := by
  have hnot : node ∉ f.children x := fun hmem =>
    absurd (hf.lt_size_of_child hmem) (Nat.not_lt.mpr hnode)
  rw [hg.children]
  split
  · rename_i he
    rw [← he, hk.children hx, List.erase_of_not_mem hnot]
  · rw [hk.children hx, List.erase_of_not_mem hnot]

/-- A new node is hung outside of sections. A root takes in no further section by it, and nothing in
front of its first child. -/
theorem Moved.apart (hf : f.WellFormed) (hparent : f.Outside parent) (hnode : f.size ≤ node)
    (hplace : f.parent? parent ≠ none ∨ index = 1 ∧ (k.kind node).holdsRules = false) :
    f.Apart g := by
  have hchildren : ∀ x < f.size, g.children x =
      if x = parent then (f.children x).insertIdx index node else f.children x :=
    fun x hx => hg.children_of_grown hk hf hnode hx
  have hne : ∀ x < f.size, x ≠ node := fun x hx => Nat.ne_of_lt (Nat.lt_of_lt_of_le hx hnode)
  refine ⟨hg.wellFormed, hg.size ▸ hk.size_le, fun x hx hr => ?_, fun t ht hr => ?_,
    fun t ht hr l hl => ?_, fun x y hy hxy => ?_⟩
  · rw [hg.parent?_of_ne (hne x hx), hk.parent? hx, hr]
  · have hfilter : g.sections t = (g.children t).filter fun c => (k.kind c).holdsRules := by
      simp only [Forest.sections, hg.kind]
    rw [hfilter, ← hk.sections hf ht, Forest.sections, hk.children ht, hchildren t ht]
    split
    · rename_i he
      obtain ⟨-, hneg⟩ := hplace.resolve_left fun hroot => hroot (he ▸ hr)
      rw [filter_insertIdx_of_neg hneg]
    · rfl
  · have hkind : ∀ c ∈ f.children t, g.kind c = f.kind c := by
      intro c hc
      rw [hg.kind, hk.kind (hf.lt_size_of_child hc)]
    have hsame := hchildren t ht
    split at hsame
    · rename_i he
      obtain ⟨rfl, -⟩ := hplace.resolve_left fun hroot => hroot (he ▸ hr)
      obtain ⟨front, hsplit, x, hx, -⟩ := hl.split
      obtain ⟨b, bs, rfl⟩ := List.exists_cons_of_ne_nil (List.ne_nil_of_mem hx)
      have hinsert : (f.children t).insertIdx 1 node =
          (f.children t).take 1 ++ ([node] ++ (f.children t).drop 1) := by
        rw [hsplit]
        rfl
      exact hl.insert (hsame.trans hinsert) hkind
    · exact hl.congr hsame hkind
  · have hlt := hy.lt_size_of_within hxy
    have hxp : x ≠ parent := by
      rintro rfl
      exact hparent y hy hxy
    rw [hg.label, hk.label hlt, hchildren x hlt, if_neg hxp]
    exact ⟨rfl, rfl⟩

end Moving

section Gathering

variable (hg : f.Gathered g parent source nodes)
include hg

theorem Gathered.kind (x : NodeId) : g.kind x = f.kind x := kind_of_label (hg.label x)

theorem Gathered.children_of_ne (hf : f.WellFormed)
    (hnodes : ∀ n ∈ nodes, f.parent? n = some source) (hp : x ≠ parent) (hs : x ≠ source) :
    g.children x = f.children x := by
  rw [hg.children, if_neg hp, List.filter_eq_self]
  intro c hc
  rw [decide_eq_true_eq]
  intro hn
  have hcs := hnodes c hn
  rw [hf.mem_children.mp hc] at hcs
  exact hs (Option.some.inj hcs)

/-- Moving children from one node to another, neither of which is a root, changes no children of
roots. -/
theorem Gathered.children_of_root (hf : f.WellFormed)
    (hnodes : ∀ n ∈ nodes, f.parent? n = some source) (hp : f.parent? parent ≠ none)
    (hs : f.parent? source ≠ none) (ht : f.parent? t = none) : g.children t = f.children t := by
  refine hg.children_of_ne hf hnodes ?_ ?_
  · rintro rfl
    exact hp ht
  · rintro rfl
    exact hs ht

theorem Gathered.roots (hnodes : ∀ n ∈ nodes, f.parent? n = some source)
    (hx : f.parent? x = none) : g.parent? x = none := by
  rw [hg.parent?, if_neg, hx]
  intro hn
  rw [hnodes x hn] at hx
  simp at hx

end Gathering

/-- Moving nodes between places that are neither roots nor parts of sections changes no section. -/
theorem Collected.apart (hf : f.WellFormed) (hg : f.Collected g parent nodes)
    (hp : f.parent? parent ≠ none) (hparent : f.Outside parent)
    (hnodes : ∀ n ∈ nodes, ∃ q, f.parent? n = some q ∧ f.parent? q ≠ none ∧ f.Outside q) :
    f.Apart g := by
  have hkind : ∀ x, g.kind x = f.kind x := fun x => kind_of_label (hg.label x)
  have hroot : ∀ t, f.parent? t = none → g.children t = f.children t := by
    intro t ht
    refine hg.children_of_ne hf (fun he => hp (he ▸ ht)) fun n hn hnt => ?_
    obtain ⟨q, hnq, hq, -⟩ := hnodes n hn
    obtain rfl : q = t := Option.some.inj (hnq.symm.trans hnt)
    exact hq ht
  refine ⟨hg.wellFormed, Nat.le_of_eq hg.size.symm, fun x _ hx => ?_, fun t _ ht => ?_,
    fun t _ ht l hl => hl.congr (hroot t ht) fun c _ => hkind c,
    fun x y hy hxy => ⟨hg.label x, ?_⟩⟩
  · rw [hg.parent?, if_neg, hx]
    intro hn
    obtain ⟨q, hxq, -⟩ := hnodes x hn
    simp [hx] at hxq
  · rw [Forest.sections, Forest.sections, hroot t ht]
    simp only [hkind]
  · refine hg.children_of_ne hf (fun he => hparent y hy (he ▸ hxy)) fun n hn hnx => ?_
    obtain ⟨q, hnq, -, ho⟩ := hnodes n hn
    obtain rfl : q = x := Option.some.inj (hnq.symm.trans hnx)
    exact ho y hy hxy

end Forest

end GrammarTrees
