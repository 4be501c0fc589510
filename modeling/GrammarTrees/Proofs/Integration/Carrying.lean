import GrammarTrees.Proofs.Integration.RuleSections

/-! Changes to a forest that carry the parts of rule sections whole from one section to another. -/

namespace GrammarTrees.Forest

open Relation

variable {f g k : Forest} {parent source index c x y : Nat} {nodes : List NodeId}

/-- A child of a section that holds rules. -/
def RulePart (f : Forest) (c : NodeId) : Prop := ∃ x, f.RuleSection x ∧ f.parent? c = some x

/-- `g` is `f` with parts of sections carried to other sections. What stands below each part is as
before, and the sections stay where they are. -/
structure Carried (f g : Forest) : Prop where
  wellFormed : g.WellFormed
  size_le : f.size ≤ g.size
  roots : ∀ x < f.size, f.parent? x = none → g.parent? x = none
  sections : ∀ x, f.RuleSection x → g.label x = f.label x ∧ g.parent? x = f.parent? x
  parts : ∀ c, f.RulePart c → g.RulePart c
  below : ∀ x c, f.RulePart c → f.Within x c →
    g.label x = f.label x ∧ g.children x = f.children x

namespace Carried

theorem refl (h : f.WellFormed) : f.Carried f :=
  ⟨h, Nat.le_refl _, fun _ _ hx => hx, fun _ _ => ⟨rfl, rfl⟩, fun _ hc => hc,
    fun _ _ _ _ => ⟨rfl, rfl⟩⟩

theorem kind (hg : f.Carried g) (hx : f.RuleSection x) : g.kind x = f.kind x :=
  kind_of_label (hg.sections x hx).1

theorem ruleSection (hg : f.Carried g) (h : f.WellFormed) (hx : f.RuleSection x) :
    g.RuleSection x := by
  obtain ⟨t, hp, ht⟩ := hx.hangs
  refine ⟨?_, t, (hg.sections x hx).2.trans hp, hg.roots t (h.lt_size_of_parent hp) ht⟩
  rw [hg.kind hx]
  exact hx.holds

theorem within (hg : f.Carried g) (h : f.WellFormed) (hc : f.RulePart c) (hx : f.Within x c) :
    g.Within x c := by
  induction hx using ReflTransGen.head_induction_on with
  | refl => exact .refl g c
  | @head x p hp hpc ih =>
    have hmem : x ∈ g.children p := by
      rw [(hg.below p c hc hpc).2]
      exact h.mem_children.mpr hp
    exact .of_parent (hg.wellFormed.mem_children.mp hmem) ih

theorem trans (hfg : f.Carried g) (h : f.WellFormed) (hgk : g.Carried k) : f.Carried k := by
  refine ⟨hgk.wellFormed, Nat.le_trans hfg.size_le hgk.size_le, fun x hx hr => ?_,
    fun x hx => ?_, fun c hc => hgk.parts c (hfg.parts c hc), fun x c hc hx => ?_⟩
  · exact hgk.roots x (Nat.lt_of_lt_of_le hx hfg.size_le) (hfg.roots x hx hr)
  · obtain ⟨h1, h2⟩ := hfg.sections x hx
    obtain ⟨h3, h4⟩ := hgk.sections x (hfg.ruleSection h hx)
    exact ⟨h3.trans h1, h4.trans h2⟩
  · obtain ⟨h1, h2⟩ := hfg.below x c hc hx
    obtain ⟨h3, h4⟩ := hgk.below x c (hfg.parts c hc) (hfg.within h hc hx)
    exact ⟨h3.trans h1, h4.trans h2⟩

theorem labelTree (hg : f.Carried g) (h : f.WellFormed) (hc : f.RulePart c) :
    g.labelTree c = f.labelTree c := by
  obtain ⟨y, -, hp⟩ := id hc
  refine labelTree_congr (S := fun x => f.Within x c) h hg.wellFormed (fun x hx d hd => ?_)
    (fun x hx => (hg.below x c hc hx).2) (fun x hx => (hg.below x c hc hx).1) (.refl f c)
    (lt_size_of_parent?_eq hp) hg.size_le
  exact .of_parent (h.mem_children.mp hd) hx

theorem sectionName (hg : f.Carried g) (h : f.WellFormed) (hc : f.RulePart c) :
    g.sectionName c = f.sectionName c := by
  refine sectionName_congr (hg.below c c hc (.refl f c)).2 fun d hd => ?_
  exact (hg.below d c hc (.of_parent (h.mem_children.mp hd) (.refl f c))).1

end Carried

theorem RulePart.within (hc : f.RulePart c) (hx : f.Within x c) :
    ∃ y, f.RuleSection y ∧ f.Within x y := by
  obtain ⟨y, hy, hp⟩ := hc
  exact ⟨y, hy, hx.trans (.of_parent hp (.refl f y))⟩

theorem Apart.carried (h : f.WellFormed) (hg : f.Apart g) : f.Carried g := by
  refine ⟨hg.wellFormed, hg.size_le, hg.roots, fun x hx => ?_, fun c hc => ?_,
    fun x c hc hx => ?_⟩
  · exact ⟨(hg.below x x hx (.refl f x)).1, Apart.parent?_of_within h hg hx (.refl f x)⟩
  · obtain ⟨y, hy, hp⟩ := hc
    refine ⟨y, Apart.ruleSection h hg hy, ?_⟩
    rw [Apart.parent?_of_within h hg hy (.of_parent hp (.refl f y)), hp]
  · obtain ⟨y, hy, hxy⟩ := hc.within hx
    exact hg.below x y hy hxy

/-- A section is no part of one, and nothing below a part is one. -/
theorem RulePart.ne_ruleSection (hc : f.RulePart c) (hx : f.Within x c) (hy : f.RuleSection y) :
    x ≠ y := by
  rintro rfl
  obtain ⟨z, hz, hp⟩ := hc
  obtain ⟨t, ht, hroot⟩ := hy.hangs
  obtain ⟨s, hs, -⟩ := hz.hangs
  rcases within_iff.mp hx with rfl | ⟨q, hq, hqc⟩
  · obtain rfl := Option.some.inj (hp.symm.trans ht)
    rw [hs] at hroot
    simp at hroot
  · obtain rfl := Option.some.inj (ht.symm.trans hq)
    rw [hqc.eq_of_root hroot, hroot] at hp
    simp at hp

theorem RuleSection.not_mem (hx : f.RuleSection x) (hsource : f.RuleSection source)
    (hnodes : ∀ n ∈ nodes, f.parent? n = some source) : x ∉ nodes := by
  intro hmem
  obtain ⟨t, ht, hroot⟩ := hx.hangs
  obtain ⟨s, hs, -⟩ := hsource.hangs
  obtain rfl := Option.some.inj (ht.symm.trans (hnodes x hmem))
  rw [hs] at hroot
  simp at hroot

theorem Gathered.carried (hf : f.WellFormed) (hg : f.Gathered g parent source nodes)
    (hparent : f.RuleSection parent) (hsource : f.RuleSection source)
    (hnodes : ∀ n ∈ nodes, f.parent? n = some source) : f.Carried g := by
  have hroots : ∀ x, f.parent? x = none → g.parent? x = none := by
    intro x hx
    exact hg.roots hnodes hx
  have hsections : ∀ x, f.RuleSection x → g.parent? x = f.parent? x := by
    intro x hx
    rw [hg.parent?, if_neg (hx.not_mem hsource hnodes)]
  have hstill : ∀ x, f.RuleSection x → g.RuleSection x := by
    intro x hx
    obtain ⟨t, hp, ht⟩ := hx.hangs
    exact ⟨by rw [hg.kind]; exact hx.holds, t, (hsections x hx).trans hp, hroots t ht⟩
  refine ⟨hg.wellFormed, Nat.le_of_eq hg.size.symm, fun x _ hx => hroots x hx,
    fun x hx => ⟨hg.label x, hsections x hx⟩, fun c hc => ?_, fun x c hc hx => ⟨hg.label x, ?_⟩⟩
  · obtain ⟨y, hy, hp⟩ := hc
    by_cases hmem : c ∈ nodes
    · exact ⟨parent, hstill parent hparent, by rw [hg.parent?, if_pos hmem]⟩
    · exact ⟨y, hstill y hy, by rw [hg.parent?, if_neg hmem, hp]⟩
  · exact hg.children_of_ne hf hnodes (hc.ne_ruleSection hx hparent)
      (hc.ne_ruleSection hx hsource)

/-- A new section that takes in parts of another one and is hung below a root. -/
theorem carried_of_new {root target : Nat} {m : Forest} (hf : f.WellFormed) (hk : f.Grown k)
    (hm : k.Gathered m target source nodes) (hg : m.Moved g root target index)
    (htarget : f.size ≤ target) (hkind : (k.kind target).holdsRules = true)
    (hroot : root < f.size) (hroot' : f.parent? root = none) (hsource : f.RuleSection source)
    (hnodes : ∀ n ∈ nodes, f.parent? n = some source) : f.Carried g := by
  have hparent : ∀ x < f.size, x ∉ nodes → g.parent? x = f.parent? x := by
    intro x hx hn
    rw [hg.parent?_of_ne (by omega), hm.parent?, if_neg hn, hk.parent? hx]
  have hroots : ∀ x < f.size, f.parent? x = none → g.parent? x = none := by
    intro x hx hr
    rw [hparent x hx, hr]
    intro hn
    rw [hnodes x hn] at hr
    simp at hr
  have hsections : ∀ x, f.RuleSection x → g.parent? x = f.parent? x := by
    intro x hx
    exact hparent x (hx.lt_size_of_within (.refl f x)) (hx.not_mem hsource hnodes)
  have hlabel : ∀ x < f.size, g.label x = f.label x := by
    intro x hx
    rw [hg.label, hm.label, hk.label hx]
  have hstill : ∀ x, f.RuleSection x → g.RuleSection x := by
    intro x hx
    obtain ⟨t, hp, ht⟩ := hx.hangs
    refine ⟨?_, t, (hsections x hx).trans hp, hroots t (hf.lt_size_of_parent hp) ht⟩
    rw [Forest.kind, hlabel x (hx.lt_size_of_within (.refl f x))]
    exact hx.holds
  have hnew : g.RuleSection target := by
    refine ⟨?_, root, hg.hangs, hroots root hroot hroot'⟩
    rw [hg.kind, hm.kind]
    exact hkind
  have hsize : k.size ≤ g.size := Nat.le_of_eq (hm.size.symm.trans hg.size.symm)
  refine ⟨hg.wellFormed, Nat.le_trans hk.size_le hsize, hroots,
    fun x hx => ⟨hlabel x (hx.lt_size_of_within (.refl f x)), hsections x hx⟩, fun c hc => ?_,
    fun x c hc hx => ?_⟩
  · obtain ⟨y, hy, hp⟩ := hc
    have hlt := lt_size_of_parent?_eq hp
    by_cases hmem : c ∈ nodes
    · refine ⟨target, hnew, ?_⟩
      rw [hg.parent?_of_ne (by omega), hm.parent?, if_pos hmem]
    · exact ⟨y, hstill y hy, (hparent c hlt hmem).trans hp⟩
  · obtain ⟨y, hy, hxy⟩ := hc.within hx
    have hlt := hy.lt_size_of_within hxy
    have hne : x ≠ root := by
      rintro rfl
      exact outside_of_root hroot' y hy hxy
    have hfilter : (f.children x).filter (fun c => decide (c ∉ nodes)) = f.children x := by
      rw [List.filter_eq_self]
      intro c hcx
      rw [decide_eq_true_eq]
      intro hn
      have hcs := hf.mem_children.mp hcx
      rw [hnodes c hn] at hcs
      exact hc.ne_ruleSection hx hsource (Option.some.inj hcs).symm
    have hne' : x ≠ target := Nat.ne_of_lt (Nat.lt_of_lt_of_le hlt htarget)
    refine ⟨hlabel x hlt, ?_⟩
    rw [hg.children, if_neg hne, hm.children, if_neg hne', hk.children hlt, hfilter,
      List.erase_of_not_mem]
    intro hmem
    have := hf.lt_size_of_child hmem
    omega

end GrammarTrees.Forest
