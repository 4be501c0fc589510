import GrammarTrees.Proofs.Integration.Merging

/-! The rules of a grammar after rules have been taken over: where each rule stands, and that no two
of them have the same name if none of the grammar's own had. -/

namespace GrammarTrees.Integration

open Forest

variable {f g : Forest} {root rules r x y : Nat} {grammar : GrammarId}
  {todo made order rs imported : List NodeId} {own : Grammar}

/-! ### Rules that are the first of their names -/

/-- Two rules that both are the first of one name are the same. -/
theorem eq_of_isFirst {a b : NodeId} (hn : order.Nodup) (ha : a ∈ order) (hb : b ∈ order)
    (hfa : f.isFirst order a = true) (hfb : f.isFirst order b = true)
    (hname : f.sectionName a = f.sectionName b) : a = b := by
  by_contra hne
  obtain ⟨before, after, hsplit⟩ := List.append_of_mem hb
  rw [hsplit] at ha
  rcases List.mem_append.mp ha with ha | ha
  · exact (isFirst_iff hsplit hn).mp hfb a ha hname
  · rcases List.mem_cons.mp ha with ha | ha
    · exact hne ha
    · obtain ⟨between, rest, hafter⟩ := List.append_of_mem ha
      have hsplit' : order = (before ++ b :: between) ++ a :: rest := by
        rw [hsplit, hafter, List.append_assoc, List.cons_append]
      exact (isFirst_iff hsplit' hn).mp hfa b (by simp) hname.symm

/-- Rules with names of their own at the start of the order are the first of their names. -/
theorem isFirst_of_nodup (hn : (rs ++ imported).Nodup) (hnames : (rs.map f.sectionName).Nodup)
    (hr : r ∈ rs) : f.isFirst (rs ++ imported) r = true := by
  obtain ⟨before, after, hsplit⟩ := List.append_of_mem hr
  have horder : rs ++ imported = before ++ r :: (after ++ imported) := by
    rw [hsplit, List.append_assoc, List.cons_append]
  rw [isFirst_iff horder hn]
  intro q hq he
  rw [hsplit, List.map_append, List.map_cons] at hnames
  exact (List.nodup_append.mp hnames).2.2 _ (List.mem_map_of_mem hq) _ (by simp) he

/-! ### Where the rules stand -/

section

variable (h : Setting f root rules todo)
  (ht : Taken f root rules grammar (f.ruleOrder root todo) todo made g)
include h ht

theorem Taken.kind_of_part (hx : f.RuleSection x) (hr : r ∈ f.children x) :
    g.kind r = f.kind r := by
  have hpart : f.RulePart r := ⟨x, hx, h.wellFormed.mem_children.mp hr⟩
  rw [Forest.kind, (ht.carried.below r r hpart (.refl f r)).1, ← Forest.kind]

/-- A rule of the grammar was one of its own, has been taken over as the first of its name, or is a
copy of a rule at the start of an imported mode. -/
theorem Taken.rule_cases (hx : x ∈ g.sections root) (hr : r ∈ g.sectionRules x) :
    r ∈ (f.sections root).flatMap f.sectionRules ∨
      r ∈ todo.flatMap (f.firstRules (f.ruleOrder root todo)) ∨
      ∃ m ∈ todo, f.kind m = .mode ∧ ∃ name, f.child? m 0 = some name ∧ f.kind name = .rule ∧
        g.label r = f.label name ∧ g.children r = [] ∧ f.size ≤ r := by
  obtain ⟨hrx, hrk⟩ := List.mem_filter.mp hr
  rw [decide_eq_true_eq] at hrk
  have hfrom : ∀ {m : NodeId}, m ∈ f.sections root → r ∈ f.children m →
      r ∈ (f.sections root).flatMap f.sectionRules := by
    intro m hm hrm
    have hs := ruleSection_of_mem h.wellFormed h.isRoot hm
    refine List.mem_flatMap.mpr ⟨m, hm, List.mem_filter.mpr ⟨hrm, ?_⟩⟩
    rw [← ht.kind_of_part h hs hrm, hrk]
    rfl
  by_cases hmode : x ∈ f.childrenOfKind root .mode ++ made
  · obtain ⟨p, hp, hpx⟩ := exists_of_mem_forall₂ ht.modes hmode
    obtain ⟨hs, hcopied, hrules⟩ := mem_modePlans h.wellFormed h.isRoot
      (fun z hz => (h.foreign z hz).1) hp
    have hplace := ((mem_sections ht.carried.wellFormed).mp hx).1
    cases hpx with
    | own hc =>
      rw [hc] at hrx
      rcases List.mem_append.mp hrx with hrx | hrx
      · rw [(ht.carried.sections x hs).2] at hplace
        exact .inl (hfrom ((mem_sections h.wellFormed).mpr ⟨hplace, hs.holds⟩) hrx)
      · exact .inr (.inl (hrules r hrx))
    | @copy m name x leaf rs hlt hlabel hname hc hleaf hnil hnew =>
      rw [hc] at hrx
      rcases List.mem_cons.mp hrx with rfl | hrx
      · obtain ⟨hm, hkm⟩ := hcopied rfl
        refine .inr (.inr ⟨m, hm, hkm, name, hname, ?_, hleaf, hnil, hnew⟩)
        rw [Forest.kind, ← hleaf, ← Forest.kind]
        exact hrk
      · exact .inr (.inl (hrules r hrx))
  · rw [List.mem_append, not_or, mem_childrenOfKind h.wellFormed] at hmode
    rw [ht.sections, List.mem_append] at hx
    have hxf := hx.resolve_right hmode.2
    obtain ⟨hp, hk⟩ := (mem_sections h.wellFormed).mp hxf
    have hkind : f.kind x = .rules :=
      (Kind.eq_of_holdsRules hk).resolve_right fun hkx => hmode.1 ⟨hp, hkx⟩
    by_cases hxr : x = rules
    · rw [hxr, ht.own] at hrx
      rcases List.mem_append.mp hrx with hrx | hrx
      · exact .inl (hfrom hxf (hxr ▸ hrx))
      · obtain ⟨z, hz, hrz⟩ := List.mem_flatMap.mp hrx
        exact .inr (.inl (List.mem_flatMap.mpr ⟨z, List.mem_of_mem_filter hz, hrz⟩))
    · rw [ht.others x hp hkind hxr] at hrx
      exact .inl (hfrom hxf hrx)

/-- A rule that is the first of its name stands in the tree of the grammar, and any other one stays
in its section. -/
theorem Taken.moved (hx : x ∈ todo) (hr : r ∈ f.sectionRules x) :
    if f.isFirst (f.ruleOrder root todo) r then g.Within r root else g.parent? r = some x := by
  have hg := ht.carried.wellFormed
  obtain ⟨hs, hne⟩ := h.foreign x hx
  obtain ⟨t, hp, hroot⟩ := hs.hangs
  have hrx := (mem_childrenOfKind h.wellFormed).mp hr
  split
  · rename_i hfirst
    have hrfirst : r ∈ f.firstRules (f.ruleOrder root todo) x := List.mem_filter.mpr ⟨hr, hfirst⟩
    rcases Kind.eq_of_holdsRules hs.holds with hk | hk
    · have hown : r ∈ g.children rules := by
        rw [ht.own]
        refine List.mem_append_right _ (List.mem_flatMap.mpr ⟨x, ?_, hrfirst⟩)
        exact List.mem_filter.mpr ⟨hx, by simpa using hk⟩
      have hrules : g.parent? rules = some root :=
        (ht.carried.sections rules h.ruleSection).2.trans h.hangs
      exact .of_parent (hg.mem_children.mp hown) (.of_parent hrules (.refl g root))
    · obtain ⟨p, hpm, hrp⟩ := exists_mem_modePlans root hx hk hrfirst
      obtain ⟨m, hm, hreal⟩ := exists_of_mem_forall₂ ht.modes.flip hpm
      have hrm : r ∈ g.children m := by
        cases hreal with
        | own hc =>
          rw [hc]
          exact List.mem_append_right _ hrp
        | copy _ _ _ hc _ _ _ =>
          rw [hc]
          exact List.mem_cons_of_mem _ hrp
      have hmode := ((mem_sections hg).mp (ht.mem_sections_of_mode h hm)).1
      exact .of_parent (hg.mem_children.mp hrm) (.of_parent hmode (.refl g root))
  · rename_i hfirst
    have htroot : t ≠ root := by
      rintro rfl
      exact hne hp
    have hxt : x ∈ f.sections t := (mem_sections h.wellFormed).mpr ⟨hp, hs.holds⟩
    apply hg.mem_children.mp
    rw [(ht.imports t (h.wellFormed.lt_size_of_parent hp) hroot htroot).2 x hxt, List.mem_filter,
      decide_eq_true_eq]
    refine ⟨h.wellFormed.mem_children.mpr hrx.1, fun hmem => ?_⟩
    obtain ⟨z, -, hz⟩ := List.mem_flatMap.mp hmem
    exact hfirst (mem_firstRules h.wellFormed hz).2.2

/-- If no two rules of the grammar had the same name, no two of those it has after all do, apart
from copies of rules at the start of imported modes. -/
theorem Taken.nodup_names (hnames : (((f.sections root).flatMap f.sectionRules).map
      f.sectionName).Nodup) :
    ((((g.sections root).flatMap g.sectionRules).filter (· ∈ f.ruleOrder root todo)).map
      g.sectionName).Nodup := by
  have hn := h.nodup_order
  have hfirst : ∀ r ∈ (g.sections root).flatMap g.sectionRules, r ∈ f.ruleOrder root todo →
      f.isFirst (f.ruleOrder root todo) r = true := by
    intro r hr hmem
    obtain ⟨x, hx, hrx⟩ := List.mem_flatMap.mp hr
    rcases ht.rule_cases h hx hrx with hown | htaken | ⟨m, -, -, name, -, -, -, -, hnew⟩
    · exact isFirst_of_nodup hn hnames hown
    · obtain ⟨z, -, hz⟩ := List.mem_flatMap.mp htaken
      exact (mem_firstRules h.wellFormed hz).2.2
    · obtain ⟨z, -, hz⟩ := h.rulePart hmem
      exact absurd (lt_size_of_parent?_eq hz) (Nat.not_lt_of_le hnew)
  refine List.Nodup.map_on (fun a ha b hb hab => ?_) (List.Nodup.filter _ ?_)
  · rw [List.mem_filter, decide_eq_true_eq] at ha hb
    rw [ht.carried.sectionName h.wellFormed (h.rulePart ha.2),
      ht.carried.sectionName h.wellFormed (h.rulePart hb.2)] at hab
    exact eq_of_isFirst hn ha.2 hb.2 (hfirst a ha.1 ha.2) (hfirst b hb.1 hb.2) hab
  · refine nodup_flatMap_sectionRules ht.carried.wellFormed ?_
    exact (ht.carried.wellFormed.nodup_children root).filter _

end

end GrammarTrees.Integration
