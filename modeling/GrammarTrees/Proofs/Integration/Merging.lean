import GrammarTrees.Proofs.Integration.NewModes
import GrammarTrees.Proofs.Integration.Taking

/-! Taking over the rules of one more section: of a mode, into a mode of its name or a new one, or
of a rule section, into the rule section of the grammar. -/

namespace GrammarTrees.Integration

open Forest

variable {f g k : Forest} {root rules x y t target : Nat} {grammar : GrammarId}
  {order xs rest made made' new : List NodeId} {names : List String}

/-! ### The next section -/

section Next

variable (h : Setting f root rules (xs ++ x :: rest))
  (ht : Taken f root rules grammar order xs made g)
include h

theorem Setting.next_not_mem : x ∉ xs := by
  intro hx
  exact (List.nodup_append.mp h.nodup).2.2 x hx x (by simp) rfl

theorem Setting.next_ruleSection : f.RuleSection x := (h.foreign x (by simp)).1

theorem Setting.next_root : ∃ t, f.parent? x = some t ∧ f.parent? t = none ∧ t ≠ root := by
  obtain ⟨hs, hne⟩ := h.foreign x (by simp)
  obtain ⟨t, hp, hroot⟩ := hs.hangs
  refine ⟨t, hp, hroot, ?_⟩
  rintro rfl
  exact hne hp

theorem Setting.next_part {c : NodeId} (hc : c ∈ f.children x) : f.RulePart c :=
  ⟨x, h.next_ruleSection, h.wellFormed.mem_children.mp hc⟩

include ht

theorem Taken.next_children : g.children x = f.children x := by
  obtain ⟨t, hp, hroot, hne⟩ := h.next_root
  have hmem : x ∈ f.sections t :=
    (mem_sections h.wellFormed).mpr ⟨hp, h.next_ruleSection.holds⟩
  have hchildren := (ht.imports t (h.wellFormed.lt_size_of_parent hp) hroot hne).2 x hmem
  have hfilter := h.filter_children order h.next_not_mem []
  rw [List.append_nil] at hfilter
  rw [hchildren, hfilter, List.filter_eq_self]
  simp

theorem Taken.next_parent? : g.parent? x = f.parent? x :=
  (ht.carried.sections x h.next_ruleSection).2

theorem Taken.next_label : ∀ c ∈ f.children x, g.label c = f.label c := by
  intro c hc
  exact (ht.carried.below c c (h.next_part hc) (.refl f c)).1

theorem Taken.next_sectionRules : g.childrenOfKind x .rule = f.sectionRules x :=
  childrenOfKind_congr (ht.next_children h) (ht.next_label h) .rule

theorem Taken.next_name : g.sectionName x = f.sectionName x :=
  sectionName_congr (ht.next_children h) (ht.next_label h)

/-- The rules to be taken are those that are the first of their names. -/
theorem Taken.next_newRules (horder : order = f.ruleOrder root (xs ++ x :: rest))
    (hnames : ∀ n, n ∈ names ↔ ∃ q ∈ f.ruleOrder root xs, f.sectionName q = n) :
    (newRules g names (g.childrenOfKind x .rule)).1 = f.firstRules order x ∧
      ∀ n, n ∈ (newRules g names (g.childrenOfKind x .rule)).2 ↔
        ∃ q ∈ f.ruleOrder root (xs ++ [x]), f.sectionName q = n := by
  have hsplit : order =
      f.ruleOrder root xs ++ (f.sectionRules x ++ rest.flatMap f.sectionRules) := by
    rw [horder, ruleOrder, ruleOrder, List.flatMap_append, List.flatMap_cons, List.append_assoc]
  have hsame : ∀ r ∈ f.sectionRules x, g.sectionName r = f.sectionName r := by
    intro r hr
    exact ht.carried.sectionName h.wellFormed (h.next_part (List.mem_of_mem_filter hr))
  obtain ⟨h1, h2⟩ := newRules_eq hsplit (horder ▸ h.nodup_order) hnames hsame
  rw [ht.next_sectionRules h]
  refine ⟨h1, fun n => ?_⟩
  rw [h2 n, ruleOrder, ruleOrder, List.flatMap_append, List.append_assoc]
  simp

theorem Taken.parent?_of_mem_firstRules : ∀ r ∈ f.firstRules order x, g.parent? r = some x := by
  intro r hr
  apply ht.carried.wellFormed.mem_children.mp
  rw [ht.next_children h]
  exact h.wellFormed.mem_children.mpr (mem_firstRules h.wellFormed hr).1

/-- The new rules can be moved below any node that does not belong to the tree of the section. -/
theorem Taken.push_firstRules (htarget : target < g.size) (hw : ¬ g.Within target x) :
    ∃ k, g.pushChildren target (f.firstRules order x) = .ok k ∧
      g.Gathered k target x (f.firstRules order x) :=
  pushChildren_eq_ok ht.carried.wellFormed htarget hw (ht.parent?_of_mem_firstRules h)
    (nodup_firstRules h.wellFormed order x)

/-- Other trees lose what the next section gives away, and keep their sections. -/
theorem Taken.next_imports (hlabel : ∀ y < g.size, k.label y = g.label y)
    (hsame : ∀ y < g.size, y ≠ root → y ≠ target → y ≠ x → k.children y = g.children y)
    (hx : k.children x = (g.children x).filter (· ∉ f.firstRules order x))
    (htarget : g.parent? target = some root ∨ g.size ≤ target)
    (htlt : t < f.size) (hroot : f.parent? t = none) (hne : t ≠ root) :
    k.sections t = f.sections t ∧ ∀ y ∈ f.sections t,
      k.children y = (f.children y).filter (· ∉ (xs ++ [x]).flatMap (f.firstRules order)) := by
  have hlt : ∀ y < f.size, y < g.size := fun y hy => Nat.lt_of_lt_of_le hy ht.carried.size_le
  obtain ⟨tx, hpx, -, -⟩ := h.next_root
  refine ⟨?_, fun y hy => ?_⟩
  · have hgroot := ht.carried.roots t htlt hroot
    have httarget : t ≠ target := by
      rintro rfl
      rcases htarget with hpt | hle
      · simp [hgroot] at hpt
      · exact absurd (hlt t htlt) (Nat.not_lt.mpr hle)
    have htx : t ≠ x := (ne_of_parent hroot hpx).symm
    rw [← (ht.imports t htlt hroot hne).1]
    exact sections_congr (hsame t (hlt t htlt) hne httarget htx) fun c hc =>
      hlabel c (ht.carried.wellFormed.lt_size_of_child hc)
  · obtain ⟨hp, -⟩ := (mem_sections h.wellFormed).mp hy
    by_cases hyx : y = x
    · subst hyx
      rw [hx, ht.next_children h]
      refine Eq.trans ?_ (h.filter_children order h.next_not_mem [y]).symm
      simp
    · have hytarget : y ≠ target := by
        rintro rfl
        rcases htarget with hpt | hle
        · rw [(ht.carried.sections y (ruleSection_of_mem h.wellFormed hroot hy)).2, hp] at hpt
          exact hne (Option.some.inj hpt)
        · exact absurd (hlt y (lt_size_of_parent?_eq hp)) (Nat.not_lt.mpr hle)
      rw [hsame y (hlt y (lt_size_of_parent?_eq hp)) (ne_of_parent h.isRoot hp) hytarget hyx,
        (ht.imports t htlt hroot hne).2 y hy]
      refine List.filter_congr fun c hc => ?_
      have hnot : c ∉ f.firstRules order x := by
        intro hmem
        have hcx := (mem_firstRules h.wellFormed hmem).1
        rw [h.wellFormed.mem_children.mp hc] at hcx
        exact hyx (Option.some.inj hcx)
      simp [hnot]

/-- What the next section gives away is taken in where the last four hypotheses say. -/
theorem Taken.step (hcarried : g.Carried k) (hlabel : ∀ y < g.size, k.label y = g.label y)
    (hsame : ∀ y < g.size, y ≠ root → y ≠ target → y ≠ x → k.children y = g.children y)
    (hx : k.children x = (g.children x).filter (· ∉ f.firstRules order x))
    (htarget : g.parent? target = some root ∨ g.size ≤ target)
    (hrules : ∀ y, f.parent? y = some root → f.kind y = .rules → y ≠ rules → y ≠ target)
    (hsections : k.sections root = f.sections root ++ made') (hends : k.Ends root made')
    (hmodes : List.Forall₂ (ModePlan.Realized f k grammar) (f.modePlans root order (xs ++ [x]))
      (f.childrenOfKind root .mode ++ made'))
    (hown : k.children rules = f.children rules ++
      ((xs ++ [x]).filter (f.kind · = .rules)).flatMap (f.firstRules order)) :
    Taken f root rules grammar order (xs ++ [x]) made' k := by
  obtain ⟨tx, hpx, -, hnex⟩ := h.next_root
  refine ⟨ht.carried.trans h.wellFormed hcarried, hsections, hends, hmodes, hown,
    fun y hp hk hne => ?_,
    fun t htlt hroot hne => ht.next_imports h hlabel hsame hx htarget htlt hroot hne⟩
  have hlt := Nat.lt_of_lt_of_le (lt_size_of_parent?_eq hp) ht.carried.size_le
  have hyx : y ≠ x := by
    rintro rfl
    rw [hpx] at hp
    exact hnex (Option.some.inj hp)
  rw [hsame y hlt (ne_of_parent h.isRoot hp) (hrules y hp hk hne) hyx, ht.others y hp hk hne]

end Next

/-! ### Modes and rule sections of the grammar -/

section Modes

theorem Taken.nodup_sections (ht : Taken f root rules grammar order xs made g) :
    (f.sections root ++ made).Nodup := by
  rw [← ht.sections]
  exact (ht.carried.wellFormed.nodup_children root).filter _

variable (h : Setting f root rules (xs ++ x :: rest))
  (ht : Taken f root rules grammar order xs made g)
include h ht

theorem Taken.nodup_modes : (f.childrenOfKind root .mode ++ made).Nodup := by
  obtain ⟨-, hmade, hdisjoint⟩ := List.nodup_append.mp ht.nodup_sections
  refine List.nodup_append.mpr ⟨(h.wellFormed.nodup_children root).filter _, hmade,
    fun a ha b hb => hdisjoint a ?_ b hb⟩
  obtain ⟨hp, hk⟩ := (mem_childrenOfKind h.wellFormed).mp ha
  exact (mem_sections h.wellFormed).mpr ⟨hp, by rw [hk]; rfl⟩

theorem Taken.ne_of_mode {m : NodeId} (hp : f.parent? y = some root) (hk : f.kind y = .rules)
    (hm : m ∈ f.childrenOfKind root .mode ++ made) : y ≠ m := by
  rintro rfl
  rcases List.mem_append.mp hm with hm | hm
  · rw [((mem_childrenOfKind h.wellFormed).mp hm).2] at hk
    exact Kind.noConfusion hk
  · have hy : y ∈ f.sections root := (mem_sections h.wellFormed).mpr ⟨hp, by rw [hk]; rfl⟩
    exact (List.nodup_append.mp ht.nodup_sections).2.2 y hy y hm rfl

theorem Taken.mode_ne_next {m : NodeId} (hm : m ∈ f.childrenOfKind root .mode ++ made) :
    m ≠ x := by
  rintro rfl
  have hp := ((mem_sections ht.carried.wellFormed).mp (ht.mem_sections_of_mode h hm)).1
  rw [ht.next_parent? h] at hp
  exact (h.foreign m (by simp)).2 hp

theorem Taken.planned_name : ∀ p ∈ f.modePlans root order xs, ∀ m,
    ModePlan.Realized f g grammar p m → g.sectionName m = p.name f := by
  intro p hp m hpm
  have hxs : ∀ y ∈ xs, f.RuleSection y := by
    intro y hy
    exact (h.foreign y (List.mem_append_left _ hy)).1
  obtain ⟨hmode, -, hrules⟩ := mem_modePlans h.wellFormed h.isRoot hxs hp
  refine realized_name h.wellFormed ht.carried hmode (fun r hr => ?_) hpm
  obtain ⟨y, hy, hry⟩ := List.mem_flatMap.mp (hrules r hr)
  exact ⟨y, hxs y hy, (mem_firstRules h.wellFormed hry).1⟩

end Modes

/-! ### Into a section that is there -/

section Existing

variable (h : Setting f root rules (xs ++ x :: rest))
  (ht : Taken f root rules grammar order xs made g)
  (hk : g.Gathered k target x (f.firstRules order x))
include h ht hk

theorem Taken.gathered_children (hy : y ≠ target) (hyx : y ≠ x) : k.children y = g.children y :=
  hk.children_of_ne ht.carried.wellFormed (ht.parent?_of_mem_firstRules h) hy hyx

theorem Taken.gathered_part (hs : g.RuleSection target) {m : NodeId} (hm : g.RuleSection m) :
    ∀ c ∈ g.children m, k.label c = g.label c ∧ k.children c = g.children c := by
  intro c hc
  have hcp : g.RulePart c := ⟨m, hm, ht.carried.wellFormed.mem_children.mp hc⟩
  exact ⟨hk.label c, ht.gathered_children h hk (hcp.ne_ruleSection (.refl g c) hs)
    (hcp.ne_ruleSection (.refl g c) (ht.carried.ruleSection h.wellFormed h.next_ruleSection))⟩

theorem Taken.gathered (hp : g.parent? target = some root) (hs : g.RuleSection target)
    (hrules : ∀ y, f.parent? y = some root → f.kind y = .rules → y ≠ rules → y ≠ target)
    (hmodes : List.Forall₂ (ModePlan.Realized f k grammar) (f.modePlans root order (xs ++ [x]))
      (f.childrenOfKind root .mode ++ made))
    (hown : k.children rules = f.children rules ++
      ((xs ++ [x]).filter (f.kind · = .rules)).flatMap (f.firstRules order)) :
    Taken f root rules grammar order (xs ++ [x]) made k := by
  have hg := ht.carried.wellFormed
  have hnodes := ht.parent?_of_mem_firstRules h
  have hx := ht.carried.ruleSection h.wellFormed h.next_ruleSection
  have hxp : g.parent? x ≠ none := by
    obtain ⟨t, hxt, -⟩ := hx.hangs
    simp [hxt]
  have hroot : k.children root = g.children root :=
    hk.children_of_root hg hnodes (by simp [hp]) hxp (ht.isRoot h)
  have hne : x ≠ target := by
    rintro rfl
    exact (h.foreign x (by simp)).2 ((ht.next_parent? h).symm.trans hp)
  refine ht.step h (hk.carried hg hs hx hnodes) (fun y _ => hk.label y)
    (fun y _ _ hyt hyx => ht.gathered_children h hk hyt hyx) ?_ (.inl hp) hrules ?_ ?_ hmodes hown
  · rw [hk.children, if_neg hne]
  · rw [← ht.sections, Forest.sections, hroot, Forest.sections]
    simp only [hk.kind]
  · exact ht.ends.congr hroot fun c _ => hk.kind c

/-- A mode of the name takes the rules in. -/
theorem Taken.gathered_mode (hx : f.kind x = .mode)
    (hfind : (f.childrenOfKind root .mode ++ made).find?
      (fun m => g.sectionName m = f.sectionName x) = some target) :
    Taken f root rules grammar order (xs ++ [x]) made k := by
  have hg := ht.carried.wellFormed
  have hmem : target ∈ f.childrenOfKind root .mode ++ made := List.mem_of_find?_eq_some hfind
  have hs := ht.ruleSection_of_mode h hmem
  have hp := ((mem_sections hg).mp (ht.mem_sections_of_mode h hmem)).1
  have hpairs : List.Forall₂ (fun p m => ModePlan.Realized f g grammar p m ∧
      m ∈ f.childrenOfKind root .mode ++ made) (f.modePlans root order xs)
      (f.childrenOfKind root .mode ++ made) :=
    forall₂_of_mem ht.modes fun p _ m hm hpm => ⟨hpm, hm⟩
  refine ht.gathered h hk hp hs (fun y hyp hyk _ => ht.ne_of_mode h hyp hyk hmem) ?_ ?_
  · rw [modePlans_append, if_pos hx]
    refine forall₂_place hpairs (fun p hp m hpm => ht.planned_name h p hp m hpm.1) hfind
      (ht.nodup_modes h) (fun p m hpm hne => ?_) (fun p hpm => ?_)
    · exact realized_congr hpm.1
        ⟨hk.label m, ht.gathered_children h hk hne (ht.mode_ne_next h hpm.2)⟩
        (ht.gathered_part h hk hs (ht.ruleSection_of_mode h hpm.2))
    · have hchildren : k.children target = g.children target ++ f.firstRules order x := by
        rw [hk.children, if_pos rfl]
      cases hpm.1 with
      | @own m rs hc =>
        refine .own ?_
        rw [hchildren, hc, List.append_assoc]
      | @copy mode name m leaf rs hlt hlabel hname hc hleaf hnil hnew =>
        obtain ⟨h1, h2⟩ := ht.gathered_part h hk hs hs leaf (by rw [hc]; simp)
        refine .copy hlt ((hk.label target).trans hlabel) hname ?_ (h1.trans hleaf) (h2.trans hnil)
          hnew
        rw [hchildren, hc, List.cons_append]
  · have hne : rules ≠ target := ht.ne_of_mode h h.hangs h.kind hmem
    have hnex : rules ≠ x := by
      rintro rfl
      rw [h.kind] at hx
      exact Kind.noConfusion hx
    rw [ht.gathered_children h hk hne hnex, ht.own, List.filter_append,
      List.filter_cons_of_neg (by simp [hx]), List.filter_nil, List.append_nil]

/-- The rule section of the grammar takes the rules in. -/
theorem Taken.gathered_rules (hx : f.kind x = .rules) (hrules : target = rules) :
    Taken f root rules grammar order (xs ++ [x]) made k := by
  subst hrules
  have hs := ht.carried.ruleSection h.wellFormed h.ruleSection
  have hp : g.parent? target = some root :=
    (ht.carried.sections target h.ruleSection).2.trans h.hangs
  refine ht.gathered h hk hp hs (fun y _ _ hne => hne) ?_ ?_
  · rw [modePlans_append, if_neg (by simp [hx])]
    refine forall₂_of_mem ht.modes fun p _ m hm hpm => ?_
    have hne : m ≠ target := (ht.ne_of_mode h h.hangs h.kind hm).symm
    exact realized_congr hpm
      ⟨hk.label m, ht.gathered_children h hk hne (ht.mode_ne_next h hm)⟩
      (ht.gathered_part h hk hs (ht.ruleSection_of_mode h hm))
  · rw [hk.children, if_pos rfl, ht.own, List.filter_append,
      List.filter_cons_of_pos (by simp [hx]), List.filter_nil, List.flatMap_append,
      List.append_assoc]
    simp

end Existing

/-! ### Into a new mode -/

theorem Taken.own_of_mode (ht : Taken f root rules grammar order xs made g)
    (hx : f.kind x = .mode) : f.children rules ++
      ((xs ++ [x]).filter (f.kind · = .rules)).flatMap (f.firstRules order) = g.children rules := by
  rw [ht.own, List.filter_append, List.filter_cons_of_neg (by simp [hx]), List.filter_nil,
    List.append_nil]

section New

variable (h : Setting f root rules (xs ++ x :: rest))
  (ht : Taken f root rules grammar order xs made g) (hx : f.kind x = .mode)
  (hfind : (f.childrenOfKind root .mode ++ made).find?
    (fun m => g.sectionName m = f.sectionName x) = none)
include h ht hx hfind

theorem Taken.plans_of_find : f.modePlans root order (xs ++ [x]) =
    f.modePlans root order xs ++
      if (f.firstRules order x).isEmpty then [] else [⟨x, true, f.firstRules order x⟩] := by
  rw [modePlans_append, if_pos hx]
  exact place_of_find?_eq_none ht.modes (ht.planned_name h) hfind

/-- No mode is made for a mode without new rules. -/
theorem Taken.skip (hnew : f.firstRules order x = []) :
    Taken f root rules grammar order (xs ++ [x]) made g := by
  have hrules : ∀ y, f.parent? y = some root → f.kind y = .rules → y ≠ rules → y ≠ g.size := by
    intro y hp _ _
    exact Nat.ne_of_lt (Nat.lt_of_lt_of_le (lt_size_of_parent?_eq hp) ht.carried.size_le)
  refine ht.step h (.refl ht.carried.wellFormed) (fun _ _ => rfl) (fun _ _ _ _ _ => rfl) ?_
    (.inr (Nat.le_refl _)) hrules ht.sections ht.ends ?_ (ht.own_of_mode hx).symm
  · rw [hnew]
    simp
  · rw [ht.plans_of_find h hx hfind, hnew]
    simpa using ht.modes

omit hx hfind in
/-- The first child of a mode that has rules is copied with it. -/
theorem Taken.first_of_firstRules (hnew : f.firstRules order x ≠ []) :
    ∃ name, f.child? x 0 = some name ∧ g.child? x 0 = some name ∧
      g.label name = f.label name := by
  obtain ⟨r, hr⟩ := List.exists_mem_of_ne_nil _ hnew
  have hmem := h.wellFormed.mem_children.mpr (mem_firstRules h.wellFormed hr).1
  obtain ⟨name, cs, hcs⟩ := List.exists_cons_of_ne_nil (List.ne_nil_of_mem hmem)
  refine ⟨name, ?_, ?_, (ht.carried.below name name (h.next_part ?_) (.refl f name)).1⟩
  · rw [child?, hcs]
    rfl
  · rw [child?, ht.next_children h, hcs]
    rfl
  · rw [hcs]
    simp

omit hx hfind in
/-- The modes that there were before stay what they are. -/
theorem Taken.added_kept {copy : Nat}
    (hk : ModeAdded g k grammar root x copy (f.firstRules order x)) :
    List.Forall₂ (ModePlan.Realized f k grammar) (f.modePlans root order xs)
      (f.childrenOfKind root .mode ++ made) := by
  have hg := ht.carried.wellFormed
  refine forall₂_of_mem ht.modes fun p _ m hm hpm => ?_
  have hms := ht.ruleSection_of_mode h hm
  have hkeep : ∀ c, g.Within c m → c ≠ x →
      k.label c = g.label c ∧ k.children c = g.children c := by
    intro c hc hcx
    have hlt := hms.lt_size_of_within hc
    refine ⟨hk.label c hlt, hk.children c hlt ?_ hcx⟩
    rintro rfl
    exact outside_of_root (ht.isRoot h) m hms hc
  refine realized_congr hpm (hkeep m (.refl g m) (ht.mode_ne_next h hm)) fun c hc => ?_
  have hcp := hg.mem_children.mp hc
  refine hkeep c (.of_parent hcp (.refl g m)) ?_
  exact RulePart.ne_ruleSection ⟨m, hms, hcp⟩ (.refl g c)
    (ht.carried.ruleSection h.wellFormed h.next_ruleSection)

omit hx hfind in
/-- The new mode is a copy of the mode that its rules come from. -/
theorem Taken.added_copy {copy : Nat}
    (hk : ModeAdded g k grammar root x copy (f.firstRules order x))
    (hnew : f.firstRules order x ≠ []) :
    ModePlan.Realized f k grammar ⟨x, true, f.firstRules order x⟩ copy := by
  obtain ⟨name, hname, hname', hlabel⟩ := ht.first_of_firstRules h hnew
  obtain ⟨leaf, hchildren, hleaf, hnil, hleafnew⟩ := hk.first name hname'
  refine .copy (Nat.le_trans ht.carried.size_le hk.size_le) ?_ hname hchildren
    (hleaf.trans hlabel) hnil (Nat.le_trans ht.carried.size_le hleafnew)
  rw [hk.copy_label, (ht.carried.sections x h.next_ruleSection).1]

/-- The new mode stands at the end with the rules it takes in. -/
theorem Taken.added {copy : Nat}
    (hk : ModeAdded g k grammar root x copy (f.firstRules order x))
    (hnew : f.firstRules order x ≠ []) :
    Taken f root rules grammar order (xs ++ [x]) (made ++ [copy]) k := by
  have hg := ht.carried.wellFormed
  have hkinds : ∀ c ∈ g.children root, k.kind c = g.kind c := fun c hc =>
    kind_of_label (hk.label c (hg.lt_size_of_child hc))
  have hcopykind : (k.kind copy).holdsRules = true := by
    rw [Forest.kind, hk.copy_label]
    exact (ht.carried.ruleSection h.wellFormed h.next_ruleSection).holds
  have hsections : k.sections root = g.sections root ++ [copy] := by
    have hlast : ([copy].filter fun c => (k.kind c).holdsRules) = [copy] := by
      simp [hcopykind]
    rw [Forest.sections, hk.root, List.filter_append, hlast, Forest.sections]
    exact congrArg (· ++ [copy]) (List.filter_congr fun c hc => by rw [hkinds c hc])
  have hrules : ∀ y, f.parent? y = some root → f.kind y = .rules → y ≠ rules → y ≠ copy := by
    intro y hp _ _
    have hlt := Nat.lt_of_lt_of_le (lt_size_of_parent?_eq hp) ht.carried.size_le
    exact Nat.ne_of_lt (Nat.lt_of_lt_of_le hlt hk.size_le)
  have hrulesx : rules ≠ x := by
    rintro rfl
    rw [h.kind] at hx
    exact Kind.noConfusion hx
  have hruleslt : rules < g.size :=
    Nat.lt_of_lt_of_le (lt_size_of_parent?_eq h.hangs) ht.carried.size_le
  refine ht.step h hk.carried hk.label (fun y hy hyr _ hyx => hk.children y hy hyr hyx) hk.source
    (.inr hk.size_le) hrules ?_ (ht.ends.concat hk.root hkinds hcopykind) ?_ ?_
  · rw [hsections, ht.sections, List.append_assoc]
  · rw [ht.plans_of_find h hx hfind, if_neg (by simpa using hnew), ← List.append_assoc]
    exact List.rel_append (ht.added_kept h hk) (.cons (ht.added_copy h hk hnew) .nil)
  · rw [hk.children rules hruleslt (ne_of_parent h.isRoot h.hangs) hrulesx, ht.own_of_mode hx]

end New

end GrammarTrees.Integration
