import GrammarTrees.Integration.Integrate
import GrammarTrees.Proofs.Integration.Absorbing
import GrammarTrees.Proofs.Integration.NewModes
import GrammarTrees.Proofs.Integration.Start

/-! Merging one import after the other. Each pass succeeds, whatever the trees of the two grammars
look like and also if they are the same, and keeps the roots of all grammars. -/

namespace GrammarTrees

namespace Integration

open Forest

section Rules

variable {f g : Forest} {T : NodeId → Prop} {root importRoot rules mode : Nat} {m : RuleMerge}

/-! ### Modes and rules -/

theorem newRules_sublist (f : Forest) (names : List String) (rs : List NodeId) :
    (newRules f names rs).1.Sublist rs := by
  induction rs generalizing names with
  | nil => exact .slnil
  | cons r rs ih =>
    rw [newRules]
    split
    · exact (ih names).cons r
    · exact (ih _).cons_cons r

/-- Modes of a grammar hang below its root. -/
def ModesOf (f : Forest) (root : NodeId) (modes : List NodeId) : Prop :=
  ∀ x ∈ modes, f.parent? x = some root ∧ f.kind x = .mode

theorem ModesOf.steady {modes : List NodeId} (hm : ModesOf f root modes) (hg : f.Steady T g)
    (ht : T root) : ModesOf g root modes := by
  intro x hx
  obtain ⟨hp, hk⟩ := hm x hx
  exact ⟨hg.hangs root x ht hp, (hg.kind (lt_size_of_parent?_eq hp)).trans hk⟩

theorem addMode_shifted (hT : m.forest.Rooted T) (ht : T root) (hi : T importRoot)
    (hm : ModesOf m.forest root m.modes) (hp : m.forest.parent? mode = some importRoot)
    (hk : m.forest.kind mode = .mode) (grammar : GrammarId) :
    ∃ m', m.addMode grammar root mode = .ok m' ∧
      Shifted .mode root importRoot m.forest m'.forest ∧ ModesOf m'.forest root m'.modes := by
  obtain ⟨new, hnew⟩ :
      ∃ new, new = newRules m.forest m.names (m.forest.childrenOfKind mode .rule) := ⟨_, rfl⟩
  have hsub : new.1.Sublist (m.forest.childrenOfKind mode .rule) := hnew ▸ newRules_sublist ..
  have hnodes : ∀ n ∈ new.1, m.forest.parent? n = some mode := fun n hn =>
    ((mem_childrenOfKind hT.wellFormed).mp (hsub.subset hn)).1
  have hnodup : new.1.Nodup := ((hT.wellFormed.nodup_children mode).filter _).sublist hsub
  have hpart : m.forest.Part .mode root importRoot mode := ⟨hk, .inr hp⟩
  have hr := hT.isRoot root ht
  simp only [RuleMerge.addMode, ← hnew]
  split
  · rename_i target htarget
    obtain ⟨htp, htk⟩ := hm target (List.mem_of_find?_eq_some htarget)
    obtain ⟨g, hg, -, hshifted⟩ := pushChildren_shifted hT.wellFormed hr htk htp hpart hnodes hnodup
    refine ⟨⟨g, new.2, m.modes⟩, ?_, hshifted,
      hm.steady (hshifted.steady hT ht hi (by decide)) ht⟩
    simp only [hg]
    rfl
  · obtain ⟨k, copy, hcopy, hcopied⟩ := copyMode_eq_ok hT.wellFormed grammar mode
    have hfk : Shifted .mode root importRoot m.forest k :=
      hcopied.grown.shifted hT.wellFormed (hT.lt_size root ht) .mode importRoot
    by_cases hempty : new.1 = []
    · refine ⟨⟨k, new.2, m.modes⟩, ?_, hfk, hm.steady (hfk.steady hT ht hi (by decide)) ht⟩
      simp only [hcopy, bind, Except.bind, hempty]
      rfl
    · obtain ⟨g, hg, hgathered⟩ := hcopied.gather hnodes (lt_size_of_parent?_eq hp) hnodup
      obtain ⟨h, hh, hpushed⟩ := hcopied.push hnodes hr (hT.lt_size root ht) hgathered
      have hkind : k.kind copy = .mode := by
        rw [Forest.kind, hcopied.label]
        exact hk
      have hfh : Shifted .mode root importRoot m.forest h :=
        hpushed.shifted hT.wellFormed hr (hT.lt_size root ht) hcopied.grown
          (hgathered.collected hcopied.grown.wellFormed (hcopied.nodes hnodes)
            (hcopied.ne (lt_size_of_parent?_eq hp)).symm)
          hcopied.le hcopied.isRoot (.inl ⟨rfl, hkind⟩) fun n hn => ⟨mode, hnodes n hn, hpart⟩
      refine ⟨⟨h, new.2, m.modes ++ [copy]⟩, ?_, hfh, fun x hx => ?_⟩
      · simp only [hcopy, bind, Except.bind, hg, List.isEmpty_iff, hempty, hh]
        rfl
      · rcases List.mem_append.mp hx with hx | hx
        · exact hm.steady (hfh.steady hT ht hi (by decide)) ht x hx
        · rw [List.mem_singleton.mp hx]
          exact ⟨hpushed.hangs, (hpushed.kind copy).trans ((hgathered.kind copy).trans hkind)⟩

theorem foldlM_addMode_shifted (hT : m.forest.Rooted T) (ht : T root) (hi : T importRoot)
    (hm : ModesOf m.forest root m.modes) (grammar : GrammarId) {modes : List NodeId}
    (hmodes : ModesOf m.forest importRoot modes) :
    ∃ m', modes.foldlM (RuleMerge.addMode grammar root) m = .ok m' ∧
      Shifted .mode root importRoot m.forest m'.forest ∧ ModesOf m'.forest root m'.modes := by
  induction modes generalizing m with
  | nil => exact ⟨m, rfl, .refl hT.wellFormed .., hm⟩
  | cons mode modes ih =>
    rw [ModesOf, List.forall_mem_cons] at hmodes
    obtain ⟨k, hk, hmk, hkm⟩ := addMode_shifted hT ht hi hm hmodes.1.1 hmodes.1.2 grammar
    have hsteady := hmk.steady hT ht hi (by decide)
    obtain ⟨m', hm', hkm', hfinal⟩ := ih (hsteady.rooted hT) hkm
      (ModesOf.steady hmodes.2 hsteady hi)
    refine ⟨m', ?_, hmk.trans hT hi hkm', hfinal⟩
    rw [List.foldlM_cons, hk]
    exact hm'

theorem addModes_shifted (hT : m.forest.Rooted T) (ht : T root) (hi : T importRoot)
    (hm : ModesOf m.forest root m.modes) (grammar : GrammarId) :
    ∃ m', m.addModes grammar root importRoot = .ok m' ∧
      Shifted .mode root importRoot m.forest m'.forest ∧ ModesOf m'.forest root m'.modes :=
  foldlM_addMode_shifted hT ht hi hm grammar fun _ hx => (mem_childrenOfKind hT.wellFormed).mp hx

theorem addRules_shifted (hT : m.forest.Rooted T) (ht : T root)
    (hp : m.forest.parent? rules = some root) (hk : m.forest.kind rules = .rules) :
    ∃ m', m.addRules rules importRoot = .ok m' ∧
      Shifted .rules root importRoot m.forest m'.forest ∧ m'.modes = m.modes := by
  rw [RuleMerge.addRules]
  split
  · exact ⟨m, rfl, .refl hT.wellFormed .., rfl⟩
  rename_i imported himported
  obtain ⟨hip, hik⟩ := of_firstChildOfKind? hT.wellFormed himported
  obtain ⟨new, hnew⟩ :
      ∃ new, new = newRules m.forest m.names (m.forest.childrenOfKind imported .rule) := ⟨_, rfl⟩
  have hsub : new.1.Sublist (m.forest.childrenOfKind imported .rule) := hnew ▸ newRules_sublist ..
  have hpart : m.forest.Part .rules root importRoot imported := ⟨hik, .inr hip⟩
  obtain ⟨g, hg, -, hshifted⟩ := pushChildren_shifted hT.wellFormed (hT.isRoot root ht) hk hp hpart
    (fun n hn => ((mem_childrenOfKind hT.wellFormed).mp (hsub.subset hn)).1)
    (((hT.wellFormed.nodup_children imported).filter _).sublist hsub)
  refine ⟨{ m with forest := g, names := new.2 }, ?_, hshifted, rfl⟩
  simp only [← hnew, hg]
  rfl

end Rules

/-! ### One pass -/

variable {s : GrammarSet} {f g : Forest} {T : NodeId → Prop} {root importRoot rules x : Nat}
  {grammar imported : GrammarId} {m m' : Merge} {scope : String} {moved ids : List NodeId}

/-- Integration into the grammar at `root` can go on: its rule section and its modes hang below
the root. -/
structure Ready (T : NodeId → Prop) (root rules : NodeId) (m : Merge) : Prop where
  rooted : m.rules.forest.Rooted T
  hangs : m.rules.forest.parent? rules = some root
  kind : m.rules.forest.kind rules = .rules
  modes : ModesOf m.rules.forest root m.rules.modes

/-- What one pass does: in `g`, the named actions are merged into `actions`, and in `k` they have
been placed. Before and after this all named actions stay. -/
structure Passed (T : NodeId → Prop) (scope : String) (fileOf : Option GrammarId → String)
    (root importRoot : NodeId) (m m' : Merge) (g : Forest) (actions : ActionMerge) (k : Forest) :
    Prop where
  before : m.rules.forest.Steady T g
  combined : Combined g scope
    (g.childrenOfKind root .namedAction ++ g.childrenOfKind importRoot .namedAction) actions
  reported : (g.childrenOfKind root .namedAction ++ g.childrenOfKind importRoot .namedAction).Nodup →
    Reported g scope fileOf m.repeated
      (g.childrenOfKind root .namedAction ++ g.childrenOfKind importRoot .namedAction) actions
  repeated : m'.repeated = actions.repeated
  placed : Placed actions.forest k root
    (actions.named.values.filter fun id => g.parent? id ≠ some root)
  after : k.Steady T m'.rules.forest

/-! ### After the named actions -/

section Placing

variable {actions : ActionMerge} (hrecoded : Recoded f actions.forest scope ids)
  (hplaced : Placed actions.forest g root moved)
include hrecoded hplaced

theorem placed_kind (x : NodeId) : g.kind x = f.kind x := by
  rw [kind_of_label (hplaced.label x), hrecoded.kind]

theorem placed_parent? (x : NodeId) :
    g.parent? x = if x ∈ moved then some root else f.parent? x := by
  rw [hplaced.parent?, hrecoded.parent?]

theorem placed_size : g.size = f.size := hplaced.size.trans hrecoded.size

/-- Children of the root stay there. -/
theorem placed_hangs (hp : f.parent? x = some root) : g.parent? x = some root := by
  rw [placed_parent? hrecoded hplaced, hp, ite_self]

theorem placed_rooted (hT : f.Rooted T) (hmoved : ∀ a ∈ moved, f.parent? a ≠ none) :
    g.Rooted T := by
  refine ⟨hplaced.wellFormed, fun t ht => placed_size hrecoded hplaced ▸ hT.lt_size t ht,
    fun t ht => ?_⟩
  rw [placed_parent? hrecoded hplaced, if_neg, hT.isRoot t ht]
  intro hmem
  exact hmoved t hmem (hT.isRoot t ht)

end Placing

/-- Channels and tokens can be taken over. -/
theorem mergeSections_eq_ok (hT : f.Rooted T) (ht : T root) (hi : T importRoot)
    (hx : f.parent? x = some root) (grammar : GrammarId) :
    ∃ k g, mergeChannels grammar root importRoot f = .ok k ∧
      mergeTokens grammar root importRoot k = .ok g ∧ f.Steady T g ∧
      Brought T root importRoot f g := by
  obtain ⟨k, hk, hfk, -, hchannels⟩ := mergeChannels_eq_ok hT ht hx grammar importRoot
  have hsteady := hfk.steady hT ht ht (by decide)
  have hTk := hsteady.rooted hT
  obtain ⟨g, hg, hkg, -, htokens⟩ :=
    mergeTokens_eq_ok hTk ht hi (hsteady.hangs root x ht hx) grammar
  exact ⟨k, g, hk, hg, hsteady.trans hT (hkg.steady hTk ht hi (by decide)),
    .of_shifted hT ht hi hfk hkg hchannels htokens⟩

/-- Modes and rules can be taken over. No other section changes. -/
theorem mergeRules_eq_ok {m : RuleMerge} (hT : m.forest.Rooted T) (ht : T root) (hi : T importRoot)
    (hp : m.forest.parent? rules = some root) (hk : m.forest.kind rules = .rules)
    (hm : ModesOf m.forest root m.modes) (grammar : GrammarId) :
    ∃ m₁ m', m.addModes grammar root importRoot = .ok m₁ ∧ m₁.addRules rules importRoot = .ok m' ∧
      m.forest.Steady T m'.forest ∧ ModesOf m'.forest root m'.modes ∧
      Absorbed T root m.forest m'.forest ∧
      ∀ kind, kind ≠ .mode → kind ≠ .rules → Keeps kind T m.forest m'.forest := by
  have hr := hT.isRoot root ht
  obtain ⟨m₁, h₁, hsh₁, hm₁⟩ := addModes_shifted hT ht hi hm grammar
  have hs₁ := hsh₁.steady hT ht hi (by decide)
  have hT₁ := hs₁.rooted hT
  obtain ⟨m', h', hsh', hmodes⟩ := addRules_shifted hT₁ ht (hs₁.hangs _ _ ht hp)
    ((hs₁.kind (lt_size_of_parent?_eq hp)).trans hk)
  have hs' := hsh'.steady hT₁ ht hi (by decide)
  refine ⟨m₁, m', h₁, h', hs₁.trans hT hs', hmodes ▸ hm₁.steady hs' ht,
    (hsh₁.absorbed ht hi).trans hT.wellFormed (hsh'.absorbed ht hi), fun kind hmode hrules => ?_⟩
  exact (hsh₁.keeps hT hr (hT.isRoot importRoot hi) fun _ _ => .inl hmode).trans hT.wellFormed
    hT₁.wellFormed (hsh'.keeps hT₁ (hT₁.isRoot root ht) (hT₁.isRoot importRoot hi)
      fun _ _ => .inl hrules)

/-- The trees still have their roots once the named actions have been placed. -/
theorem merged_rooted {m : ActionMerge} (hT : f.Rooted T) (ht : T root) (hi : T importRoot)
    (hm : Combined f scope
      (f.childrenOfKind root .namedAction ++ f.childrenOfKind importRoot .namedAction) m)
    (hg : Placed m.forest g root (m.named.values.filter fun id => f.parent? id ≠ some root)) :
    g.Rooted T := by
  refine placed_rooted hm.recoded hg hT fun a ha => ?_
  obtain ⟨key, -, hget⟩ := hm.get?_of_mem_values (List.mem_of_mem_filter ha)
  obtain ⟨-, t, hat, -⟩ := hangs_of_mem_actions hT.wellFormed (hT.isRoot root ht)
    (hT.isRoot importRoot hi) (hm.mem_of_get? hget).1
  simp [hat]

/-- A pass succeeds. -/
theorem mergeImport_eq_ok (hm : Ready T root rules m) (hroot : (s.grammar grammar).root = root)
    (himport : (s.grammar imported).root = importRoot) (ht : T root) (hi : T importRoot) :
    ∃ m' g actions k, mergeImport s grammar rules m imported = .ok m' ∧ Ready T root rules m' ∧
      Passed T (s.grammar grammar).type.defaultScope (fileOf s grammar) root importRoot m m' g
        actions k ∧
      Brought T root importRoot m.rules.forest m'.rules.forest ∧
      m'.report = m.report ++ actions.report ++
        optionReport s m'.rules.forest grammar imported := by
  subst hroot himport
  obtain ⟨f₁, g, h₁, h₂, hbefore, hbrought⟩ := mergeSections_eq_ok hm.rooted ht hi hm.hangs grammar
  have hT := hbefore.rooted hm.rooted
  have hp := hbefore.hangs _ _ ht hm.hangs
  obtain ⟨actions, k, h₃, hcombined, hreported, hplaced⟩ := mergeActions_eq_ok hT.wellFormed
    (hT.isRoot _ ht) (hT.isRoot _ hi) hp (s.grammar grammar).type.defaultScope
    (fileOf s grammar) m.repeated
  have hrecoded := hcombined.recoded
  have hTk := merged_rooted hT ht hi hcombined hplaced
  have hpk := placed_hangs hrecoded hplaced hp
  have hkk : k.kind rules = .rules := by
    rw [placed_kind hrecoded hplaced, hbefore.kind (lt_size_of_parent?_eq hm.hangs), hm.kind]
  have hmk : ModesOf k (s.grammar grammar).root m.rules.modes := by
    intro x hx
    obtain ⟨hp, hk⟩ := hm.modes.steady hbefore ht x hx
    exact ⟨placed_hangs hrecoded hplaced hp, (placed_kind hrecoded hplaced x).trans hk⟩
  obtain ⟨r₁, r, h₄, h₅, hafter, hmodes, habsorbed, hkeeps⟩ :=
    mergeRules_eq_ok (m := { m.rules with forest := k }) hTk ht hi hpk hkk hmk grammar
  refine ⟨⟨r, actions.repeated, m.report ++ actions.report ++
    optionReport s r.forest grammar imported⟩, g, actions, k, ?_, ?_, ?_, ?_, rfl⟩
  · rw [mergeImport]
    simp only [h₁, h₂, h₃, h₄, h₅, bind, Except.bind]
    rfl
  · exact ⟨hafter.rooted hTk, hafter.hangs _ _ ht hpk,
      (hafter.kind (lt_size_of_parent?_eq hpk)).trans hkk, hmodes⟩
  · exact ⟨hbefore, hcombined, hreported, rfl, hplaced, hafter⟩
  · obtain ⟨hmerged, hothers⟩ := merged_absorbed hT ht hi hcombined hplaced
    have hsections : ∀ kind, kind ≠ .namedAction → kind ≠ .mode → kind ≠ .rules →
        Keeps kind T g r.forest := fun kind hactions hmode hrules =>
      (hothers kind hactions).trans hT.wellFormed hTk.wellFormed (hkeeps kind hmode hrules)
    exact hbrought.trans hm.rooted ht hi (hmerged.trans hT.wellFormed habsorbed)
      (hsections .tokensSpec (by decide) (by decide) (by decide))
      (hsections .channels (by decide) (by decide) (by decide))

/-! ### From the start to the end -/

theorem SectionReady.shifted (hf : f.WellFormed) (hg : SectionReady f root grammar g rules) :
    Shifted .rules root root f g := by
  cases hg with
  | found => exact .refl hf ..
  | made _ hbelow hchildren =>
    have hkind := (SectionReady.of_made hbelow hchildren).1
    have hlabel : ∀ x < f.size, g.label x = f.label x := fun x hx => hbelow.label_eq hx
    refine ⟨hbelow.wellFormed, hbelow.size_le, hlabel, fun x hx hroot => ?_, fun x hx => ?_,
      fun other hother => ?_, fun x hx hne _ => hbelow.children_eq hx hne, fun x p hp => .inl ?_⟩
    · rw [hbelow.parent?_eq hx, hroot]
    · rw [hbelow.parent?_eq hx]
    · rw [childrenOfKind, hchildren, List.filter_append,
        List.filter_cons_of_neg (by simp [hkind, hother.symm]), List.filter_nil, List.append_nil,
        childrenOfKind]
      refine List.filter_congr fun c hc => ?_
      rw [kind_of_label (hlabel c (hf.lt_size_of_child hc))]
    · rw [hbelow.parent?_eq (lt_size_of_parent?_eq hp), hp]

/-- Integration starts with the rule section and the modes of the grammar. -/
theorem start_ready (hT : f.Rooted T) (ht : T root) (grammar : GrammarId) :
    ∃ g rules, ruleSection grammar root f = .ok (g, rules) ∧ Shifted .rules root root f g ∧
      ∀ names, Ready T root rules ⟨⟨g, names, g.childrenOfKind root .mode⟩, [], []⟩ := by
  obtain ⟨g, rules, hg, hready⟩ := ruleSection_eq_ok hT.wellFormed (hT.lt_size root ht) grammar
  have hshifted := hready.shifted hT.wellFormed
  have hsteady := hshifted.steady hT ht ht (by decide)
  exact ⟨g, rules, hg, hshifted, fun names => ⟨hsteady.rooted hT, hready.hangs hT.wellFormed,
    hready.kind hT.wellFormed, fun x hx => (mem_childrenOfKind hsteady.wellFormed).mp hx⟩⟩

theorem foldlM_mergeImport_ready {imports : List GrammarId} (hm : Ready T root rules m)
    (hroot : (s.grammar grammar).root = root) (ht : T root)
    (himports : ∀ i ∈ imports, T (s.grammar i).root) :
    ∃ m', imports.foldlM (mergeImport s grammar rules) m = .ok m' ∧ Ready T root rules m' := by
  induction imports generalizing m with
  | nil => exact ⟨m, rfl, hm⟩
  | cons i imports ih =>
    rw [List.forall_mem_cons] at himports
    obtain ⟨k, -, -, -, hk, hready, -⟩ := mergeImport_eq_ok hm hroot rfl ht himports.1
    obtain ⟨m', hm', hfinal⟩ := ih hready himports.2
    refine ⟨m', ?_, hfinal⟩
    rw [List.foldlM_cons, hk]
    exact hm'

end Integration

open Integration in
/-- Integrating imports always succeeds and keeps the roots of all grammars, also if grammars import
themselves. -/
theorem GrammarSet.integrateImports_rooted {s : GrammarSet} {T : NodeId → Prop}
    {grammar : GrammarId} (hT : s.forest.Rooted T) (ht : T (s.grammar grammar).root)
    (himports : ∀ i ∈ s.allImports grammar, T (s.grammar i).root) :
    ∃ f report, s.integrateImports grammar = .ok (s.withForest f, report) ∧ f.Rooted T := by
  rw [integrateImports]
  by_cases hnone : (s.allImports grammar).isEmpty = true
  · exact ⟨s.forest, [], by rw [if_pos hnone]; rfl, hT⟩
  obtain ⟨g, rules, hg, -, hready⟩ := start_ready hT ht grammar
  obtain ⟨m, hm, hfinal⟩ := foldlM_mergeImport_ready (hready ((s.grammar grammar).ruleNames g))
    (Eq.refl (s.grammar grammar).root) ht himports
  refine ⟨m.rules.forest, m.report, ?_, hfinal.rooted⟩
  simp only [hnone, hg, bind, Except.bind, hm]
  rfl

end GrammarTrees
