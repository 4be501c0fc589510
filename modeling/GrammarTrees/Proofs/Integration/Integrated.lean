import GrammarTrees.Proofs.Integration.Names
import GrammarTrees.Proofs.Integration.Start

/-! Integration of imports as a whole. It takes over each rule that is the first of its name, in the
order in which the grammar and its imports have their rules, and leaves the others where they are.
-/

namespace GrammarTrees

namespace Integration

open Forest

variable {f g : Forest} {root rules x : Nat} {grammar : GrammarId} {roots made : List NodeId}
  {own : Grammar}

/-- What integration makes of the forest `f`, in which the grammar `own` has the rule section
`rules` and its imports are at `roots`. -/
structure Integrated (f : Forest) (own : Grammar) (rules : NodeId) (grammar : GrammarId)
    (roots made : List NodeId) (g : Forest) : Prop where
  taken : Taken f own.root rules grammar (f.ruleOrder own.root (roots.flatMap f.importSections))
    (roots.flatMap f.importSections) made g
  trees : ∀ r ∈ f.ruleOrder own.root (roots.flatMap f.importSections),
    g.labelTree r = f.labelTree r
  moved : ∀ x ∈ roots.flatMap f.importSections, ∀ r ∈ f.sectionRules x,
    if f.isFirst (f.ruleOrder own.root (roots.flatMap f.importSections)) r then
      g.Within r own.root
    else g.parent? r = some x
  rules : ∀ r ∈ own.rules g, r ∈ f.ruleOrder own.root (roots.flatMap f.importSections) ∨
    ∃ x ∈ roots.flatMap f.importSections, f.kind x = .mode ∧
      ∃ name, f.child? x 0 = some name ∧ f.kind name = .rule ∧ g.label r = f.label name ∧
        g.children r = []
  names : (own.ruleNames f).Nodup →
    (((own.rules g).filter (· ∈ f.ruleOrder own.root (roots.flatMap f.importSections))).map
      g.sectionName).Nodup

theorem integrated_of_taken
    (h : Setting f own.root rules (roots.flatMap f.importSections))
    (ht : Taken f own.root rules grammar (f.ruleOrder own.root (roots.flatMap f.importSections))
      (roots.flatMap f.importSections) made g) :
    Integrated f own rules grammar roots made g := by
  refine ⟨ht, fun r hr => ?_, fun x hx r hr => ht.moved h hx hr, fun r hr => ?_, fun hn => ?_⟩
  · exact ht.carried.labelTree h.wellFormed (h.rulePart hr)
  · rw [rules_eq_flatMap] at hr
    obtain ⟨x, hx, hrx⟩ := List.mem_flatMap.mp hr
    rcases ht.rule_cases h hx hrx with hown | htaken | ⟨m, hm, hk, name, hname, hkn, hl, hc, -⟩
    · exact .inl (List.mem_append_left _ hown)
    · refine .inl (List.mem_append_right _ ?_)
      obtain ⟨z, hz, hrz⟩ := List.mem_flatMap.mp htaken
      exact List.mem_flatMap.mpr ⟨z, hz, List.mem_of_mem_filter hrz⟩
    · exact .inr ⟨m, hm, hk, name, hname, hkn, hl, hc⟩
  · rw [Grammar.ruleNames, rules_eq_flatMap] at hn
    rw [rules_eq_flatMap]
    exact ht.nodup_names h hn

/-- Unless an imported mode starts with a rule, all rules have names of their own if those of the
grammar had before. -/
theorem Integrated.nodup_ruleNames (h : Integrated f own rules grammar roots made g)
    (hn : (own.ruleNames f).Nodup)
    (hmodes : ∀ x ∈ roots.flatMap f.importSections, f.kind x = .mode →
      ∀ name, f.child? x 0 = some name → f.kind name ≠ .rule) :
    (own.ruleNames g).Nodup := by
  have hall : (own.rules g).filter
      (· ∈ f.ruleOrder own.root (roots.flatMap f.importSections)) = own.rules g := by
    rw [List.filter_eq_self]
    intro r hr
    rcases h.rules r hr with hr | ⟨x, hx, hk, name, hname, hkn, -⟩
    · exact decide_eq_true hr
    · exact absurd hkn (hmodes x hx hk name hname)
  have hnames := h.names hn
  rw [hall] at hnames
  exact hnames

end Integration

namespace GrammarSet

open Integration

variable {s : GrammarSet} {grammar : GrammarId}

def importRoots (s : GrammarSet) (grammar : GrammarId) : List NodeId :=
  (s.allImports grammar).map fun i => (s.grammar i).root

theorem Separate.nodup_importRoots (hs : s.Separate) (hg : grammar < s.size) :
    (s.importRoots grammar).Nodup := by
  refine (nodup_allImports s grammar).map_on fun a ha b hb hab => ?_
  exact hs.distinct a (hs.lt_size_of_mem_allImports hg ha) b
    (hs.lt_size_of_mem_allImports hg hb) hab

theorem Separate.root_ne (hs : s.Separate) (ha : s.Acyclic) (hg : grammar < s.size) {i : GrammarId}
    (hi : i ∈ s.allImports grammar) : (s.grammar i).root ≠ (s.grammar grammar).root := by
  intro he
  obtain rfl := hs.distinct i (hs.lt_size_of_mem_allImports hg hi) grammar hg he
  exact ha.not_mem_allImports hi

/-- Integration succeeds, and gives the grammar each rule that is the first of its name. -/
theorem integrateImports_integrated (hs : s.Separate) (ha : s.Acyclic) (hg : grammar < s.size) :
    if s.allImports grammar = [] then s.integrateImports grammar = .ok (s, [])
    else ∃ f rules made g report, s.integrateImports grammar = .ok (s.withForest g, report) ∧
      SectionReady s.forest (s.grammar grammar).root grammar f rules ∧
      Integrated f (s.grammar grammar) rules grammar (s.importRoots grammar) made g ∧
      (((s.grammar grammar).ruleNames s.forest).Nodup →
        (∀ x ∈ (s.importRoots grammar).flatMap f.importSections, f.kind x = .mode →
          ∀ name, f.child? x 0 = some name → f.kind name ≠ .rule) →
        ((s.grammar grammar).ruleNames g).Nodup) := by
  rw [integrateImports]
  split
  · rename_i hnil
    simp only [hnil]
    rfl
  rename_i hne
  have hroot := hs.isRoot grammar hg
  obtain ⟨f, rules, hf, hready⟩ := ruleSection_eq_ok hs.wellFormed (hs.root_lt grammar hg) grammar
  have himports : ∀ i ∈ s.allImports grammar, (s.grammar i).root < f.size ∧
      f.parent? (s.grammar i).root = none ∧ (s.grammar i).root ≠ (s.grammar grammar).root := by
    intro i hi
    have hlt := hs.lt_size_of_mem_allImports hg hi
    refine ⟨Nat.lt_of_lt_of_le (hs.root_lt i hlt) hready.size_le, ?_, hs.root_ne ha hg hi⟩
    rw [hready.parent? (hs.root_lt i hlt)]
    exact hs.isRoot i hlt
  have hset : Setting f (s.grammar grammar).root rules
      ((s.importRoots grammar).flatMap f.importSections) := by
    refine setting_of_roots (hready.wellFormed hs.wellFormed) ?_ (hready.hangs hs.wellFormed)
      (hready.kind hs.wellFormed) (hs.nodup_importRoots hg) fun t ht => ?_
    · rw [hready.parent? (hs.root_lt grammar hg)]
      exact hroot
    · obtain ⟨i, hi, rfl⟩ := List.mem_map.mp ht
      exact (himports i hi).2
  have htodo : (s.importRoots grammar).flatMap f.importSections =
      [] ++ (s.allImports grammar).flatMap fun i => f.importSections (s.grammar i).root := by
    rw [importRoots, List.flatMap_map, List.nil_append]
  obtain ⟨m, hm, hprogress⟩ := mergeImports_progress hset
    (m := ⟨⟨f, (s.grammar grammar).ruleNames f, f.childrenOfKind (s.grammar grammar).root .mode⟩,
      [], []⟩) htodo (hset.start rfl grammar) rfl himports
  obtain ⟨made, -, htaken⟩ := hprogress.taken
  have hintegrated : Integrated f (s.grammar grammar) rules grammar (s.importRoots grammar) made
      m.rules.forest := integrated_of_taken hset htaken
  refine ⟨f, rules, made, m.rules.forest, m.report, ?_, hready, hintegrated, fun hn hmodes => ?_⟩
  · have hempty : (s.allImports grammar).isEmpty = false := by
      simpa using hne
    simp only [hempty, hf, bind, Except.bind, hm]
    rfl
  · rw [← hready.ruleNames_eq hs.wellFormed hroot rfl] at hn
    exact hintegrated.nodup_ruleNames hn hmodes

/-! ### A grammar with one import -/

/-- A combined grammar that imports another grammar. -/
def importing (own other : Tree Label) : GrammarSet :=
  let f := Forest.empty.plant own
  let g := f.1.plant other
  ⟨g.1, #[⟨"R", "R.g4", .combined, f.2, .empty, [1], 0⟩, ⟨"S", "S.g4", .combined, g.2, .empty, [], 0⟩]⟩

theorem importing_imports {own other : Tree Label} {g h : Nat}
    (hgh : (importing own other).Imports g h) : g = 0 ∧ h = 1 := by
  rw [Imports, GrammarSet.grammar, importing] at hgh
  match g with
  | 0 => exact ⟨rfl, by simpa using hgh⟩
  | 1 => simp at hgh
  | n + 2 => simp [default] at hgh

theorem importing_separate (own other : Tree Label) : (importing own other).Separate := by
  have hf := Forest.planted_plant Forest.WellFormed.empty own
  have hg := Forest.planted_plant hf.wellFormed other
  have hlt : (Forest.empty.plant own).2 < ((Forest.empty.plant own).1.plant other).2 := by
    rw [hg.root_eq]
    exact hf.root_lt
  have hcases : ∀ g < (importing own other).size, g = 0 ∨ g = 1 := by
    intro g hg
    have : (importing own other).size = 2 := rfl
    omega
  refine ⟨hg.wellFormed, fun g h => ?_, fun g h => ?_, fun a ha b hb hab => ?_, fun g _ h hgh => ?_⟩
  · rcases hcases g h with rfl | rfl
    · exact Nat.lt_trans hlt hg.root_lt
    · exact hg.root_lt
  · rcases hcases g h with rfl | rfl
    · exact (hg.toGrown.parent? hf.root_lt).trans hf.isRoot
    · exact hg.isRoot
  · rcases hcases a ha with rfl | rfl <;> rcases hcases b hb with rfl | rfl
    · rfl
    · exact absurd hab (Nat.ne_of_lt hlt)
    · exact absurd hab (Nat.ne_of_gt hlt)
    · rfl
  · rw [(importing_imports hgh).2]
    exact Nat.one_lt_two

theorem importing_acyclic (own other : Tree Label) : (importing own other).Acyclic := by
  refine acyclic_of_lt fun g h hgh => ?_
  obtain ⟨rfl, rfl⟩ := importing_imports hgh
  exact Nat.zero_lt_one

def bareRule (name : String) : Tree Label :=
  .node (.ofKind .rule) [.leaf (.make .tokenRef name)]

def modeTree (name : Tree Label) (rules : List (Tree Label)) : Tree Label :=
  .node (.ofKind .mode) (name :: rules)

def grammarTree (name : String) (sections : List (Tree Label)) : Tree Label :=
  .node (.make .grammar "COMBINED_GRAMMAR") (.leaf (.make .id name) :: sections)

/-- A grammar with the rule `A` that imports a grammar with a mode. -/
def importingMode (name : Tree Label) (rules : List (Tree Label)) : GrammarSet :=
  importing (grammarTree "R" [.node (.ofKind .rules) [bareRule "A"]])
    (grammarTree "S" [modeTree name rules])

/-- A mode is taken over without its rule `A`. -/
theorem integrateImports_shadowed :
    ∃ t report, (importingMode (.leaf (.make .id "M")) [bareRule "A", bareRule "B"]).integrateImports
        0 = .ok (t, report) ∧
      ((t.grammar 0).ruleNames t.forest).Nodup := by
  have h := integrateImports_integrated (importing_separate _ _) (importing_acyclic _ _)
    (show 0 < (importingMode (.leaf (.make .id "M")) [bareRule "A", bareRule "B"]).size by decide)
  rw [if_neg (by decide)] at h
  obtain ⟨f, rules, made, g, report, hok, hready, -, hnames⟩ := h
  refine ⟨_, report, hok, hnames (by decide) ?_⟩
  cases hready with
  | found _ => decide
  | made hnone _ _ => exact absurd hnone (by decide)

/-- A mode that starts with a rule is taken over with a nameless copy of it before the rule itself.
-/
theorem integrateImports_repeats_name :
    let s := importingMode (.leaf (.ofKind .rule)) [bareRule "B"]
    s.Separate ∧ s.Acyclic ∧ 0 < s.size ∧ ((s.grammar 0).ruleNames s.forest).Nodup ∧
      ∃ t report, s.integrateImports 0 = .ok (t, report) ∧
        ¬ ((t.grammar 0).ruleNames t.forest).Nodup := by
  refine ⟨importing_separate _ _, importing_acyclic _ _, by decide, by decide, ?_⟩
  have hnames : ((importingMode (.leaf (.ofKind .rule)) [bareRule "B"]).integrateImports 0).map
      (fun t => (t.1.grammar 0).ruleNames t.1.forest) = .ok ["A", "", "", "B"] := by
    rfl
  generalize (importingMode (.leaf (.ofKind .rule)) [bareRule "B"]).integrateImports 0 = result
    at hnames ⊢
  match result, hnames with
  | .ok (t, report), hnames =>
    refine ⟨t, report, rfl, ?_⟩
    rw [show (t.grammar 0).ruleNames t.forest = _ from Except.ok.inj hnames]
    decide

end GrammarSet

end GrammarTrees
