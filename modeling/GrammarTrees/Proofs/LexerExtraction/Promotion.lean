import GrammarTrees.Proofs.LexerExtraction.LiteralRules

/-! The lexer that is split off a combined grammar. It has a rule for each string literal that no
token rule matches alone, and then the token rules. No other rule has the name of a new one. -/

namespace GrammarTrees

namespace LexerExtraction

open Forest

variable {f g d : Forest} {root rules lexer lexerRules x r q : Nat} {moved made : List NodeId}
  {taken ls : List String} {ns : List Nat} {m : LiteralMerge} {own : Grammar}

/-- The literals that become rules: those in the rules of the grammar, but for the ones that one of
the token rules matches. -/
def promoted (own : Grammar) (moved : List NodeId) (f : Forest) : List String :=
  (own.stringLiterals f).filter fun l => moved.all fun r => !isAlias l (f.bareTree r)

/-- In `g`, the tree of the grammar `own` of `f` with the rule section `rules` has been divided, and
the lexer has the new rules `made` with the numbers `ns`. -/
structure Promoted (f g : Forest) (own : Grammar) (rules lexer lexerRules : NodeId)
    (made : List NodeId) (ns : List Nat) : Prop where
  own_rules : own.rules g = (own.rules f).filter (· ∉ tokenRules f rules)
  trees : ∀ r ∈ own.rules f, g.bareTree r = f.bareTree r
  isRoot : g.parent? lexer = none
  lexer_sections : g.sections lexer = [lexerRules]
  kind : g.kind lexerRules = .rules
  lexer_rules : g.children lexerRules = made ++ tokenRules f rules
  literals : made.map g.bareTree =
    List.zipWith (fun n l => literalRule (literalRuleName n) l) ns
      (promoted own (tokenRules f rules) g)
  length : ns.length = (promoted own (tokenRules f rules) g).length
  nodup : (promoted own (tokenRules f rules) g).Nodup
  increasing : ns.Pairwise (· < ·)
  distinct : ∀ r ∈ made, ∀ q ∈ own.rules g ++ g.children lexerRules, q ≠ r →
    g.sectionName q ≠ g.sectionName r

/-! ### Names of the new rules -/

theorem zipWith_left {α β γ : Type} (k : α → γ) {l : List α} {l' : List β}
    (h : l.length = l'.length) : List.zipWith (fun a _ => k a) l l' = l.map k := by
  induction l generalizing l' with
  | nil => rfl
  | cons a l ih =>
    cases l' with
    | nil => simp at h
    | cons b l' => rw [List.zipWith_cons_cons, ih (Nat.succ.inj h), List.map_cons]

theorem treeName_literalRule (name literal : String) : treeName (literalRule name literal) = name :=
  rfl

theorem unowned_literalRule (name literal : String) :
    (literalRule name literal).map Label.unowned = literalRule name literal := rfl

theorem nodup_literalRuleNames (h : ns.Pairwise (· < ·)) : (ns.map literalRuleName).Nodup := by
  have hns : ns.Nodup := h.imp fun hab => Nat.ne_of_lt hab
  exact hns.map fun _ _ hab => literalRuleName_injective hab

/-! ### Where the rule section of the lexer stands -/

section Merging

variable (hf : f.WellFormed) (hroot : f.parent? own.root = none)
  (hp : f.parent? rules = some own.root) (hkind : f.kind rules = .rules)
  (hd : Divided f d own.root rules lexer lexerRules (tokenRules f rules))
  (hm : Merged d lexerRules (tokenRules f rules) taken made ns ls m) (hg : m.forest.Reowned g)
include hd

theorem Divided.hangs : d.parent? lexerRules = some lexer := by
  apply ((mem_sections hd.wellFormed).mp _).1
  rw [hd.lexer_sections]
  exact List.mem_singleton_self lexerRules

theorem Divided.lexerRules_lt : lexerRules < d.size := lt_size_of_parent?_eq hd.hangs

/-- The rule section of the lexer does not belong to the grammar. -/
theorem Divided.not_within (hx : d.Within x own.root) : ¬ d.Within lexerRules x := by
  intro hw
  exact hd.lexer_ne ((Within.of_parent hd.hangs (.refl d lexer)).root_unique (hw.trans hx)
    hd.lexer_root hd.isRoot)

include hf hroot

theorem Divided.not_within_rule (hr : r ∈ own.rules f) : ¬ d.Within lexerRules r := by
  by_cases hmoved : r ∈ tokenRules f rules
  · apply hd.wellFormed.not_within_of_parent
    apply hd.wellFormed.mem_children.mp
    rw [hd.lexer_children]
    exact hmoved
  · have hrd : r ∈ own.rules d := by
      rw [hd.own_rules hf hroot]
      exact List.mem_filter.mpr ⟨hr, decide_eq_true hmoved⟩
    obtain ⟨x, hx, hrx, -⟩ := mem_rules hd.wellFormed hrd
    have hxroot := ((mem_sections hd.wellFormed).mp hx).1
    exact hd.not_within (.of_parent hrx (.of_parent hxroot (.refl d own.root)))

/-! ### What making rules leaves alone -/

include hm

omit hf hroot in
theorem Merged.label_eq : ∀ c ∈ d.children x, m.forest.label c = d.label c := by
  intro c hc
  exact hm.label c (hd.wellFormed.lt_size_of_child hc)

omit hf hroot in
/-- Subtrees that do not have the rule section of the lexer stay as they are. -/
theorem Merged.labelTree_eq (hx : x < d.size) (hw : ¬ d.Within lexerRules x) :
    m.forest.labelTree x = d.labelTree x := by
  refine labelTree_congr (S := fun y => d.Within y x) hd.wellFormed hm.wellFormed
    (fun y hy c hc => .of_parent (hd.wellFormed.mem_children.mp hc) hy) (fun y hy => ?_)
    (fun y hy => hm.label y (hy.lt_size hx)) (.refl d x) hx hm.size_le
  refine hm.children y (hy.lt_size hx) ?_
  rintro rfl
  exact hw hy

include hg

/-- No rule is changed, and neither are those that are moved. -/
theorem Merged.bareTree_eq (hr : r ∈ own.rules f) : g.bareTree r = d.bareTree r := by
  obtain ⟨x, -, hrx, -⟩ := mem_rules hf hr
  have hlt := Nat.lt_of_lt_of_le (lt_size_of_parent?_eq hrx) hd.size_le
  rw [hg.bareTree hm.wellFormed (Nat.lt_of_lt_of_le hlt hm.size_le), bareTree,
    hm.labelTree_eq hd hlt (hd.not_within_rule hf hroot hr), ← bareTree]

include hp

omit hroot in
theorem Merged.rules_eq : own.rules g = own.rules d := by
  have hlt := Nat.lt_of_lt_of_le (hf.lt_size_of_parent hp) hd.size_le
  have hne : ∀ x, d.Within x own.root → x ≠ lexerRules := by
    rintro x hx rfl
    exact hd.not_within hx (.refl d x)
  rw [hg.rules, rules_eq_flatMap, rules_eq_flatMap,
    sections_congr (hm.children own.root hlt (hne own.root (.refl d own.root))) (hm.label_eq hd)]
  refine List.flatMap_congr fun x hx => ?_
  obtain ⟨hxp, -⟩ := (mem_sections hd.wellFormed).mp hx
  exact childrenOfKind_congr (hm.children x (lt_size_of_parent?_eq hxp)
    (hne x (.of_parent hxp (.refl d own.root)))) (hm.label_eq hd) _

include hkind

/-- The literals that become rules are those that a rule is made for. -/
theorem Merged.promoted_eq : promoted own (tokenRules f rules) g =
    (own.stringLiterals d).filter fun l =>
      !((tokenRules f rules).filterMap (aliasOf? d)).contains l := by
  have hrules := stringLiterals_congr (hm.rules_eq hf hp hd hg) fun r hr =>
    hm.bareTree_eq hf hroot hd hg (hd.mem_rules_of_mem hf hroot hr)
  rw [promoted, hrules]
  apply List.filter_congr
  intro l _
  have halias : ∀ r ∈ tokenRules f rules,
      (isAlias l (g.bareTree r) = true ↔ aliasOf? d r = some l) := by
    intro r hr
    have hlt := Nat.lt_of_lt_of_le (lt_size_of_parent?_eq (mem_tokenRules hf hr).1) hd.size_le
    rw [hm.bareTree_eq hf hroot hd hg (mem_rules_of_mem_tokenRules hf hp hkind hr),
      aliasOf?_eq_some_iff hd.wellFormed hlt]
  rw [Bool.eq_iff_iff, List.all_eq_true, Bool.not_eq_true', ← Bool.not_eq_true,
    List.contains_iff_mem, List.mem_filterMap]
  constructor
  · rintro hall ⟨r, hr, hl⟩
    have := hall r hr
    rw [(halias r hr).mpr hl] at this
    simp at this
  · intro hnone r hr
    by_contra hal
    refine hnone ⟨r, hr, (halias r hr).mp ?_⟩
    simpa using hal

omit hkind hp in
theorem Merged.sectionName_eq (hr : r ∈ own.rules f) : g.sectionName r = d.sectionName r := by
  obtain ⟨x, -, hrx, -⟩ := mem_rules hf hr
  have hlt := Nat.lt_of_lt_of_le (lt_size_of_parent?_eq hrx) hd.size_le
  have hlt' : r < g.size := hg.size ▸ Nat.lt_of_lt_of_le hlt hm.size_le
  rw [Forest.sectionName_eq hg.wellFormed hlt', Forest.sectionName_eq hd.wellFormed hlt,
    hm.bareTree_eq hf hroot hd hg hr]

omit hf hroot hkind hp hd in
theorem Merged.map_bareTree : made.map g.bareTree =
    List.zipWith (fun n l => literalRule (literalRuleName n) l) ns ls := by
  have hbare : made.map g.bareTree =
      (made.map m.forest.labelTree).map (Tree.map Label.unowned) := by
    rw [List.map_map]
    refine List.map_congr_left fun r hr => ?_
    have hlt : r < m.forest.size := by
      apply hm.wellFormed.lt_size_of_child
      rw [hm.rules]
      exact List.mem_append_left _ hr
    exact hg.bareTree hm.wellFormed hlt
  rw [hbare, hm.trees, List.map_zipWith]
  simp only [unowned_literalRule]

omit hf hroot hkind hp hd in
theorem Merged.map_sectionName : made.map g.sectionName = ns.map literalRuleName := by
  have hnames : made.map g.sectionName = (made.map g.bareTree).map treeName := by
    rw [List.map_map]
    refine List.map_congr_left fun r hr => Forest.sectionName_eq hg.wellFormed ?_
    apply hg.wellFormed.lt_size_of_child
    rw [hg.children, hm.rules]
    exact List.mem_append_left _ hr
  rw [hnames, hm.map_bareTree hg, List.map_zipWith]
  simp only [treeName_literalRule]
  exact zipWith_left literalRuleName hm.length

omit hkind in
/-- No other rule has the name of a new one. -/
theorem Merged.sectionName_ne
    (htaken : taken = own.ruleNames d ++ (tokenRules f rules).map d.sectionName)
    (hmoved : ∀ r ∈ tokenRules f rules, r ∈ own.rules f) (hr : r ∈ made)
    (hq : q ∈ own.rules g ++ g.children lexerRules) (hne : q ≠ r) :
    g.sectionName q ≠ g.sectionName r := by
  intro heq
  obtain ⟨n, hn, hname⟩ : ∃ n ∈ ns, literalRuleName n = g.sectionName r := by
    have hmem : g.sectionName r ∈ made.map g.sectionName := List.mem_map_of_mem hr
    rw [hm.map_sectionName hg] at hmem
    exact List.mem_map.mp hmem
  have hfree := hm.free n hn
  rw [hname, ← heq, htaken] at hfree
  rw [hm.rules_eq hf hp hd hg, hg.children, hm.rules, List.mem_append, List.mem_append] at hq
  rcases hq with hown | hmade | htoken
  · rw [hm.sectionName_eq hf hroot hd hg (hd.mem_rules_of_mem hf hroot hown)] at hfree
    exact hfree (List.mem_append_left _ (List.mem_map_of_mem hown))
  · have hnodup : (made.map g.sectionName).Nodup := by
      rw [hm.map_sectionName hg]
      exact nodup_literalRuleNames hm.increasing
    exact hne (List.inj_on_of_nodup_map hnodup hmade hr heq)
  · rw [hm.sectionName_eq hf hroot hd hg (hmoved q htoken)] at hfree
    exact hfree (List.mem_append_right _ (List.mem_map_of_mem htoken))

end Merging

/-! ### Splitting off a lexer -/

section Splitting

variable (hf : f.WellFormed) (hroot : f.parent? own.root = none)
  (hp : f.parent? rules = some own.root) (hkind : f.kind rules = .rules)
include hf hroot hp hkind

/-- Making rules for literals gives the lexer all rules it should have. -/
theorem Divided.addLiteralRules
    (hd : Divided f d own.root rules lexer lexerRules (tokenRules f rules)) :
    ∃ m made ns, addLiteralRules own lexerRules d = .ok m ∧ m.forest.WellFormed ∧
      ∀ g, m.forest.Reowned g → Promoted f g own rules lexer lexerRules made ns := by
  obtain ⟨m, made, ns, hm, hmerged⟩ :=
    addLiteralRules_merged hd.wellFormed hd.lexerRules_lt hd.lexer_children own
  have hlexer : lexer ≠ lexerRules := by
    rintro rfl
    exact ne_of_parent hd.lexer_root hd.hangs rfl
  refine ⟨m, made, ns, hm, hmerged.wellFormed, fun g hg => ?_⟩
  have hpromoted := hmerged.promoted_eq hf hroot hp hkind hd hg
  have hsections : m.forest.sections lexer = d.sections lexer :=
    sections_congr (hmerged.children lexer (hd.wellFormed.lt_size_of_parent hd.hangs) hlexer)
      (hmerged.label_eq hd)
  refine ⟨?_, fun r hr => ?_, ?_, ?_, ?_, ?_, ?_, ?_, ?_, hmerged.increasing,
    fun r hr q hq hne => ?_⟩
  · rw [hmerged.rules_eq hf hp hd hg, hd.own_rules hf hroot]
  · rw [hmerged.bareTree_eq hf hroot hd hg hr, hd.bareTree hf hroot hp hkind hr]
  · rw [hg.parent?, hmerged.parent? lexer (hd.wellFormed.lt_size_of_parent hd.hangs), hd.lexer_root]
  · rw [← hd.lexer_sections, ← hsections, Forest.sections, hg.children, Forest.sections]
    simp only [hg.kind]
  · rw [hg.kind, kind_of_label (hmerged.label lexerRules hd.lexerRules_lt), hd.kind]
  · rw [hg.children, hmerged.rules]
  · rw [hpromoted, hmerged.map_bareTree hg]
  · rw [hpromoted, hmerged.length]
  · rw [promoted, Grammar.stringLiterals]
    exact (nodup_eraseDups _).filter _
  · exact hmerged.sectionName_ne hf hroot hp hd hg rfl
      (fun r hr => mem_rules_of_mem_tokenRules hf hp hkind hr) hr hq hne

theorem split_promoted : ∃ g own' lexer lexerRules made ns,
    split own rules f = .ok (g, own', lexer, lexerRules) ∧ g.WellFormed ∧
      ∀ h, g.Reowned h → Promoted f h own rules lexer.root lexerRules made ns := by
  have hr := hf.lt_size_of_parent hp
  have hactions : ∀ a ∈ lexerActions f own.root, a < f.size ∧ (f.kind a).holdsRules = false := by
    intro a ha
    obtain ⟨hap, hak⟩ := mem_lexerActions hf ha
    exact ⟨lt_size_of_parent?_eq hap, by rw [hak]; rfl⟩
  obtain ⟨g, h, l, hplanted, -, rfl, hsplit⟩ := split_of_copies hf hr rules
  have hprepared := (Prepared.of_planted hf hr hplanted
    fun t ht => holdsRules_of_mem_lexerTrees hf ht).deleteAll hr hactions
  obtain ⟨k, d, hk, hd, hdivided⟩ := hprepared.divided hf hroot hp hkind
  obtain ⟨m, made, ns, hm, hwf, hpromoted⟩ := hdivided.addLiteralRules hf hroot hp hkind
  exact ⟨m.forest, m.grammar, _, _, made, ns, hsplit k d m hk hd hm, hwf, hpromoted⟩

end Splitting

end LexerExtraction

namespace GrammarSet

open LexerExtraction

variable {s : GrammarSet} {id : GrammarId} {rules : Nat}

/-- Splitting the lexer off a grammar with a rule section succeeds. The lexer has a rule for each
literal that it needs one for, and there is no lexer if it would have no rules. -/
theorem extractLexer_promotes (hf : s.forest.WellFormed)
    (hroot : s.forest.parent? (s.grammar id).root = none)
    (hrules : s.forest.firstChildOfKind? (s.grammar id).root .rules = some rules) :
    ∃ t lexer lexerRules made ns,
      s.extractLexer id =
        .ok (t, if made ++ tokenRules s.forest rules = [] then none else some lexer) ∧
      Promoted s.forest t.forest (s.grammar id) rules lexer.root lexerRules made ns := by
  obtain ⟨hp, hkind⟩ := Forest.of_firstChildOfKind? hf hrules
  obtain ⟨f, own, lexer, lexerRules, made, ns, hsplit, hwf, hpromoted⟩ :=
    split_promoted hf hroot hp hkind
  have howned := Forest.reowned_setOwnerBelow hwf lexer.root id
  have hlinks := howned.wellFormed.linksAgree
  have hp := hpromoted _ howned
  refine ⟨⟨f.setOwnerBelow lexer.root id, s.grammars.modify id fun _ => own⟩, lexer, lexerRules,
    made, ns, ?_, hp⟩
  rw [extractLexer]
  simp only [hrules, hsplit, bind, Except.bind, hlinks, Bool.and_self, if_true, Forest.childCount,
    hp.lexer_rules, List.length_eq_zero_iff]
  rfl

/-- A combined grammar whose rule `a` has two literals. -/
def keywordTree : Tree Label :=
  .node (.make .grammar "COMBINED_GRAMMAR")
    [.leaf (.make .id "R"),
     .node (.ofKind .rules)
       [.node (.ofKind .rule)
         [.leaf (.make .ruleRef "a"),
          .node (.ofKind .block)
            [.node (.ofKind .alt)
              [.leaf (.make .stringLiteral "'x'"), .leaf (.make .stringLiteral "'if'")]]],
        literalRule "IF" "'if'",
        literalRule "T__0" "'y'"]]

def keywords : GrammarSet :=
  ⟨(Forest.empty.plant keywordTree).1, #[⟨"R", "R.g4", .combined, 0, .empty, [], 0⟩]⟩

/-- A literal without a token rule gets one. -/
theorem extractLexer_promotes_keywords :
    ∃ t lexer lexerRules made ns, keywords.extractLexer 0 = .ok (t, some lexer) ∧
      Promoted keywords.forest t.forest (keywords.grammar 0) 2 lexer.root lexerRules made ns := by
  have hplanted := Forest.planted_plant Forest.WellFormed.empty keywordTree
  have hroot : keywords.forest.parent? (keywords.grammar 0).root = none := by decide
  have hrules : keywords.forest.firstChildOfKind? (keywords.grammar 0).root .rules = some 2 := by
    decide
  obtain ⟨t, lexer, lexerRules, made, ns, hok, hpromoted⟩ :=
    extractLexer_promotes hplanted.wellFormed hroot hrules
  have htokens : tokenRules keywords.forest 2 ≠ [] := by decide
  refine ⟨t, lexer, lexerRules, made, ns, ?_, hpromoted⟩
  rwa [if_neg (List.append_ne_nil_of_right_ne_nil made htokens)] at hok

example : (keywords.extractLexer 0).map (fun (t, lexer) => lexer.map fun lexer =>
    ((t.forest.sections lexer.root).flatMap t.forest.children).map t.forest.sectionName) =
      .ok (some ["T__1", "IF", "T__0"]) := by rfl

end GrammarSet

end GrammarTrees
