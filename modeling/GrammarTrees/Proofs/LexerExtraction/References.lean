import GrammarTrees.Proofs.Forest.Walks
import GrammarTrees.Proofs.LexerExtraction.LexerTree
import GrammarTrees.Proofs.LexerExtraction.Promotion

/-! Which string literals get a rule of the lexer: those that stand in the rules of the grammar
outside the options of elements. The sections for the options of a rule or of a block are not passed
over, so the values that stand there get rules as well. -/

namespace GrammarTrees

namespace Forest

variable {f : Forest} {a c r x : Nat} {k : Kind} {literal : String}

/-- The string literal stands in the tree of `r`, at `x`. -/
structure LiteralAt (f : Forest) (r x : NodeId) (literal : String) : Prop where
  within : f.Within x r
  kind : f.kind x = .stringLiteral
  text : f.text x = literal

/-- In the tree of `r`, the node `x` is one of the given kind or lies below one. -/
def Under (f : Forest) (k : Kind) (r x : NodeId) : Prop :=
  ∃ y, f.Within x y ∧ f.Within y r ∧ f.kind y = k

section Trees

variable (h : f.WellFormed)
include h

theorem under_of_child (hc : f.parent? c = some a) (hx : f.Within x c) :
    f.Under k a x ↔ f.kind a = k ∨ f.Under k c x := by
  constructor
  · rintro ⟨y, hxy, hya, hy⟩
    rcases Relation.ReflTransGen.cases_tail hya with rfl | ⟨d, hyd, hd⟩
    · exact .inl hy
    · have hcd : c = d := by
        by_contra hne
        exact h.not_within_siblings hc hd hne hx (hxy.trans hyd)
      exact .inr ⟨y, hxy, hcd ▸ hyd, hy⟩
  · rintro (ha | ⟨y, hxy, hyc, hy⟩)
    · exact ⟨a, hx.trans (.of_parent hc (.refl f a)), .refl f a, ha⟩
    · exact ⟨y, hxy, hyc.trans (.of_parent hc (.refl f a)), hy⟩

theorem under_self : f.Under k a a ↔ f.kind a = k := by
  constructor
  · rintro ⟨y, hay, hya, hy⟩
    rcases Relation.ReflTransGen.cases_tail hya with rfl | ⟨d, hyd, hd⟩
    · exact hy
    · exact absurd (hay.trans hyd) (h.not_within_of_parent hd)
  · exact fun ha => ⟨a, .refl f a, .refl f a, ha⟩

/-- A literal of a tree stands at its root or in the tree of a child. -/
theorem exists_literalAt_iff : (∃ x, f.LiteralAt a x literal ∧ ¬ f.Under k a x) ↔
    f.kind a ≠ k ∧ (f.kind a = .stringLiteral ∧ f.text a = literal ∨
      ∃ c ∈ f.children a, ∃ x, f.LiteralAt c x literal ∧ ¬ f.Under k c x) := by
  constructor
  · rintro ⟨x, hx, hout⟩
    rcases Relation.ReflTransGen.cases_tail hx.within with rfl | ⟨c, hxc, hc⟩
    · rw [under_self h] at hout
      exact ⟨hout, .inl ⟨hx.kind, hx.text⟩⟩
    · rw [under_of_child h hc hxc, not_or] at hout
      exact ⟨hout.1, .inr ⟨c, h.mem_children.mpr hc, x, ⟨hxc, hx.kind, hx.text⟩, hout.2⟩⟩
  · rintro ⟨hk, ⟨hkind, htext⟩ | ⟨c, hc, x, hx, hout⟩⟩
    · exact ⟨a, ⟨.refl f a, hkind, htext⟩, (under_self h).not.mpr hk⟩
    · have hca := h.mem_children.mp hc
      refine ⟨x, ⟨hx.within.trans (.of_parent hca (.refl f a)), hx.kind, hx.text⟩, ?_⟩
      rw [under_of_child h hca hx.within, not_or]
      exact ⟨hk, hout⟩

end Trees

end Forest

/-! ### Literals of trees -/

theorem mem_literalsOfAll {literal : String} {ts : List (Tree Label)} :
    literal ∈ literalsOfAll ts ↔ ∃ t ∈ ts, literal ∈ literalsOf t := by
  induction ts with
  | nil => simp [literalsOfAll]
  | cons t ts ih => simp [literalsOfAll, ih]

theorem mem_literalsOf_node {literal : String} {l : Label} {ts : List (Tree Label)} :
    literal ∈ literalsOf (.node l ts) ↔ l.kind ≠ .elementOptions ∧
      (l.kind = .stringLiteral ∧ l.text = literal ∨ ∃ t ∈ ts, literal ∈ literalsOf t) := by
  rw [literalsOf, ← mem_literalsOfAll]
  by_cases hoptions : l.kind = .elementOptions
  · simp [hoptions]
  · by_cases hliteral : l.kind = .stringLiteral
    · simp [hliteral, eq_comm]
    · simp [hoptions, hliteral]

namespace Forest

variable {f : Forest} {r : Nat} {literal : String}

/-- The literals of a tree are those that stand outside the options of elements. -/
theorem mem_literalsOf_labelTree (h : f.WellFormed) (hr : r < f.size) :
    literal ∈ literalsOf (f.labelTree r) ↔
      ∃ x, f.LiteralAt r x literal ∧ ¬ f.Under .elementOptions r x := by
  refine h.induction_down (P := fun r => literal ∈ literalsOf (f.labelTree r) ↔
    ∃ x, f.LiteralAt r x literal ∧ ¬ f.Under .elementOptions r x) (fun a ha ih => ?_) hr
  rw [labelTree_eq h ha, mem_literalsOf_node, exists_literalAt_iff h]
  refine and_congr_right fun _ => or_congr_right ?_
  constructor
  · rintro ⟨t, ht, hliteral⟩
    obtain ⟨c, hc, rfl⟩ := List.mem_map.mp ht
    exact ⟨c, hc, (ih c hc).mp hliteral⟩
  · rintro ⟨c, hc, hx⟩
    exact ⟨f.labelTree c, List.mem_map_of_mem hc, (ih c hc).mpr hx⟩

theorem mem_stringLiterals {own : Grammar} (h : f.WellFormed) :
    literal ∈ own.stringLiterals f ↔
      ∃ r ∈ own.rules f, ∃ x, f.LiteralAt r x literal ∧ ¬ f.Under .elementOptions r x := by
  rw [Grammar.stringLiterals, List.mem_eraseDups, List.mem_flatMap]
  refine exists_congr fun r => and_congr_right fun hr => ?_
  obtain ⟨x, -, hrx, -⟩ := LexerExtraction.mem_rules h hr
  exact mem_literalsOf_labelTree h (lt_size_of_parent?_eq hrx)

end Forest

namespace LexerExtraction

open Forest

variable {f g : Forest} {own : Grammar} {rules lexer lexerRules r : Nat} {made : List NodeId}
  {ns : List Nat} {literal : String}

/-- One of the nodes `made` is a rule for the literal that is named by a number. -/
def MadeFor (g : Forest) (made : List NodeId) (literal : String) : Prop :=
  ∃ r ∈ made, ∃ n, g.bareTree r = literalRule (literalRuleName n) literal

/-- In a rule of the grammar, the literal stands below no options of an element. -/
def IsReferenced (g : Forest) (own : Grammar) (literal : String) : Prop :=
  ∃ r ∈ own.rules g, ∃ x, g.LiteralAt r x literal ∧ ¬ g.Under .elementOptions r x

/-- In a rule of the grammar, the literal stands below no options at all. -/
def IsUsed (g : Forest) (own : Grammar) (literal : String) : Prop :=
  ∃ r ∈ own.rules g, ∃ x, g.LiteralAt r x literal ∧ ¬ g.Under .elementOptions r x ∧
    ¬ g.Under .options r x

/-- The rules of the lexer in `g` and the literals that they are for. Of the rules that `f` has, the
grammar keeps all but the token rules of its section `rules`. -/
structure References (f g : Forest) (own : Grammar) (rules lexer lexerRules : NodeId)
    (made : List NodeId) : Prop where
  own_rules : own.rules g = (own.rules f).filter (· ∉ tokenRules f rules)
  lexer_sections : g.sections lexer = [lexerRules]
  lexer_rules : g.children lexerRules = made ++ tokenRules f rules
  made_eq : ∀ r ∈ made, ∃ n literal, g.bareTree r = literalRule (literalRuleName n) literal
  madeFor_iff : ∀ literal, MadeFor g made literal ↔
    IsReferenced g own literal ∧ ∀ r ∈ tokenRules f rules, isAlias literal (f.bareTree r) = false
  /-- Where a literal is no value of an option of a rule or a block, it is used. -/
  isUsed : ∀ literal, MadeFor g made literal →
    (∀ r ∈ own.rules g, ∀ x, g.LiteralAt r x literal → ¬ g.Under .options r x) →
      IsUsed g own literal

theorem literal_of_literalRule {name name' literal literal' : String}
    (h : literalRule name literal = literalRule name' literal') : literal = literal' := by
  simp only [literalRule, Tree.leaf, Label.make, Tree.node.injEq, List.cons.injEq] at h
  simp_all

theorem Promoted.madeFor_iff_mem (h : Promoted f g own rules lexer lexerRules made ns) :
    MadeFor g made literal ↔ literal ∈ promoted own (tokenRules f rules) g := by
  constructor
  · rintro ⟨r, hr, n, hn⟩
    have hmem : g.bareTree r ∈ made.map g.bareTree := List.mem_map_of_mem hr
    rw [h.literals, hn] at hmem
    obtain ⟨i, hi, hget⟩ := List.mem_iff_getElem.mp hmem
    rw [List.getElem_zipWith] at hget
    rw [← literal_of_literalRule hget]
    exact List.getElem_mem _
  · intro hmem
    obtain ⟨i, hi, rfl⟩ := List.mem_iff_getElem.mp hmem
    have hns : i < ns.length := h.length ▸ hi
    have hrule : literalRule (literalRuleName ns[i]) (promoted own (tokenRules f rules) g)[i] ∈
        made.map g.bareTree := by
      rw [h.literals, List.mem_iff_getElem]
      exact ⟨i, by rw [List.length_zipWith]; omega, List.getElem_zipWith⟩
    obtain ⟨r, hr, htree⟩ := List.mem_map.mp hrule
    exact ⟨r, hr, ns[i], htree⟩

theorem Promoted.references (hf : f.WellFormed) (hg : g.WellFormed)
    (hp : f.parent? rules = some own.root) (hkind : f.kind rules = .rules)
    (h : Promoted f g own rules lexer lexerRules made ns) :
    References f g own rules lexer lexerRules made := by
  have hmade : ∀ literal, MadeFor g made literal ↔ IsReferenced g own literal ∧
      ∀ r ∈ tokenRules f rules, isAlias literal (f.bareTree r) = false := by
    intro literal
    rw [h.madeFor_iff_mem, promoted, List.mem_filter, mem_stringLiterals hg, List.all_eq_true]
    refine and_congr_right fun _ => forall₂_congr fun r hr => ?_
    rw [h.trees r (mem_rules_of_mem_tokenRules hf hp hkind hr), Bool.not_eq_true']
  refine ⟨h.own_rules, h.lexer_sections, h.lexer_rules, fun r hr => ?_, hmade,
    fun literal hliteral hvalues => ?_⟩
  · have hmem : g.bareTree r ∈ made.map g.bareTree := List.mem_map_of_mem hr
    rw [h.literals] at hmem
    obtain ⟨i, hi, hget⟩ := List.mem_iff_getElem.mp hmem
    rw [List.getElem_zipWith] at hget
    exact ⟨_, _, hget.symm⟩
  · obtain ⟨r, hr, x, hx, hout⟩ := ((hmade literal).mp hliteral).1
    exact ⟨r, hr, x, hx, hout, hvalues r hr x hx⟩

/-- Whether the literal stands in rules of the grammar below sections for options only. -/
def onlyUnderOptions (g : Forest) (own : Grammar) (literal : String) : Bool :=
  (own.rules g).all fun r => (g.preorder r).all fun x =>
    g.kind x ≠ .stringLiteral || g.text x ≠ literal ||
      (g.lineage x).any fun y => g.isWithin y r && g.kind y = .options

theorem not_isUsed_of_onlyUnderOptions (hg : g.WellFormed)
    (h : onlyUnderOptions g own literal = true) : ¬ IsUsed g own literal := by
  rintro ⟨r, hr, x, hx, -, hout⟩
  obtain ⟨y, -, hry, -⟩ := mem_rules hg hr
  have hlt := lt_size_of_parent?_eq hry
  have hmem : x ∈ g.preorder r := (mem_preorder hg hlt).mpr hx.within
  have hvalue := List.all_eq_true.mp (List.all_eq_true.mp h r hr) x hmem
  simp only [hx.kind, hx.text, ne_eq, not_true_eq_false, decide_false, Bool.false_or] at hvalue
  obtain ⟨z, hz, hzr⟩ := List.any_eq_true.mp hvalue
  have hxlt := hx.within.lt_size hlt
  have hxz := (hg.mem_lineage hxlt).mp hz
  rw [Bool.and_eq_true, hg.isWithin_iff (hg.within_lt_size hxz hxlt), decide_eq_true_eq] at hzr
  exact hout ⟨z, hxz, hzr.1, hzr.2⟩

end LexerExtraction

namespace GrammarSet

open LexerExtraction

variable {s : GrammarSet} {id : GrammarId}

/-- Splitting the lexer off a grammar makes rules for exactly the literals that stand in the
remaining rules outside the options of elements, but for those that a token rule matches alone. A
grammar without a rule section stays as it is. -/
theorem extractLexer_references (hf : s.forest.WellFormed)
    (hroot : s.forest.parent? (s.grammar id).root = none) :
    ∃ t lexer, s.extractLexer id = .ok (t, lexer) ∧
      (s.forest.firstChildOfKind? (s.grammar id).root .rules = none → t = s ∧ lexer = none) ∧
      ∀ rules, s.forest.firstChildOfKind? (s.grammar id).root .rules = some rules →
        ∃ l lexerRules made,
          lexer = (if made ++ tokenRules s.forest rules = [] then none else some l) ∧
          References s.forest t.forest (s.grammar id) rules l.root lexerRules made := by
  cases hrules : s.forest.firstChildOfKind? (s.grammar id).root .rules with
  | none =>
    refine ⟨s, none, ?_, fun _ => ⟨rfl, rfl⟩, by simp⟩
    rw [extractLexer]
    simp only [hrules]
  | some rules =>
    obtain ⟨hp, hkind⟩ := Forest.of_firstChildOfKind? hf hrules
    obtain ⟨g, own, lexer, lexerRules, made, ns, hsplit, hwf, hpromoted⟩ :=
      split_promoted hf hroot hp hkind
    have howned := Forest.reowned_setOwnerBelow hwf lexer.root id
    have hreferences := (hpromoted _ howned).references hf howned.wellFormed hp hkind
    refine ⟨_, _, extractLexer_of_split hrules hsplit hwf, by simp, ?_⟩
    rintro _ ⟨⟩
    refine ⟨lexer, lexerRules, made, ?_, hreferences⟩
    rw [← howned.children, hreferences.lexer_rules]

/-- A combined grammar alone. -/
def combined (t : Tree Label) : GrammarSet :=
  ⟨(Forest.empty.plant t).1, #[⟨"T", "T.g4", .combined, 0, .empty, [], 0⟩]⟩

theorem wellFormed_combined (t : Tree Label) : (combined t).forest.WellFormed :=
  Forest.wellFormed_plant_empty t

/-- A combined grammar whose rule `s` has an option with the given value and matches `'x'`, an
element with an option of its own. -/
def optionsTree (value : Tree Label) : Tree Label :=
  .node (.make .grammar "COMBINED_GRAMMAR")
    [.leaf (.make .id "T"),
     .node (.ofKind .rules)
       [.node (.ofKind .rule)
         [.leaf (.make .ruleRef "s"),
          .node (.ofKind .options) [.node (.ofKind .assign) [.leaf (.make .id "k"), value]],
          .node (.ofKind .block)
            [.node (.ofKind .alt)
              [.node (.make .stringLiteral "'x'")
                [.node (.ofKind .elementOptions)
                  [.node (.ofKind .assign)
                    [.leaf (.make .id "fail"), .leaf (.make .stringLiteral "'e'")]]],
               .leaf (.make .tokenRef "A")]]],
        literalRule "A" "'a'"]]

def withOption (value : Tree Label) : GrammarSet := combined (optionsTree value)

theorem extractLexer_references_withOption :
    ∃ t l lexerRules made, (withOption (.leaf (.make .id "v"))).extractLexer 0 = .ok (t, some l) ∧
      References (withOption (.leaf (.make .id "v"))).forest t.forest
        ((withOption (.leaf (.make .id "v"))).grammar 0) 2 l.root lexerRules made := by
  obtain ⟨t, lexer, hok, -, hlexer⟩ :=
    @extractLexer_references (withOption (.leaf (.make .id "v"))) 0
      (wellFormed_combined _) (by decide +kernel)
  obtain ⟨l, lexerRules, made, rfl, hreferences⟩ := hlexer 2 (by decide +kernel)
  have htokens : tokenRules (withOption (.leaf (.make .id "v"))).forest 2 ≠ [] := by
    decide +kernel
  refine ⟨t, l, lexerRules, made, ?_, hreferences⟩
  rwa [if_neg (List.append_ne_nil_of_right_ne_nil made htokens)] at hok

/-- The value of an option of a rule becomes a token, although no rule uses it. -/
theorem extractLexer_promotes_optionValue :
    ∃ t l, (withOption (.leaf (.make .stringLiteral "'v'"))).extractLexer 0 = .ok (t, some l) ∧
      (∃ r ∈ (t.forest.sections l.root).flatMap t.forest.children,
        t.forest.sectionName r = "T__0" ∧ aliasOf? t.forest r = some "'v'") ∧
      ¬ IsUsed t.forest ((withOption (.leaf (.make .stringLiteral "'v'"))).grammar 0) "'v'" := by
  have heval : ((withOption (.leaf (.make .stringLiteral "'v'"))).extractLexer 0).map
      (fun r => (r.2.map fun l =>
          ((r.1.forest.sections l.root).flatMap r.1.forest.children).any fun x =>
            r.1.forest.sectionName x = "T__0" ∧ aliasOf? r.1.forest x = some "'v'",
        onlyUnderOptions r.1.forest
          ((withOption (.leaf (.make .stringLiteral "'v'"))).grammar 0) "'v'")) =
      .ok (some true, true) := by
    decide +kernel
  cases hok : (withOption (.leaf (.make .stringLiteral "'v'"))).extractLexer 0 with
  | error fault =>
    rw [hok] at heval
    simp [Except.map] at heval
  | ok result =>
    obtain ⟨t, lexer⟩ := result
    have hextracted := extractLexer_extracted (wellFormed_combined _) hok
    rw [hok] at heval
    obtain ⟨hrule, hvalues⟩ := Prod.mk.inj (Except.ok.inj heval)
    obtain ⟨l, rfl, hrule⟩ := Option.map_eq_some_iff.mp hrule
    obtain ⟨r, hr, hname⟩ := List.any_eq_true.mp hrule
    exact ⟨t, l, rfl, ⟨r, hr, by simpa using hname⟩,
      not_isUsed_of_onlyUnderOptions hextracted.wellFormed hvalues⟩

end GrammarSet

end GrammarTrees
