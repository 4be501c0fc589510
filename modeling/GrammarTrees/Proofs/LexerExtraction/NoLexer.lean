import GrammarTrees.Proofs.LexerExtraction.Splitting

/-! Splitting the lexer off a combined grammar that turns out to have none. The named actions of the
lexer are deleted from the tree of the grammar before it is known whether there is a rule for a
lexer, and nothing puts them back. All else in the tree is as it was. -/

namespace GrammarTrees

namespace LexerExtraction

open Forest

variable {f g : Forest} {root rules lexer lexerRules x : Nat}

/-- `g` is `f` with a tree at `root` that has lost the named actions of the lexer and nothing
else. -/
structure Stripped (f g : Forest) (root : NodeId) : Prop where
  wellFormed : g.WellFormed
  label : ∀ x < f.size, g.label x = f.label x
  children : ∀ x < f.size, x ≠ root → g.children x = f.children x
  children_root : g.children root = (f.children root).filter (· ∉ lexerActions f root)
  parent? : ∀ x < f.size, g.parent? x = if x ∈ lexerActions f root then none else f.parent? x

/-- Without rules for the lexer, no old node is in its tree. -/
theorem Halved.not_within_lexer (hf : f.WellFormed) (hg : Halved f g root rules lexer lexerRules)
    (hnone : tokenRules f rules = []) (hx : x < f.size) : ¬ g.Within x lexer := by
  intro hw
  induction hw using Relation.ReflTransGen.head_induction_on with
  | refl => exact absurd hx (Nat.not_lt.mpr hg.new)
  | @head x p hxp _ ih =>
    have hpar : g.parent? x = some p := hxp
    rw [hg.parent? x hx, hnone, if_neg List.not_mem_nil] at hpar
    split at hpar
    · simp at hpar
    · exact ih (hf.lt_size_of_parent hpar)

theorem Halved.tokenRules_eq_nil (hf : f.WellFormed)
    (hg : Halved f g root rules lexer lexerRules) (hempty : g.children lexerRules = []) :
    tokenRules f rules = [] := by
  rw [List.eq_nil_iff_forall_not_mem]
  intro r hr
  have hmoved : g.parent? r = some lexerRules := by
    rw [hg.parent? r (lt_size_of_parent?_eq (mem_tokenRules hf hr).1), if_pos hr]
  rw [← hg.wellFormed.mem_children, hempty] at hmoved
  exact List.not_mem_nil hmoved

/-- If the rule section of the lexer stays empty, then giving the lexer to the grammar leaves the
old nodes alone, and the deleted actions are all that is missing. -/
theorem Halved.stripped (hf : f.WellFormed) (hp : f.parent? rules = some root)
    (hg : Halved f g root rules lexer lexerRules) (hempty : g.children lexerRules = [])
    (owner : GrammarId) : Stripped f (g.setOwnerBelow lexer owner) root := by
  have hnone := hg.tokenRules_eq_nil hf hempty
  have howned := reowned_setOwnerBelow hg.wellFormed lexer owner
  refine ⟨howned.wellFormed, fun x hx => ?_, fun x hx hne => ?_, ?_, fun x hx => ?_⟩
  · have hout : x ∉ g.preorder lexer := fun hmem =>
      hg.not_within_lexer hf hnone hx (within_of_mem_preorder hg.wellFormed hmem)
    rw [← hg.label x hx, Forest.label, node_setOwnerBelow_of_not_mem hout, ← Forest.label]
  · rw [howned.children]
    by_cases hrules : x = rules
    · subst hrules
      rw [hg.children_rules, hnone]
      simp
    · exact hg.children x hx hne hrules
  · rw [howned.children, hg.children_root]
  · rw [howned.parent?, hg.parent? x hx, hnone, if_neg List.not_mem_nil]

/-- The tree is what it was exactly if no named action was the lexer's. -/
theorem Stripped.node_eq_iff (hf : f.WellFormed) (hr : root < f.size) (hg : Stripped f g root) :
    (∀ x, f.Within x root → g.node x = f.node x) ↔ lexerActions f root = [] := by
  constructor
  · intro hsame
    have hroot : g.children root = f.children root :=
      congrArg Node.children (hsame root (.refl f root))
    rw [hg.children_root, List.filter_eq_self] at hroot
    rw [List.eq_nil_iff_forall_not_mem]
    intro a ha
    have hkept := hroot a (hf.mem_children.mpr (mem_lexerActions hf ha).1)
    rw [decide_eq_true_eq] at hkept
    exact hkept ha
  · intro hnone x hx
    have hchildren : ∀ y < f.size, g.children y = f.children y := by
      intro y hy
      by_cases hroot : y = root
      · subst hroot
        rw [hg.children_root, hnone]
        simp
      · exact hg.children y hy hroot
    have hlt := hx.lt_size hr
    refine hf.node_eq hg.wellFormed (hg.label x hlt) (hchildren x hlt) ?_
      fun p hp => hchildren p (hf.lt_size_of_parent hp)
    rw [hg.parent? x hlt, hnone, if_neg List.not_mem_nil]

end LexerExtraction

namespace GrammarSet

open LexerExtraction

variable {s : GrammarSet} {id : GrammarId}

/-- Where there is no lexer, the tree of the grammar has lost at most the named actions of the
lexer. It is what it was, node by node, exactly if it had no rule section or no such actions. -/
theorem extractLexer_stripped (hf : s.forest.WellFormed) :
    ∃ t lexer, s.extractLexer id = .ok (t, lexer) ∧ (lexer = none →
      (s.forest.firstChildOfKind? (s.grammar id).root .rules = none ∧ t = s ∨
        Stripped s.forest t.forest (s.grammar id).root) ∧
      ((∀ x, s.forest.Within x (s.grammar id).root → t.forest.node x = s.forest.node x) ↔
        s.forest.firstChildOfKind? (s.grammar id).root .rules = none ∨
          lexerActions s.forest (s.grammar id).root = [])) := by
  cases hrules : s.forest.firstChildOfKind? (s.grammar id).root .rules with
  | none =>
    refine ⟨s, none, ?_, fun _ => ⟨.inl ⟨rfl, rfl⟩, fun _ => .inl rfl, fun _ _ _ => rfl⟩⟩
    rw [extractLexer]
    simp only [hrules]
  | some rules =>
    obtain ⟨hp, -⟩ := Forest.of_firstChildOfKind? hf hrules
    obtain ⟨g, count, lexer, lexerRules, hsplit, hhalved⟩ := split_halved hf hp
    refine ⟨_, _, extractLexer_of_split hrules hsplit hhalved.wellFormed, fun hnone => ?_⟩
    have hempty : g.children lexerRules = [] := by
      by_contra hne
      rw [if_neg hne] at hnone
      simp at hnone
    have hstripped := hhalved.stripped hf hp hempty id
    refine ⟨.inr hstripped, ?_⟩
    rw [hstripped.node_eq_iff hf (hf.lt_size_of_parent hp)]
    simp

/-- A combined grammar with one parser rule and a header, which belongs to the given scope. -/
def parserTree (scope : List (Tree Label)) : Tree Label :=
  .node (.make .grammar "COMBINED_GRAMMAR")
    [.leaf (.make .id "T"),
     .node (.ofKind .namedAction)
       (scope ++ [.leaf (.make .id "header"), .leaf (.make .action "{h}")]),
     .node (.ofKind .rules)
       [.node (.ofKind .rule)
         [.leaf (.make .ruleRef "s"),
          .node (.ofKind .block) [.node (.ofKind .alt) [.leaf (.make .tokenRef "ID")]]]]]

def parserWithHeader (scope : List (Tree Label)) : GrammarSet :=
  ⟨(Forest.empty.plant (parserTree scope)).1, #[⟨"T", "T.g4", .combined, 0, .empty, [], 0⟩]⟩

/-- A header of the parser stays where it is. -/
theorem extractLexer_stripped_parserHeader :
    ∃ t, (parserWithHeader []).extractLexer 0 = .ok (t, none) ∧
      ∀ x, (parserWithHeader []).forest.Within x 0 →
        t.forest.node x = (parserWithHeader []).forest.node x := by
  have hplanted := Forest.planted_plant Forest.WellFormed.empty (parserTree [])
  obtain ⟨t, lexer, hok, hnone⟩ :=
    @extractLexer_stripped (parserWithHeader []) 0 hplanted.wellFormed
  have heval : ((parserWithHeader []).extractLexer 0).map (fun r => r.2.isNone) = .ok true := by
    decide +kernel
  rw [hok] at heval
  obtain rfl := Option.isNone_iff_eq_none.mp (Except.ok.inj heval)
  exact ⟨t, hok, (hnone rfl).2.mpr (.inr (by decide +kernel))⟩

/-- A header of the lexer is lost, although there is no lexer that it went to. -/
theorem extractLexer_loses_lexerHeader :
    ∃ t, (parserWithHeader [.leaf (.make .id "lexer")]).extractLexer 0 = .ok (t, none) ∧
      ¬ ∀ x, (parserWithHeader [.leaf (.make .id "lexer")]).forest.Within x 0 →
        t.forest.node x = (parserWithHeader [.leaf (.make .id "lexer")]).forest.node x := by
  have heval : ((parserWithHeader [.leaf (.make .id "lexer")]).extractLexer 0).map
      (fun r => (r.1.forest.children 0, r.2.isNone)) = .ok ([1, 6], true) := by
    decide +kernel
  cases hok : (parserWithHeader [.leaf (.make .id "lexer")]).extractLexer 0 with
  | error fault =>
    rw [hok] at heval
    simp [Except.map] at heval
  | ok result =>
    obtain ⟨t, lexer⟩ := result
    rw [hok] at heval
    obtain ⟨hchildren, hlexer⟩ := Prod.mk.inj (Except.ok.inj heval)
    obtain rfl := Option.isNone_iff_eq_none.mp hlexer
    refine ⟨t, rfl, fun hsame => ?_⟩
    have hroot := congrArg Node.children (hsame 0 (.refl _ 0))
    rw [← Forest.children, ← Forest.children, hchildren] at hroot
    exact absurd hroot (by decide +kernel)

end GrammarSet

end GrammarTrees
