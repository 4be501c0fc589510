import GrammarTrees.Proofs.LexerExtraction.CopiedNodes
import GrammarTrees.Proofs.LexerExtraction.References

/-! The options of a lexer that is split off. They are read from its tree when it is registered, and
they are those that have been collected while they were copied. Among the options of the grammar
they are the ones that are copied, in their order and with their values. -/

namespace GrammarTrees

namespace LexerExtraction

open Forest

variable {f : Forest} {root : Nat} {l : Label} {rules : Tree Label}

theorem filterMap_treeOption? (p : String → Bool) (ts : List (Tree Label)) :
    (ts.filter fun t => p (treeName t)).filterMap treeOption? =
      (ts.filterMap treeOption?).filter fun e => p e.1 := by
  induction ts with
  | nil => rfl
  | cons t ts ih =>
    cases ht : treeOption? t with
    | none => by_cases hp : p (treeName t) = true <;> simp [hp, ht, ih]
    | some e =>
      have hname : treeName t = e.1 := treeName_eq_of_treeOption? ht
      by_cases hp : p e.1 = true <;> simp [hname, hp, ht, ih]

/-- The section of options is the only one in the tree of a lexer. -/
theorem find?_lexerTrees (hf : f.WellFormed) (root : NodeId) (hrules : rules.label.kind = .rules) :
    ((lexerTrees f root).map (Tree.map Label.unowned) ++ [rules]).find?
        (fun t => t.label.kind = .options) =
      ((copiedSection f root).map (Tree.map Label.unowned)).head? := by
  have hactions : (((f.childrenOfKind root .namedAction).map f.labelTree).map
      (Tree.map Label.unowned)).find? (fun t => t.label.kind = .options) = none := by
    rw [List.map_map, List.find?_eq_none]
    intro t ht
    obtain ⟨a, ha, rfl⟩ := List.mem_map.mp ht
    have hkind : (f.bareTree a).label.kind = .namedAction :=
      (kind_bareTree f a).trans ((mem_childrenOfKind hf).mp ha).2
    rw [Function.comp_apply, ← bareTree, hkind]
    decide
  have hsections : ((copiedSection f root).map (Tree.map Label.unowned)).find?
      (fun t => t.label.kind = .options) =
        ((copiedSection f root).map (Tree.map Label.unowned)).head? := by
    rw [← List.head?_filter, List.filter_eq_self.mpr]
    intro t ht
    obtain ⟨u, hu, rfl⟩ := List.mem_map.mp ht
    rw [Tree.label_map, decide_eq_true_eq]
    exact kind_of_mem_copiedSection hf hu
  have hname : ∀ name, ((Tree.leaf (.make .id name)).map Label.unowned).label.kind = .id :=
    fun _ => rfl
  rw [lexerTrees, List.map_cons, List.cons_append, List.find?_cons_of_neg (by rw [hname]; decide),
    List.find?_append, List.map_append, List.find?_append, hactions, hsections, Option.or_none,
    List.find?_singleton, hrules]
  exact Option.or_none

theorem treeOptions_lexerTrees (hf : f.WellFormed) (root : NodeId) (l : Label)
    (hrules : rules.label.kind = .rules) :
    treeOptions (.node l ((lexerTrees f root).map (Tree.map Label.unowned) ++ [rules])) =
      ((f.optionsOf root).filterKeys isCopiedOption).mapValues f.bareTree := by
  rw [treeOptions, Tree.children, find?_lexerTrees hf root hrules, copiedSection,
    OrderedMap.mapValues_filterKeys, optionsOf]
  cases hoptions : f.firstChildOfKind? root .options with
  | none => rfl
  | some options =>
    have hlt : options < f.size := lt_size_of_parent?_eq (of_firstChildOfKind? hf hoptions).1
    rw [Option.map_some, Option.getD_some, mapValues_readOptions hf hlt,
      OrderedMap.filterKeys_ofList, ← filterMap_treeOption?, bareTree_eq hf hlt, Tree.children,
      copiedOptions_bareTree hf]
    by_cases hnone : f.childCount options = 0
    · have hnil : copiedOptions f options = [] := by
        rw [copiedOptions, List.length_eq_zero_iff.mp hnone]
        rfl
      rw [hnil]
      simp only [if_pos hnone]
      rfl
    · simp only [if_neg hnone]
      rw [List.map_singleton, Tree.map_node, List.map_map]
      rfl

end LexerExtraction

theorem ImplicitLexer.Agrees.reowned {lexer : ImplicitLexer} {f g : Forest} (h : lexer.Agrees f)
    (hg : f.Reowned g) : lexer.Agrees g := by
  refine ⟨(hg.text _).trans h.text, ?_, (hg.optionsOf _).trans h.options⟩
  rw [← h.name, Forest.sectionName, Forest.sectionName, Forest.child?, Forest.child?, hg.children,
    funext hg.text]

namespace GrammarSet

open LexerExtraction

variable {s t : GrammarSet} {id : GrammarId} {lexer : ImplicitLexer}

theorem extractLexer_agrees (hf : s.forest.WellFormed)
    (h : s.extractLexer id = .ok (t, some lexer)) : lexer.Agrees t.forest := by
  cases hrules : s.forest.firstChildOfKind? (s.grammar id).root .rules with
  | none => simp [extractLexer, hrules] at h
  | some rules =>
    obtain ⟨hp, -⟩ := Forest.of_firstChildOfKind? hf hrules
    obtain ⟨g, own, made, lexerRules, l, hsplit, hwith, hagrees⟩ := split_withRules hf hp
    have howned := Forest.reowned_setOwnerBelow hwith.wellFormed made.root id
    rw [extractLexer_of_split hrules hsplit hwith.wellFormed] at h
    obtain ⟨rfl, hlexer⟩ := Prod.mk.inj (Except.ok.inj h)
    split at hlexer
    · simp at hlexer
    · obtain rfl := Option.some.inj hlexer
      exact hagrees.reowned howned

/-- A lexer that is split off and registered is a lexer grammar with the name and the options that
it has been given. Its options are those of the grammar that are copied, and each value is a copy of
the value there. -/
theorem extractLexer_options (hf : s.forest.WellFormed)
    (h : s.extractLexer id = .ok (t, some lexer)) (file : String) :
    (t.add file lexer.root).1.grammar (t.add file lexer.root).2 =
        ⟨lexer.name, file, .lexer, lexer.root, lexer.options, [], 0⟩ ∧
      lexer.options.mapValues t.forest.bareTree =
        ((s.forest.optionsOf (s.grammar id).root).filterKeys isCopiedOption).mapValues
          s.forest.bareTree := by
  obtain ⟨htext, hname, hoptions⟩ := extractLexer_agrees hf h
  have hextracted := extractLexer_extracted hf h
  obtain ⟨hlt, l, rules, hrules, htree⟩ := hextracted.tree lexer.root rfl
  constructor
  · have hlexer : GrammarType.ofRootText? GrammarType.lexer.rootText = some .lexer := by decide
    rw [show (t.add file lexer.root).2 = t.size from rfl, grammar_add, htext, hname, hoptions,
      hlexer]
    rfl
  · rw [← hoptions, Forest.mapValues_optionsOf hextracted.wellFormed hlt, htree,
      treeOptions_lexerTrees hf _ l hrules]

/-- A grammar with an option that is given twice, one that has no value, and one that is not
copied. -/
def configuredTree : Tree Label :=
  let option (name : String) (values : List String) : Tree Label :=
    .node (.ofKind .assign)
      (.leaf (.make .id name) :: values.map fun value => .leaf (.make .id value))
  .node (.make .grammar "COMBINED_GRAMMAR")
    [.leaf (.make .id "C"),
     .node (.ofKind .options)
       [option "language" ["Go"], option "superClass" ["P"], option "accessLevel" [],
        option "exportMacro" ["M"], option "language" ["Java"]],
     .node (.ofKind .rules) [literalRule "IF" "'if'"]]

def configured : GrammarSet := combined configuredTree

theorem extractLexer_options_configured :
    configured.forest.WellFormed ∧ ∃ t lexer, configured.extractLexer 0 = .ok (t, some lexer) ∧
      (t.add "CLexer.g4" lexer.root).1.grammar (t.add "CLexer.g4" lexer.root).2 =
        ⟨lexer.name, "CLexer.g4", .lexer, lexer.root, lexer.options, [], 0⟩ ∧
      lexer.options.mapValues t.forest.bareTree =
        ((configured.forest.optionsOf (configured.grammar 0).root).filterKeys
          isCopiedOption).mapValues configured.forest.bareTree := by
  have hf : configured.forest.WellFormed := wellFormed_combined configuredTree
  have hsome : (configured.extractLexer 0).map (fun made => made.2.isSome) = .ok true := by
    decide +kernel
  cases hlexer : configured.extractLexer 0 with
  | error e => simp [hlexer, Except.map] at hsome
  | ok made =>
    obtain ⟨t, lexer⟩ := made
    cases lexer with
    | none => simp [hlexer, Except.map] at hsome
    | some lexer => exact ⟨hf, t, lexer, rfl, extractLexer_options hf hlexer "CLexer.g4"⟩

example :
    ((configured.forest.optionsOf 0).filterKeys isCopiedOption).entries.map (fun option =>
      (option.1, configured.forest.text option.2)) =
        [("language", "Java"), ("exportMacro", "M")] := by
  decide +kernel

end GrammarSet

end GrammarTrees
