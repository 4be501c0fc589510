import GrammarTrees.Proofs.Forest.Walks
import GrammarTrees.Proofs.LexerExtraction.LexerTree
import Mathlib.Data.List.Forall2

/-! Which node of a lexer is a copy of which node of the grammar. The parts that are copied stand in
both trees in the same order, so their nodes correspond one by one. -/

namespace GrammarTrees

namespace LexerExtraction

open Forest

variable {f : Forest} {root : Nat}

/-- The options and the named actions of the grammar at `root` that a lexer gets copies of. -/
def copiedParts (f : Forest) (root : NodeId) : List NodeId :=
  ((f.firstChildOfKind? root .options).map (copiedOptions f)).getD [] ++
    f.childrenOfKind root .namedAction

/-- The nodes at and below the parts that are copied. -/
def copiedNodes (f : Forest) (root : NodeId) : List NodeId :=
  (copiedParts f root).flatMap fun a => (f.tree a).preorder

/-- The same parts as trees. -/
def copiedTrees : Tree Label → List (Tree Label)
  | .node _ ts =>
    ((ts.find? fun t => t.label.kind = .options).map fun options =>
      options.children.filter fun t => isCopiedOption (treeName t)).getD [] ++
    ts.filter fun t => t.label.kind = .namedAction

theorem filter_map_bareTree (p : Tree Label → Bool) (q : NodeId → Bool) (as : List NodeId)
    (h : ∀ a ∈ as, p (f.bareTree a) = q a) :
    (as.map f.bareTree).filter p = (as.filter q).map f.bareTree := by
  rw [List.filter_map]
  congr 1
  exact List.filter_congr fun a ha => h a ha

theorem copiedOptions_bareTree (hf : f.WellFormed) (options : NodeId) :
    ((f.children options).map f.bareTree).filter (fun t => isCopiedOption (treeName t)) =
      (copiedOptions f options).map f.bareTree := by
  refine filter_map_bareTree _ _ _ fun a ha => ?_
  rw [sectionName_eq hf (hf.lt_size_of_child ha)]

theorem copiedTrees_bareTree (hf : f.WellFormed) (hr : root < f.size) :
    copiedTrees (f.bareTree root) = (copiedParts f root).map f.bareTree := by
  rw [bareTree_eq hf hr, copiedTrees, copiedParts, List.map_append]
  congr 1
  · have hfind : ((f.children root).map f.bareTree).find? (fun t => t.label.kind = .options) =
        (f.firstChildOfKind? root .options).map f.bareTree := by
      rw [List.find?_map, firstChildOfKind?]
      simp only [Function.comp_def, kind_bareTree]
    rw [hfind]
    cases hoptions : f.firstChildOfKind? root .options with
    | none => rfl
    | some options =>
      have hlt : options < f.size := lt_size_of_parent?_eq (of_firstChildOfKind? hf hoptions).1
      simp only [Option.map_some, Option.getD_some]
      rw [bareTree_eq hf hlt]
      exact copiedOptions_bareTree hf options
  · exact filter_map_bareTree _ _ _ fun a _ => by rw [kind_bareTree]

/-- All options in the section of a lexer would be copied again. -/
theorem find?_copiedSection (hf : f.WellFormed) (root : NodeId) :
    ((((copiedSection f root).map (Tree.map Label.unowned)).find? fun t =>
        t.label.kind = .options).map (fun options =>
          options.children.filter fun t => isCopiedOption (treeName t))).getD [] =
      (((f.firstChildOfKind? root .options).map (copiedOptions f)).getD []).map f.bareTree := by
  unfold copiedSection
  cases hoptions : f.firstChildOfKind? root .options with
  | none => rfl
  | some options =>
    have hkind : f.kind options = .options := (of_firstChildOfKind? hf hoptions).2
    simp only [Option.map_some, Option.getD_some]
    by_cases hnone : f.childCount options = 0
    · have hnil : copiedOptions f options = [] := by
        rw [copiedOptions, List.length_eq_zero_iff.mp hnone]
        rfl
      rw [if_pos hnone, hnil]
      rfl
    · have hall : ((copiedOptions f options).map f.bareTree).filter
          (fun t => isCopiedOption (treeName t)) = (copiedOptions f options).map f.bareTree := by
        rw [← copiedOptions_bareTree hf, List.filter_filter]
        simp only [Bool.and_self]
      have hsection : (f.label options).unowned.kind = .options := hkind
      rw [if_neg hnone, List.map_singleton, Tree.map_node, List.map_map,
        List.find?_cons_of_pos (by rw [Tree.label, hsection]; rfl)]
      exact hall

theorem copiedTrees_of_kinds {l : Label} {name rules : Tree Label}
    {sections actions : List (Tree Label)} (hname : name.label.kind = .id)
    (hsections : ∀ t ∈ sections, t.label.kind = .options)
    (hactions : ∀ t ∈ actions, t.label.kind = .namedAction) (hrules : rules.label.kind = .rules) :
    copiedTrees (.node l (name :: (sections ++ actions) ++ [rules])) =
      ((sections.find? fun t => t.label.kind = .options).map fun options =>
        options.children.filter fun t => isCopiedOption (treeName t)).getD [] ++ actions := by
  have hnone : actions.find? (fun t => t.label.kind = .options) = none := by
    rw [List.find?_eq_none]
    intro t ht
    simp [hactions t ht]
  have hnil : sections.filter (fun t => t.label.kind = .namedAction) = [] := by
    rw [List.filter_eq_nil_iff]
    intro t ht
    simp [hsections t ht]
  have hall : actions.filter (fun t => t.label.kind = .namedAction) = actions := by
    rw [List.filter_eq_self]
    intro t ht
    simp [hactions t ht]
  simp [copiedTrees, List.find?_append, hname, hrules, hnone, hnil, hall]

/-- The parts that a lexer holds copies of are those that would be copied from the lexer. -/
theorem copiedTrees_lexerTrees (hf : f.WellFormed) (root : NodeId) (l : Label) {rules : Tree Label}
    (hrules : rules.label.kind = .rules) :
    copiedTrees (.node l ((lexerTrees f root).map (Tree.map Label.unowned) ++ [rules])) =
      (copiedParts f root).map f.bareTree := by
  rw [lexerTrees, List.map_cons, List.map_append, copiedTrees_of_kinds rfl ?_ ?_ hrules,
    find?_copiedSection hf, copiedParts, List.map_append, List.map_map]
  · rfl
  · intro t ht
    obtain ⟨u, hu, rfl⟩ := List.mem_map.mp ht
    rw [Tree.label_map]
    exact kind_of_mem_copiedSection hf hu
  · intro t ht
    rw [List.map_map] at ht
    obtain ⟨a, ha, rfl⟩ := List.mem_map.mp ht
    exact (kind_bareTree f a).trans ((mem_childrenOfKind hf).mp ha).2

end LexerExtraction

namespace Forest.Extracted

open LexerExtraction

variable {f g : Forest} {root lexer : Nat}

/-- The nodes that are copied and their copies correspond one by one. A copy says what its original
says. -/
theorem copies (hf : f.WellFormed) (hg : f.Extracted g root (some lexer)) :
    List.Forall₂ (fun x y => (g.label y).unowned = (f.label x).unowned) (copiedNodes f root)
      (copiedNodes g lexer) := by
  obtain ⟨hlt, l, rules, hrules, htree⟩ := hg.tree lexer rfl
  have hparts : (copiedParts g lexer).map g.bareTree = (copiedParts f root).map f.bareTree := by
    rw [← copiedTrees_bareTree hg.wellFormed hlt, htree, copiedTrees_lexerTrees hf root l hrules]
  have hlabels : ∀ (h : Forest) (a : NodeId), (copiedNodes h a).map (fun x => (h.label x).unowned) =
      ((copiedParts h a).map h.bareTree).flatMap Tree.preorder := by
    intro h a
    rw [copiedNodes, List.map_flatMap, List.flatMap_map]
    refine List.flatMap_congr fun x _ => ?_
    rw [bareTree, labelTree, Tree.preorder_map, Tree.preorder_map, List.map_map]
    rfl
  have heq := congrArg (List.flatMap Tree.preorder) hparts
  rw [← hlabels, ← hlabels, ← List.forall₂_eq_eq_eq, List.forall₂_map_left_iff,
    List.forall₂_map_right_iff] at heq
  exact heq.flip

end Forest.Extracted

/-- The nodes that are copied are nodes of the forest. -/
theorem LexerExtraction.lt_size_of_mem_copiedNodes {f : Forest} {root x : Nat} (hf : f.WellFormed)
    (hx : x ∈ copiedNodes f root) : x < f.size := by
  obtain ⟨a, ha, hxa⟩ := List.mem_flatMap.mp hx
  have hlt : a < f.size := by
    rcases List.mem_append.mp ha with ha | ha
    · cases hoptions : f.firstChildOfKind? root .options with
      | none => simp [hoptions] at ha
      | some options =>
        rw [hoptions] at ha
        exact hf.lt_size_of_child (List.mem_of_mem_filter ha)
    · exact hf.lt_size_of_child (List.mem_of_mem_filter ha)
  exact ((Forest.mem_preorder_tree hf hlt).mp hxa).lt_size hlt

end GrammarTrees
