import GrammarTrees.Proofs.Grammar.Literals
import GrammarTrees.Proofs.LexerExtraction.Division

/-! Making rules for string literals. They stand in the order of the literals before all other rules
of the lexer, and their names are free. -/

namespace GrammarTrees.LexerExtraction

open Forest

variable {f g k : Forest} {lexerRules x r : Nat} {moved made : List NodeId} {taken ls : List String}
  {ns : List Nat} {m : LiteralMerge}

/-! ### Rules that match one literal -/

/-- Whether a tree is that of a token rule that matches the literal and nothing else. -/
def isAlias (literal : String) : Tree Label → Bool
  | .node _ [.node name _, .node block [.node alt [.node lit _]]] =>
    name.kind = .tokenRef && block.kind = .block && alt.kind = .alt &&
      lit.kind = .stringLiteral && lit.text = literal
  | _ => false

theorem onlyChild?_of_children {kind : Kind} {c : NodeId} (hc : f.children x = [c]) :
    onlyChild? f kind x = if f.kind c = kind then some c else none := by
  rw [onlyChild?, hc]

theorem aliasOf?_eq_some_iff (h : f.WellFormed) (hr : r < f.size) (literal : String) :
    aliasOf? f r = some literal ↔ isAlias literal (f.bareTree r) = true := by
  have hlt : ∀ {p c : NodeId}, c ∈ f.children p → c < f.size := fun hc => h.lt_size_of_child hc
  rw [bareTree_eq h hr, aliasOf?]
  rcases hc : f.children r with _ | ⟨name, _ | ⟨block, _ | ⟨c, cs⟩⟩⟩
  · simp [isAlias]
  · simp [isAlias]
  · have hname : name < f.size := hlt (hc ▸ List.mem_cons_self)
    have hblock : block < f.size := hlt (hc ▸ List.mem_cons_of_mem name List.mem_cons_self)
    rw [List.map_cons, List.map_singleton, bareTree_eq h hname, bareTree_eq h hblock]
    rcases hb : f.children block with _ | ⟨alt, _ | ⟨c, cs⟩⟩
    · simp [isAlias, onlyChild?, hb]
    · have halt : alt < f.size := hlt (hb ▸ List.mem_cons_self)
      rw [List.map_singleton, bareTree_eq h halt]
      rcases ha : f.children alt with _ | ⟨lit, _ | ⟨c, cs⟩⟩
      · have hnone : (onlyChild? f .alt block).bind (onlyChild? f .stringLiteral) = none := by
          rw [onlyChild?_of_children hb]
          split
          · simp [onlyChild?, ha]
          · rfl
        simp [isAlias, hnone]
      · have hlit : lit < f.size := hlt (ha ▸ List.mem_cons_self)
        rw [List.map_singleton, bareTree_eq h hlit]
        have hsome : (onlyChild? f .alt block).bind (onlyChild? f .stringLiteral) =
            if f.kind alt = .alt ∧ f.kind lit = .stringLiteral then some lit else none := by
          rw [onlyChild?_of_children hb]
          split
          · rename_i hk
            simp [onlyChild?_of_children ha, hk]
          · rename_i hk
            simp [hk]
        simp only [isAlias, hsome, Bool.and_eq_true, decide_eq_true_eq]
        rw [unowned_kind, unowned_kind, unowned_kind, unowned_kind, unowned_text]
        by_cases hk : f.kind alt = .alt <;> by_cases hl : f.kind lit = .stringLiteral <;>
          simp [hk, hl, and_assoc]
      · have hnone : (onlyChild? f .alt block).bind (onlyChild? f .stringLiteral) = none := by
          rw [onlyChild?_of_children hb]
          split
          · simp [onlyChild?, ha]
          · rfl
        simp [isAlias, hnone]
    · simp [isAlias, onlyChild?, hb]
  · simp [isAlias]

/-! ### New rules -/

/-- Rules with the numbers `ns` have been made for the literals `ls`, before the rules `moved` of
the section `lexerRules` of `f`. -/
structure Merged (f : Forest) (lexerRules : NodeId) (moved : List NodeId) (taken : List String)
    (made : List NodeId) (ns : List Nat) (ls : List String) (m : LiteralMerge) : Prop where
  wellFormed : m.forest.WellFormed
  size_le : f.size ≤ m.forest.size
  label : ∀ x < f.size, m.forest.label x = f.label x
  children : ∀ x < f.size, x ≠ lexerRules → m.forest.children x = f.children x
  parent? : ∀ x < f.size, m.forest.parent? x = f.parent? x
  rules : m.forest.children lexerRules = made ++ moved
  trees : made.map m.forest.labelTree =
    List.zipWith (fun n l => literalRule (literalRuleName n) l) ns ls
  new : ∀ r ∈ made, f.size ≤ r
  count : m.count = made.length
  length : ns.length = ls.length
  increasing : ns.Pairwise (· < ·)
  below : ∀ n ∈ ns, n < m.grammar.literalCount
  names : m.taken = taken ++ ns.map literalRuleName
  free : ∀ n ∈ ns, literalRuleName n ∉ taken

theorem Merged.start (hf : f.WellFormed) (hc : f.children lexerRules = moved) (own : Grammar)
    (taken : List String) : Merged f lexerRules moved taken [] [] [] ⟨f, own, taken, 0⟩ :=
  ⟨hf, Nat.le_refl _, fun _ _ => rfl, fun _ _ _ => rfl, fun _ _ => rfl, hc, rfl, by simp, rfl, rfl,
    .nil, by simp, by simp, by simp⟩

theorem insertIdx_length_append (l l' : List Nat) (a : Nat) :
    (l ++ l').insertIdx l.length a = l ++ a :: l' := by
  induction l with
  | nil => rfl
  | cons b l ih =>
    rw [List.cons_append, List.length_cons, List.insertIdx_succ_cons, ih]
    rfl

section Step

variable (hf : f.WellFormed) (hlt : lexerRules < f.size)
  (hm : Merged f lexerRules moved taken made ns ls m)
include hf hm

theorem Merged.size_le_of_mem_children {c : NodeId} (hx : f.size ≤ x)
    (hc : c ∈ m.forest.children x) : f.size ≤ c := by
  by_contra hcf
  have hcf : c < f.size := Nat.lt_of_not_le hcf
  have hp := hm.wellFormed.mem_children.mp hc
  rw [hm.parent? c hcf] at hp
  exact Nat.not_lt.mpr hx (hf.lt_size_of_parent hp)

include hlt

omit hf in
theorem Merged.attach {t : Tree Label} (hk : m.forest.Planted k r t) :
    ∃ g, k.attach lexerRules r m.count = .ok g ∧ k.Moved g lexerRules r m.count ∧
      g.children lexerRules = made ++ r :: moved := by
  have hltm := Nat.lt_of_lt_of_le hlt hm.size_le
  have hchildren : (k.children lexerRules).erase r = made ++ moved := by
    rw [hk.toGrown.children hltm, hm.rules, List.erase_of_not_mem]
    intro hmem
    rw [← hm.rules] at hmem
    exact Nat.ne_of_lt (hm.wellFormed.lt_size_of_child hmem) hk.root_eq
  have hindex : m.count ≤ ((k.children lexerRules).erase r).length := by
    rw [hchildren, hm.count, List.length_append]
    omega
  obtain ⟨g, hg, hmoved⟩ := insertChild_eq_ok hk.wellFormed
    (Nat.lt_of_lt_of_le hltm hk.size_le) hk.root_lt
    (hk.toGrown.not_within hm.wellFormed hltm (Nat.le_of_eq hk.root_eq.symm)) hindex
  refine ⟨g, (attach_of_root hk.isRoot).trans hg, hmoved, ?_⟩
  rw [hmoved.children, if_pos rfl, hchildren, hm.count, insertIdx_length_append]

theorem Merged.trees_of_moved {t : Tree Label} (hk : m.forest.Planted k r t)
    (hg : k.Moved g lexerRules r m.count) :
    made.map g.labelTree = made.map m.forest.labelTree := by
  refine List.map_congr_left fun q hq => ?_
  have hqlt : q < m.forest.size := by
    apply hm.wellFormed.lt_size_of_child
    rw [hm.rules]
    exact List.mem_append_left _ hq
  refine labelTree_congr (S := fun x => f.size ≤ x ∧ x < m.forest.size) hm.wellFormed
    hg.wellFormed (fun x hx c hc => ?_) (fun x hx => ?_) (fun x hx => ?_)
    ⟨hm.new q hq, hqlt⟩ hqlt (hg.size ▸ hk.size_le)
  · exact ⟨hm.size_le_of_mem_children hf hx.1 hc, hm.wellFormed.lt_size_of_child hc⟩
  · have hne : x ≠ lexerRules := Nat.ne_of_gt (Nat.lt_of_lt_of_le hlt hx.1)
    rw [hg.children_of_free hk.wellFormed hk.isRoot hne, hk.toGrown.children hx.2]
  · rw [hg.label, hk.toGrown.label hx.2]

omit hf in
theorem Merged.labelTree_of_moved {t : Tree Label} (hk : m.forest.Planted k r t)
    (hg : k.Moved g lexerRules r m.count) : g.labelTree r = t := by
  rw [← hk.labelTree_root]
  refine labelTree_congr (S := fun x => m.forest.size ≤ x) hk.wellFormed hg.wellFormed
    (fun x hx c hc => hk.toGrown.size_le_of_mem_children hm.wellFormed hc hx)
    (fun x hx => ?_) (fun x _ => hg.label x) (Nat.le_of_eq hk.root_eq.symm) hk.root_lt
    (Nat.le_of_eq hg.size.symm)
  have hltm := Nat.lt_of_lt_of_le hlt hm.size_le
  exact hg.children_of_free hk.wellFormed hk.isRoot (Nat.ne_of_gt (Nat.lt_of_lt_of_le hltm hx))

/-- A new rule stands after those made before, and all else stays. -/
theorem Merged.placed {n : Nat} {literal : String}
    (hk : m.forest.Planted k r (literalRule (literalRuleName n) literal))
    (hg : k.Moved g lexerRules r m.count) (hr : g.children lexerRules = made ++ r :: moved)
    (hn : m.grammar.literalCount ≤ n) (hfree : literalRuleName n ∉ m.taken) :
    Merged f lexerRules moved taken (made ++ [r]) (ns ++ [n]) (ls ++ [literal])
      ⟨g, { m.grammar with literalCount := n + 1 }, m.taken ++ [literalRuleName n],
        m.count + 1⟩ := by
  have hlow : ∀ x < f.size, x < m.forest.size := fun x hx => Nat.lt_of_lt_of_le hx hm.size_le
  have hnew : ∀ x < f.size, x ≠ r := by
    intro x hx
    rw [hk.root_eq]
    exact Nat.ne_of_lt (hlow x hx)
  refine ⟨hg.wellFormed, Nat.le_trans hm.size_le (hg.size ▸ hk.size_le), fun x hx => ?_,
    fun x hx hne => ?_, fun x hx => ?_, ?_, ?_, ?_, ?_, ?_, ?_, ?_, ?_, ?_⟩
  · rw [hg.label, hk.toGrown.label (hlow x hx), hm.label x hx]
  · rw [hg.children_of_free hk.wellFormed hk.isRoot hne, hk.toGrown.children (hlow x hx),
      hm.children x hx hne]
  · rw [hg.parent?, if_neg (hnew x hx), hk.toGrown.parent? (hlow x hx), hm.parent? x hx]
  · rw [hr, List.append_assoc]
    rfl
  · rw [List.map_append, hm.trees_of_moved hf hlt hk hg, hm.trees, List.map_singleton,
      hm.labelTree_of_moved hlt hk hg, List.zipWith_append hm.length]
    rfl
  · intro q hq
    rcases List.mem_append.mp hq with hq | hq
    · exact hm.new q hq
    · rw [List.mem_singleton.mp hq, hk.root_eq]
      exact hm.size_le
  · rw [List.length_append, hm.count]
    rfl
  · rw [List.length_append, List.length_append, hm.length]
    rfl
  · rw [List.pairwise_append]
    refine ⟨hm.increasing, List.pairwise_singleton _ n, fun a ha b hb => ?_⟩
    rw [List.mem_singleton.mp hb]
    exact Nat.lt_of_lt_of_le (hm.below a ha) hn
  · intro a ha
    rcases List.mem_append.mp ha with ha | ha
    · exact Nat.lt_succ_of_lt (Nat.lt_of_lt_of_le (hm.below a ha) hn)
    · rw [List.mem_singleton.mp ha]
      exact Nat.lt_succ_self n
  · rw [hm.names, List.map_append, List.append_assoc]
    rfl
  · intro a ha
    rcases List.mem_append.mp ha with ha | ha
    · exact hm.free a ha
    · rw [List.mem_singleton.mp ha]
      intro hmem
      apply hfree
      rw [hm.names]
      exact List.mem_append_left _ hmem

theorem Merged.add (literal : String) : ∃ m' r n, m.add lexerRules literal = .ok m' ∧
    Merged f lexerRules moved taken (made ++ [r]) (ns ++ [n]) (ls ++ [literal]) m' := by
  obtain ⟨hn, hfree⟩ := freeLiteralNumber_spec m.taken m.grammar.literalCount
  have hk := planted_plant hm.wellFormed (literalRule
    (literalRuleName (freeLiteralNumber m.taken m.grammar.literalCount)) literal)
  obtain ⟨g, hg, hmoved, hr⟩ := hm.attach hlt hk
  refine ⟨_, _, _, ?_, hm.placed hf hlt hk hmoved hr hn hfree⟩
  rw [LiteralMerge.add]
  simp only [Grammar.nextLiteralRule, hg]
  rfl

theorem Merged.addAll (literals : List String) : ∃ m' made' ns',
    literals.foldlM (LiteralMerge.add lexerRules) m = .ok m' ∧
      Merged f lexerRules moved taken made' ns' (ls ++ literals) m' := by
  induction literals generalizing made ns ls m with
  | nil => exact ⟨m, made, ns, rfl, by rwa [List.append_nil]⟩
  | cons literal literals ih =>
    obtain ⟨k, r, n, hk, hkm⟩ := hm.add hf hlt literal
    obtain ⟨m', made', ns', hm', hmerged⟩ := ih hkm
    refine ⟨m', made', ns', ?_, ?_⟩
    · rw [List.foldlM_cons, hk]
      exact hm'
    · rwa [List.append_assoc] at hmerged

end Step

/-- Making rules counts them, and changes nothing else about the grammar. -/
theorem grammar_foldlM_add {literals : List String} {m' : LiteralMerge}
    (h : literals.foldlM (LiteralMerge.add lexerRules) m = .ok m') :
    ∃ count, m'.grammar = { m.grammar with literalCount := count } := by
  induction literals generalizing m with
  | nil =>
    obtain rfl := Except.ok.inj h
    exact ⟨m.grammar.literalCount, rfl⟩
  | cons literal literals ih =>
    rw [List.foldlM_cons] at h
    cases hk : m.add lexerRules literal with
    | error e => simp [hk, bind, Except.bind] at h
    | ok k =>
      rw [hk] at h
      obtain ⟨count, hcount⟩ := ih h
      refine ⟨count, ?_⟩
      rw [LiteralMerge.add] at hk
      simp only [Grammar.nextLiteralRule, bind, Except.bind] at hk
      split at hk
      · simp at hk
      · rw [hcount, ← Except.ok.inj hk]

theorem grammar_addLiteralRules {own : Grammar}
    (h : addLiteralRules own lexerRules f = .ok m) :
    ∃ count, m.grammar = { own with literalCount := count } := grammar_foldlM_add h

/-- Rules are made for all literals that are not matched by one of the rules `moved`. -/
theorem addLiteralRules_merged (hf : f.WellFormed) (hlt : lexerRules < f.size)
    (hc : f.children lexerRules = moved) (own : Grammar) :
    ∃ m made ns, addLiteralRules own lexerRules f = .ok m ∧
      Merged f lexerRules moved (own.ruleNames f ++ moved.map f.sectionName) made ns
        ((own.stringLiterals f).filter fun l => !(moved.filterMap (aliasOf? f)).contains l) m := by
  obtain ⟨m, made, ns, hm, hmerged⟩ := (Merged.start hf hc own
    (own.ruleNames f ++ moved.map f.sectionName)).addAll hf hlt
      ((own.stringLiterals f).filter fun l => !(moved.filterMap (aliasOf? f)).contains l)
  rw [List.nil_append] at hmerged
  refine ⟨m, made, ns, ?_, hmerged⟩
  rw [LexerExtraction.addLiteralRules, hc]
  exact hm

end GrammarTrees.LexerExtraction
