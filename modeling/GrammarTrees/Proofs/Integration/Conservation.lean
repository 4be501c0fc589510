import GrammarTrees.Proofs.Integration.Runs

/-! Integration conserves the nodes of all trees. What was in the tree of the grammar, or in that of
an import, is afterwards in exactly one of this tree and the tree of the grammar. Tokens are moved,
channels are copied, and no other tree changes. -/

namespace GrammarTrees

namespace Integration

open Forest

variable {f g k : Forest} {T : NodeId → Prop} {root t : Nat} {done todo rest : List NodeId}

/-- The names with those of the lists that are new, one list after the other. -/
def addNames (names : List String) (lists : List (List String)) : List String :=
  lists.foldl (fun names new => names ++ new.filter (· ∉ names)) names

theorem addNames_concat (names : List String) (lists : List (List String)) (new : List String) :
    addNames names (lists ++ [new]) =
      addNames names lists ++ new.filter (· ∉ addNames names lists) := by
  rw [addNames, List.foldl_append]
  rfl

/-- The imports at `done` have been merged into the tree of `root`, and those at `todo` follow: `f`
before, `g` now. -/
structure Conserved (T : NodeId → Prop) (root : NodeId) (f g : Forest) (done todo : List NodeId) :
    Prop where
  absorbed : Absorbed T root f g
  tokens : g.sectionItems root .tokensSpec = f.sectionItems root .tokensSpec ++
    done.flatMap fun t => f.sectionItems t .tokensSpec
  emptied : ∀ t ∈ done, g.sectionItems t .tokensSpec = [] ∧
    g.firstChildOfKind? t .tokensSpec = f.firstChildOfKind? t .tokensSpec
  waiting : Keeps .tokensSpec (· ∈ todo) f g
  channels : (∀ t ∈ done, (f.channelNames t).Nodup) →
    g.channelNames root = addNames (f.channelNames root) (done.map f.channelNames)
  otherChannels : Keeps .channels (fun t => T t ∧ t ≠ root) f g

/-- Making the rule section of the grammar changes neither tokens nor channels. -/
theorem Conserved.start (hT : f.Rooted T) (ht : T root) (hg : Shifted .rules root root f g)
    (htodo : ∀ t ∈ todo, T t) : Conserved T root f g [] todo := by
  have hf := hT.wellFormed
  have hr := hT.isRoot root ht
  have hkeeps : ∀ kind ≠ .rules, Keeps kind T f g := fun kind hkind =>
    hg.keeps hT hr hr fun _ _ => .inl hkind
  refine ⟨hg.absorbed ht ht, ?_, by simp, (hkeeps .tokensSpec (by decide)).mono htodo,
    fun _ => ?_, (hkeeps .channels (by decide)).mono fun t ht => ht.1⟩
  · rw [(hkeeps .tokensSpec (by decide)).sectionItems_eq hf ht, List.flatMap_nil, List.append_nil]
  · rw [(hkeeps .channels (by decide)).channelNames_eq hf ht]
    rfl

/-- A pass moves the tokens of one more import and copies its channels. -/
theorem Conserved.step (hT : f.Rooted T) (hg : Conserved T root f g done (t :: rest))
    (hturn : Turn T root t done rest) (hk : Brought T root t g k) :
    Conserved T root f k (done ++ [t]) rest := by
  have hf := hT.wellFormed
  have hw := hg.absorbed.wellFormed
  have hne : t ≠ root := fun he => hturn.new (he ▸ List.mem_cons_self)
  obtain ⟨htokens, hempty, hfirst⟩ := hk.tokens hne
  have hwaits : t ∈ t :: rest := List.mem_cons_self
  refine ⟨hg.absorbed.trans hf hk.absorbed, ?_, fun u hu => ?_, ?_, fun hnodup => ?_,
    hg.otherChannels.trans hf hw hk.otherChannels⟩
  · rw [htokens, hg.tokens, hg.waiting.sectionItems_eq hf hwaits]
    simp
  · rcases List.mem_append.mp hu with hdone | hlast
    · have hother : T u ∧ u ≠ root ∧ u ≠ t :=
        ⟨hturn.earlier u (List.mem_cons_of_mem root hdone), fun he => hturn.notDone (he ▸ hdone),
          fun he => hturn.new (List.mem_cons_of_mem root (he ▸ hdone))⟩
      rw [hk.otherTokens.sectionItems_eq hw hother, hk.otherTokens.firstChildOfKind?_eq hother]
      exact hg.emptied u hdone
    · rw [List.mem_singleton.mp hlast]
      exact ⟨hempty, hfirst.trans (hg.waiting.firstChildOfKind?_eq hwaits)⟩
  · refine (hg.waiting.mono fun u hu => List.mem_cons_of_mem t hu).trans hf hw
      (hk.otherTokens.mono fun u hu => ?_)
    obtain ⟨hTu, hnot⟩ := hturn.later u hu
    refine ⟨hTu, fun he => hnot (he ▸ List.mem_cons_self), fun he => hnot ?_⟩
    rw [he]
    simp
  · have hsame := hg.otherChannels.channelNames_eq hf ⟨hturn.tree, hne⟩
    rw [List.forall_mem_append] at hnodup
    rw [hk.channels (hsame ▸ hnodup.2 t (List.mem_singleton_self t)), hg.channels hnodup.1, hsame,
      List.map_append, List.map_singleton, addNames_concat]

end Integration

namespace GrammarSet

open Integration Forest

variable {s : GrammarSet} {grammar : GrammarId}

/-- What integration does to the nodes of a set of grammars: `g` is its forest afterwards. -/
structure NodesConserved (s : GrammarSet) (grammar : GrammarId) (g : Forest) : Prop where
  own : ∀ x, s.forest.Within x (s.grammar grammar).root → g.Within x (s.grammar grammar).root
  imported : ∀ i ∈ s.allImports grammar, ∀ x, s.forest.Within x (s.grammar i).root →
    Xor (g.Within x (s.grammar i).root) (g.Within x (s.grammar grammar).root)
  others : ∀ i < s.size, i ≠ grammar → i ∉ s.allImports grammar →
    ∀ x, s.forest.Within x (s.grammar i).root → g.node x = s.forest.node x
  tokens : g.sectionItems (s.grammar grammar).root .tokensSpec =
    s.forest.sectionItems (s.grammar grammar).root .tokensSpec ++
      (s.allImports grammar).flatMap fun i => s.forest.sectionItems (s.grammar i).root .tokensSpec
  noTokens : ∀ i ∈ s.allImports grammar, g.sectionItems (s.grammar i).root .tokensSpec = [] ∧
    g.firstChildOfKind? (s.grammar i).root .tokensSpec =
      s.forest.firstChildOfKind? (s.grammar i).root .tokensSpec
  channels : (∀ i ∈ s.allImports grammar, (s.forest.channelNames (s.grammar i).root).Nodup) →
    g.channelNames (s.grammar grammar).root =
      addNames (s.forest.channelNames (s.grammar grammar).root)
        ((s.allImports grammar).map fun i => s.forest.channelNames (s.grammar i).root)
  importedChannels : ∀ i ∈ s.allImports grammar,
    g.childrenOfKind (s.grammar i).root .channels =
      s.forest.childrenOfKind (s.grammar i).root .channels ∧
    ∀ c ∈ s.forest.childrenOfKind (s.grammar i).root .channels, ∀ x, s.forest.Within x c →
      g.children x = s.forest.children x ∧ g.label x = s.forest.label x
  owner : ∀ x < s.forest.size, g.owner x = s.forest.owner x

theorem Conserved.nodesConserved {g : Forest} (hs : s.Separate) (ha : s.Acyclic)
    (hg : grammar < s.size)
    (h : Conserved (s.Involved grammar) (s.grammar grammar).root s.forest g (s.importRoots grammar)
      []) : s.NodesConserved grammar g := by
  have hmem : ∀ i ∈ s.allImports grammar, (s.grammar i).root ∈ s.importRoots grammar := fun i hi =>
    List.mem_map_of_mem hi
  have hroots : ∀ i < s.size, g.parent? (s.grammar i).root = none := fun i hi =>
    h.absorbed.isRoot _ (hs.root_lt i hi) (hs.isRoot i hi)
  have hother : ∀ i ∈ s.allImports grammar, s.Involved grammar (s.grammar i).root ∧
      (s.grammar i).root ≠ (s.grammar grammar).root := fun i hi =>
    ⟨List.mem_cons_of_mem _ (hmem i hi), hs.root_ne ha hg hi⟩
  refine ⟨fun x hx => h.absorbed.within_root hx, fun i hi x hx => ?_, fun i hi hne hnot x hx => ?_,
    ?_, fun i hi => h.emptied _ (hmem i hi), fun hnodup => ?_, fun i hi => ?_, h.absorbed.owner⟩
  · have hapart : ¬ (g.Within x (s.grammar i).root ∧ g.Within x (s.grammar grammar).root) :=
      fun hboth => (hother i hi).2 (hboth.1.root_unique hboth.2
        (hroots i (hs.lt_size_of_mem_allImports hg hi)) (hroots grammar hg))
    rcases h.absorbed.within_or hx with hstay | hmove
    · exact .inl ⟨hstay, fun hmove => hapart ⟨hstay, hmove⟩⟩
    · exact .inr ⟨hmove, fun hstay => hapart ⟨hstay, hmove⟩⟩
  · refine h.absorbed.node_of_others hs.wellFormed (hx.lt_size (hs.root_lt i hi)) fun t ht hw => ?_
    obtain ⟨j, hj, hji, rfl⟩ := hs.of_involved hg ht
    obtain rfl : i = j := hs.distinct i hi j hj
      (hx.root_unique hw (hs.isRoot i hi) (hs.isRoot j hj))
    exact hji.elim hne hnot
  · rw [h.tokens, importRoots, List.flatMap_map]
  · rw [h.channels fun t ht => ?_, importRoots, List.map_map]
    · rfl
    · obtain ⟨i, hi, rfl⟩ := List.mem_map.mp ht
      exact hnodup i hi
  · exact ⟨h.otherChannels.sections _ (hother i hi), fun c hc x hx =>
      h.otherChannels.below _ c x (hother i hi) hc hx⟩

/-- Integration loses no node and shares none between trees. -/
theorem integrateImports_nodesConserved (hs : s.Separate) (ha : s.Acyclic) (hg : grammar < s.size) :
    ∃ g report, s.integrateImports grammar = .ok (s.withForest g, report) ∧
      s.NodesConserved grammar g := by
  have hT := hs.rooted hg
  have hr : s.Involved grammar (s.grammar grammar).root := List.mem_cons_self
  obtain ⟨m, hok, hconserved⟩ := integrateImports_run
    (P := fun done todo m => Conserved (s.Involved grammar) (s.grammar grammar).root s.forest
      m.rules.forest done todo) hs ha hg
    (fun m _ _ hshifted => .start hT hr hshifted fun t ht => List.mem_cons_of_mem _ ht)
    fun done rest imported m m' hturn _ hpass h => h.step hT hturn hpass.brought
  exact ⟨m.rules.forest, m.report, hok, Conserved.nodesConserved hs ha hg hconserved⟩

def sectionTree (kind : Kind) (names : List String) : Tree Label :=
  .node (.ofKind kind) (names.map fun name => .leaf (.make .id name))

/-- Two grammars with tokens and channels. -/
def twoSections : GrammarSet :=
  importing
    (grammarTree "R" [sectionTree .tokensSpec ["A"], sectionTree .channels ["X"]])
    (grammarTree "S" [sectionTree .tokensSpec ["A", "B"], sectionTree .channels ["X", "Y"]])

/-- Both tokens of the import are moved, and one of its channels is copied. -/
theorem integrateImports_twoSections :
    ∃ g report, twoSections.integrateImports 0 = .ok (twoSections.withForest g, report) ∧
      g.sectionItems 0 .tokensSpec = [3, 9, 10] ∧ g.channelNames 0 = ["X", "Y"] ∧
      Xor (g.Within 9 6) (g.Within 9 0) := by
  have hs : twoSections.Separate := importing_separate _ _
  obtain ⟨g, report, hok, h⟩ := integrateImports_nodesConserved hs (importing_acyclic _ _)
    (show 0 < twoSections.size by decide)
  have hnodup : ∀ i ∈ twoSections.allImports 0,
      (twoSections.forest.channelNames (twoSections.grammar i).root).Nodup := by
    decide +kernel
  have himport : (1 : GrammarId) ∈ twoSections.allImports 0 := by decide +kernel
  have hwithin : twoSections.forest.Within 9 6 :=
    (hs.wellFormed.isWithin_iff (by decide +kernel)).mp (by decide +kernel)
  refine ⟨g, report, hok, ?_, ?_, h.imported 1 himport 9 hwithin⟩
  · exact h.tokens.trans (by decide +kernel)
  · exact (h.channels hnodup).trans (by decide +kernel)

end GrammarSet

end GrammarTrees
