import GrammarTrees.Proofs.Integration.Integrated
import GrammarTrees.Proofs.Integration.Passes

/-! Integration as a run: the grammar is made ready, and then one import after the other has its
turn. What holds once the grammar is ready and is kept by every pass holds of the result. -/

namespace GrammarTrees

namespace Integration

open Forest

variable {s : GrammarSet} {grammar : GrammarId} {T : NodeId → Prop} {root rules : Nat}
  {imports : List GrammarId} {done : List NodeId} {m : Merge}

/-- It is the turn of the import at `t`: those at `done` have been merged, and those at `rest`
follow. All of these are different trees. -/
structure Turn (T : NodeId → Prop) (root t : NodeId) (done rest : List NodeId) : Prop where
  rootTree : T root
  tree : T t
  earlier : ∀ u ∈ root :: done, T u
  new : t ∉ root :: done
  notDone : root ∉ done
  later : ∀ u ∈ rest, T u ∧ u ∉ root :: (done ++ [t])

theorem Turn.of_nodup {t : NodeId} {rest : List NodeId}
    (hT : ∀ u ∈ root :: (done ++ t :: rest), T u) (hnodup : (root :: (done ++ t :: rest)).Nodup) :
    Turn T root t done rest := by
  have hassoc : root :: (done ++ t :: rest) = root :: (done ++ [t]) ++ rest := by simp
  refine ⟨hT root List.mem_cons_self, hT t (by simp), fun u hu => hT u ?_, fun hmem => ?_,
    fun hmem => (List.nodup_cons.mp hnodup).1 (List.mem_append_left _ hmem),
    fun u hu => ⟨hT u (by simp [hu]), fun hmem => ?_⟩⟩
  · exact List.cons_append ▸ List.mem_append_left _ hu
  · rw [← List.cons_append] at hnodup
    exact (List.nodup_append.mp hnodup).2.2 t hmem t List.mem_cons_self rfl
  · rw [hassoc] at hnodup
    exact (List.nodup_append.mp hnodup).2.2 u hmem u hu rfl

/-- The pass that merges the grammar `imported`. -/
structure ImportPass (s : GrammarSet) (grammar imported : GrammarId) (T : NodeId → Prop)
    (root : NodeId) (m m' : Merge) : Prop where
  passed : ∃ g actions k,
    Passed T (s.grammar grammar).type.defaultScope (fileOf s grammar) root
        (s.grammar imported).root m m' g actions k ∧
      m'.report = m.report ++ actions.report ++ optionReport s m'.rules.forest grammar imported
  brought : Brought T root (s.grammar imported).root m.rules.forest m'.rules.forest

theorem mergeImports_run {P : List NodeId → List NodeId → Merge → Prop}
    (hroot : (s.grammar grammar).root = root)
    (hstep : ∀ done rest imported m m', Turn T root (s.grammar imported).root done rest →
      m.rules.forest.Rooted T → ImportPass s grammar imported T root m m' →
      P done ((s.grammar imported).root :: rest) m → P (done ++ [(s.grammar imported).root]) rest m')
    (hm : Ready T root rules m) (hP : P done (imports.map fun i => (s.grammar i).root) m)
    (hT : ∀ u ∈ root :: (done ++ imports.map fun i => (s.grammar i).root), T u)
    (hnodup : (root :: (done ++ imports.map fun i => (s.grammar i).root)).Nodup) :
    ∃ m', imports.foldlM (mergeImport s grammar rules) m = .ok m' ∧
      P (done ++ imports.map fun i => (s.grammar i).root) [] m' := by
  induction imports generalizing m done with
  | nil => exact ⟨m, rfl, by rwa [List.map_nil, List.append_nil]⟩
  | cons i imports ih =>
    rw [List.map_cons] at hP hT hnodup ⊢
    have hturn := Turn.of_nodup hT hnodup
    obtain ⟨k, g, actions, l, hk, hready, hpassed, hbrought, hreport⟩ :=
      mergeImport_eq_ok hm hroot rfl hturn.rootTree hturn.tree
    have hassoc : ∀ rest, done ++ (s.grammar i).root :: rest =
        done ++ [(s.grammar i).root] ++ rest := by simp
    rw [hassoc] at hT hnodup ⊢
    obtain ⟨m', hm', hfinal⟩ := ih hready (hstep done _ i m k hturn hm.rooted
      ⟨⟨g, actions, l, hpassed, hreport⟩, hbrought⟩ hP) hT hnodup
    refine ⟨m', ?_, hfinal⟩
    rw [List.foldlM_cons, hk]
    exact hm'

end Integration

namespace GrammarSet

open Integration Forest

variable {s : GrammarSet} {grammar : GrammarId}

/-- The roots of a grammar and of its imports. -/
def Involved (s : GrammarSet) (grammar : GrammarId) (t : NodeId) : Prop :=
  t ∈ (s.grammar grammar).root :: s.importRoots grammar

theorem Separate.of_involved (hs : s.Separate) (hg : grammar < s.size) {t : NodeId}
    (ht : s.Involved grammar t) :
    ∃ i < s.size, (i = grammar ∨ i ∈ s.allImports grammar) ∧ (s.grammar i).root = t := by
  rcases List.mem_cons.mp ht with rfl | ht
  · exact ⟨grammar, hg, .inl rfl, rfl⟩
  · obtain ⟨i, hi, rfl⟩ := List.mem_map.mp ht
    exact ⟨i, hs.lt_size_of_mem_allImports hg hi, .inr hi, rfl⟩

theorem Separate.rooted (hs : s.Separate) (hg : grammar < s.size) :
    s.forest.Rooted (s.Involved grammar) := by
  refine ⟨hs.wellFormed, fun t ht => ?_, fun t ht => ?_⟩
  · obtain ⟨i, hi, -, rfl⟩ := hs.of_involved hg ht
    exact hs.root_lt i hi
  · obtain ⟨i, hi, -, rfl⟩ := hs.of_involved hg ht
    exact hs.isRoot i hi

theorem Separate.nodup_involved (hs : s.Separate) (ha : s.Acyclic) (hg : grammar < s.size) :
    ((s.grammar grammar).root :: s.importRoots grammar).Nodup := by
  refine List.nodup_cons.mpr ⟨fun hmem => ?_, hs.nodup_importRoots hg⟩
  obtain ⟨i, hi, heq⟩ := List.mem_map.mp hmem
  exact hs.root_ne ha hg hi heq

/-- Integration succeeds. What holds at its start and is kept by each pass holds at its end. -/
theorem integrateImports_run (hs : s.Separate) (ha : s.Acyclic) (hg : grammar < s.size)
    {P : List NodeId → List NodeId → Merge → Prop}
    (hstart : ∀ m, m.repeated = [] → m.report = [] →
      Shifted .rules (s.grammar grammar).root (s.grammar grammar).root s.forest m.rules.forest →
      P [] (s.importRoots grammar) m)
    (hstep : ∀ done rest imported m m',
      Turn (s.Involved grammar) (s.grammar grammar).root (s.grammar imported).root done rest →
      m.rules.forest.Rooted (s.Involved grammar) →
      ImportPass s grammar imported (s.Involved grammar) (s.grammar grammar).root m m' →
      P done ((s.grammar imported).root :: rest) m →
      P (done ++ [(s.grammar imported).root]) rest m') :
    ∃ m, s.integrateImports grammar = .ok (s.withForest m.rules.forest, m.report) ∧
      P (s.importRoots grammar) [] m := by
  rw [integrateImports]
  split
  · rename_i hnone
    have hroots : s.importRoots grammar = [] := by
      rw [importRoots, List.isEmpty_iff.mp hnone]
      rfl
    have hP := hstart ⟨⟨s.forest, [], []⟩, [], []⟩ rfl rfl (.refl hs.wellFormed ..)
    rw [hroots] at hP ⊢
    exact ⟨_, rfl, hP⟩
  · obtain ⟨f, rules, hrules, hshifted, hready⟩ := start_ready (hs.rooted hg)
      (List.mem_cons_self : s.Involved grammar (s.grammar grammar).root) grammar
    obtain ⟨m, hm, hfinal⟩ := mergeImports_run rfl hstep
      (hready ((s.grammar grammar).ruleNames f)) (hstart _ rfl rfl hshifted) (fun u hu => hu)
      (hs.nodup_involved ha hg)
    refine ⟨m, ?_, hfinal⟩
    simp only [hrules, bind, Except.bind, hm]
    rfl

end GrammarSet

end GrammarTrees
