import GrammarTrees.Proofs.Integration.ActionsTaken

/-! The named actions through a whole integration. A repeated definition is reported when the tree
that it is in has its turn, if no tree before defines the same action; those of the grammar itself
are reported with the first import. -/

namespace GrammarTrees

namespace Integration

open Forest

variable {f g : Forest} {T : NodeId → Prop} {scope : String} {root t a : Nat}
  {done rest ids seen : List NodeId} {key : String × String} {actions : ActionMerge}

/-- The repeated definitions that have been reported once the trees `done` have been merged. Before
the first of them nothing is reported. -/
def toldRepeats (f : Forest) (scope : String) (root : NodeId) (done : List NodeId) : List NodeId :=
  if done = [] then [] else firstRepeats f scope [] (root :: done)

theorem toldRepeats_concat (f : Forest) (scope : String) (root : NodeId) (done : List NodeId)
    (t : NodeId) : toldRepeats f scope root (done ++ [t]) =
      toldRepeats f scope root done ++
        ((if done = [] then repeatedActions f scope root else []) ++
          newRepeats f scope (root :: done) t) := by
  have hall : firstRepeats f scope [] (root :: (done ++ [t])) =
      firstRepeats f scope [] (root :: done) ++ newRepeats f scope (root :: done) t := by
    have hlast : firstRepeats f scope (root :: done) [t] = newRepeats f scope (root :: done) t :=
      List.append_nil _
    rw [← List.cons_append, firstRepeats_append, List.nil_append, hlast]
  rw [toldRepeats, if_neg (by simp), hall, toldRepeats]
  by_cases hdone : done = []
  · subst hdone
    rw [if_pos rfl, if_pos rfl, firstRepeats, firstRepeats, newRepeats_nil, List.append_nil,
      List.nil_append]
  · rw [if_neg hdone, if_neg hdone, List.nil_append]

theorem mem_repeatedActions_of_told (ha : a ∈ toldRepeats f scope root done) :
    ∃ t ∈ root :: done, a ∈ repeatedActions f scope t := by
  rw [toldRepeats] at ha
  split at ha
  · simp at ha
  · exact List.mem_flatMap.mp ((firstRepeats_sublist f scope [] (root :: done)).subset ha)

theorem parent?_of_mem_toldRepeats (hf : f.WellFormed) (ha : a ∈ toldRepeats f scope root done) :
    ∃ u ∈ root :: done, f.parent? a = some u := by
  obtain ⟨u, hu, hau⟩ := mem_repeatedActions_of_told ha
  exact ⟨u, hu, parent?_of_mem_repeatedActions hf hau⟩

theorem isAction_of_mem_repeatedActions (hf : f.WellFormed) (ht : T t)
    (ha : a ∈ repeatedActions f scope t) : f.IsAction T a ∧ actionKey? f scope a ≠ none := by
  obtain ⟨hmem, hrepeated⟩ := List.mem_filter.mp ha
  obtain ⟨hp, hk⟩ := (mem_childrenOfKind hf).mp hmem
  exact ⟨⟨hk, t, ht, hp⟩, (of_decide_eq_true hrepeated).1⟩

theorem filter_eq_of_mem_iff {α : Type} {l : List α} {p q : α → Bool}
    (h : ∀ a ∈ l, p a = true ↔ a ∈ l.filter q) : l.filter p = l.filter q := by
  refine List.filter_congr fun a ha => Bool.eq_iff_iff.mpr ?_
  rw [h a ha, List.mem_filter, and_iff_right ha]

namespace ActionsTaken

section Name

variable (h : ActionsTaken f g T scope root done rest)
include h

/-- The report of a repeated definition does not depend on what has been merged. -/
theorem redefinitionOf_eq (hf : f.WellFormed) (ha : f.IsAction T a)
    (hkey : actionKey? f scope a ≠ none) (fileOf : Option GrammarId → String) :
    redefinitionOf g fileOf a = redefinitionOf f fileOf a := by
  obtain ⟨parts, hparts⟩ : ∃ parts, NamedAction.of? f scope a = some parts := by
    rwa [actionKey?, ne_eq, Option.map_eq_none_iff, ← ne_eq, Option.ne_none_iff_exists'] at hkey
  obtain ⟨hname, hmem⟩ := actionName_of_parts hparts
  have hlt := hf.lt_size_of_child (List.dropLast_subset _ hmem)
  have hsame : actionName g a = actionName f a := by
    rw [actionName, h.below a a ha (.refl f a), actionName]
  rw [redefinitionOf, redefinitionOf, hsame, hname, ActionMerge.redefinition,
    ActionMerge.redefinition, h.owner ha.lt_size, h.text_of_mem_dropLast hf hmem, Forest.position,
    Forest.range, h.label _ hlt, Forest.position, Forest.range]

end Name

/-! ### Late definitions -/

theorem nodup_candidates (h : ActionsTaken f g T scope root done (t :: rest))
    (hturn : Turn T root t done rest) :
    (g.childrenOfKind root .namedAction ++ g.childrenOfKind t .namedAction).Nodup := by
  have hg := h.rooted.wellFormed
  refine List.nodup_append.mpr ⟨(hg.nodup_children root).filter _, (hg.nodup_children t).filter _,
    fun a ha b hb => ?_⟩
  rintro rfl
  have hroot := ((mem_childrenOfKind hg).mp ha).1
  have hnext := ((mem_childrenOfKind hg).mp hb).1
  exact hturn.new (Option.some.inj (hroot.symm.trans hnext) ▸ List.mem_cons_self)

variable (hf : Unmixed f T) (h : ActionsTaken f g T scope root done (t :: rest))
  (hturn : Turn T root t done rest)
include hf h hturn

/-- A definition in the tree of the grammar is late if it repeats another one there. -/
theorem isLate_own (ha : a ∈ g.childrenOfKind root .namedAction) :
    IsLate g scope (g.childrenOfKind root .namedAction ++ g.childrenOfKind t .namedAction) a ↔
      a ∈ repeatedActions f scope root := by
  have hff := hf.rooted.wellFormed
  have haction : a ∈ repeatedActions f scope root → f.IsAction T a := fun hmem => by
    obtain ⟨hp, hk⟩ := (mem_childrenOfKind hff).mp (List.mem_of_mem_filter hmem)
    exact ⟨hk, root, hturn.rootTree, hp⟩
  have hnamed : a ∈ repeatedActions f scope root → actionKey? f scope a ≠ none := fun hmem =>
    (of_decide_eq_true (List.mem_filter.mp hmem).2).1
  cases hkey : actionKey? g scope a with
  | none =>
    refine iff_of_false (not_isLate_of_none hkey) fun hmem => hnamed hmem ?_
    rw [← h.key_eq hff (haction hmem), hkey]
  | some key =>
    have hown : a ∈ definitions g scope key (g.childrenOfKind root .namedAction) :=
      List.mem_filter.mpr ⟨ha, decide_eq_true hkey⟩
    obtain ⟨d, hd⟩ : ∃ d, (definitions g scope key (g.childrenOfKind root .namedAction)).head? =
        some d := by
      obtain ⟨d, ds, hd⟩ := List.exists_cons_of_ne_nil (List.ne_nil_of_mem hown)
      exact ⟨d, by rw [hd]; rfl⟩
    have hfirst := (h.own_head? key).symm.trans hd
    have howner : g.owner d = g.owner a := by
      obtain ⟨hlt, heq⟩ := h.own_owner hf hturn.rootTree hfirst a hown
      obtain ⟨hltd, -⟩ := h.own_owner hf hturn.rootTree hfirst d (List.mem_of_head? hd)
      rw [h.owner hltd, h.owner hlt, heq]
    have hlate : IsLate g scope
        (g.childrenOfKind root .namedAction ++ g.childrenOfKind t .namedAction) a ↔ d ≠ a := by
      rw [isLate_iff hkey, h.candidates hf hturn, List.head?_append, hd, Option.some_or]
      simp [howner]
    rw [hlate]
    by_cases hnone : definitions f scope key (f.childrenOfKind root .namedAction) = []
    · rw [h.ownTaken key hnone] at hd hown
      refine iff_of_false (fun hne => hne ?_) fun hmem => ?_
      · rw [Option.mem_toList] at hown
        rw [Option.mem_def.mp hown] at hd
        exact (Option.some.inj hd).symm
      · have hfkey := (h.key_eq hff (haction hmem)).symm.trans hkey
        exact List.ne_nil_of_mem (List.mem_filter.mpr
          ⟨List.mem_of_mem_filter hmem, decide_eq_true hfkey⟩) hnone
    · rw [h.ownKept key hnone] at hd hown
      rw [mem_repeatedActions hff hown, hd, Ne, Ne, Option.some.injEq]

/-- A definition in the next tree is late if it repeats another one there and no tree before
defines the same action. -/
theorem isLate_next (ha : a ∈ f.childrenOfKind t .namedAction) :
    IsLate g scope (g.childrenOfKind root .namedAction ++ g.childrenOfKind t .namedAction) a ↔
      a ∈ newRepeats f scope (root :: done) t := by
  have hff := hf.rooted.wellFormed
  obtain ⟨hp, hk⟩ := (mem_childrenOfKind hff).mp ha
  have hsame := h.key_eq hff ⟨hk, t, hturn.tree, hp⟩
  cases hkey : actionKey? f scope a with
  | none =>
    refine iff_of_false (not_isLate_of_none (hsame.trans hkey)) fun hmem => ?_
    have hrepeated := (List.mem_filter.mp (List.mem_of_mem_filter hmem)).2
    exact (of_decide_eq_true hrepeated).1 hkey
  | some key =>
    have hnext : a ∈ definitions f scope key (f.childrenOfKind t .namedAction) :=
      List.mem_filter.mpr ⟨ha, decide_eq_true hkey⟩
    rw [isLate_iff (hsame.trans hkey), h.candidates hf hturn, List.head?_append, h.own_head?,
      mem_newRepeats hkey]
    cases hdefiners : definers f scope key (root :: done) with
    | nil =>
      obtain ⟨d, ds, hd⟩ := List.exists_cons_of_ne_nil (List.ne_nil_of_mem hnext)
      have hdp := ((mem_definitions hff).mp (hd ▸ List.mem_cons_self)).1
      have howner : g.owner d = g.owner a := by
        rw [h.owner (lt_size_of_parent?_eq hdp), h.owner (lt_size_of_parent?_eq hp)]
        exact (hf.owner t t hturn.tree hturn.tree d a hdp hp).mpr rfl
      rw [mem_repeatedActions hff hnext, hd]
      simp [howner]
    | cons d ds =>
      refine iff_of_false ?_ (by simp)
      rintro ⟨first, hfirst, -, howner⟩
      rw [List.head?_cons, Option.some_or, Option.some.injEq] at hfirst
      subst hfirst
      obtain ⟨u, hu, hdp, -⟩ := mem_definers hff (hdefiners ▸ List.mem_cons_self)
      rw [h.owner (lt_size_of_parent?_eq hdp), h.owner (lt_size_of_parent?_eq hp),
        hf.owner u t (hturn.earlier u hu) hturn.tree d a hdp hp] at howner
      exact hturn.new (howner ▸ hu)

/-- The late definitions that are new in this turn. -/
theorem lateDefinitions_eq :
    (lateDefinitions g scope
        (g.childrenOfKind root .namedAction ++ g.childrenOfKind t .namedAction)).filter
      (· ∉ toldRepeats f scope root done) =
      (if done = [] then repeatedActions f scope root else []) ++
        newRepeats f scope (root :: done) t := by
  have hff := hf.rooted.wellFormed
  rw [lateDefinitions, List.filter_append, List.filter_append]
  congr 1
  · by_cases hdone : done = []
    · have hown : (g.childrenOfKind root .namedAction).filter (fun id => IsLate g scope
          (g.childrenOfKind root .namedAction ++ g.childrenOfKind t .namedAction) id) =
          repeatedActions f scope root := by
        rw [repeatedActions, ← h.begun hdone]
        refine filter_eq_of_mem_iff fun a ha => decide_eq_true_iff.trans ?_
        rw [h.isLate_own hf hturn ha, repeatedActions, h.begun hdone]
      rw [if_pos hdone, toldRepeats, if_pos hdone, hown]
      exact List.filter_eq_self.mpr fun a _ => decide_eq_true List.not_mem_nil
    · rw [if_neg hdone, List.filter_eq_nil_iff]
      intro a ha
      obtain ⟨hmem, hlate⟩ := List.mem_filter.mp ha
      have hrepeated := (h.isLate_own hf hturn hmem).mp (of_decide_eq_true hlate)
      rw [decide_eq_true_eq, not_not, toldRepeats, if_neg hdone, firstRepeats, newRepeats_nil]
      exact List.mem_append_left _ hrepeated
  · have hlate : (g.childrenOfKind t .namedAction).filter (fun id => IsLate g scope
        (g.childrenOfKind root .namedAction ++ g.childrenOfKind t .namedAction) id) =
        newRepeats f scope (root :: done) t := by
      have hnext : ∀ a ∈ f.childrenOfKind t .namedAction,
          decide (IsLate g scope (g.childrenOfKind root .namedAction ++
            g.childrenOfKind t .namedAction) a) = true ↔ a ∈ newRepeats f scope (root :: done) t :=
        fun a ha => decide_eq_true_iff.trans (h.isLate_next hf hturn ha)
      rw [h.todo t List.mem_cons_self] at hnext ⊢
      rw [newRepeats, repeatedActions, List.filter_filter] at hnext ⊢
      exact filter_eq_of_mem_iff hnext
    rw [hlate, List.filter_eq_self]
    intro a ha
    rw [decide_eq_true_eq]
    intro hseen
    have hp := parent?_of_mem_repeatedActions hff (List.mem_of_mem_filter ha)
    obtain ⟨u, hu, hau⟩ := parent?_of_mem_toldRepeats hff hseen
    exact hturn.new (Option.some.inj (hp.symm.trans hau) ▸ hu)

end ActionsTaken

/-! ### The run -/

/-- The definitions of the trees `done` have been taken, and those that repeat others reported. -/
structure ActionsRun (f : Forest) (T : NodeId → Prop) (scope : String)
    (fileOf : Option GrammarId → String) (root : NodeId) (done rest : List NodeId) (m : Merge) :
    Prop where
  taken : ActionsTaken f m.rules.forest T scope root done rest
  repeated : m.repeated = toldRepeats f scope root done
  report : m.report.filter (·.problem = .actionRedefinition) =
    (toldRepeats f scope root done).map (redefinitionOf f fileOf)
  problems : ∀ d ∈ m.report, d.problem = .actionRedefinition ∨ d.problem = .optionsInDelegate

theorem ActionsRun.step {fileOf : Option GrammarId → String} {m m' : Merge} {k : Forest}
    {extra : Report} (hf : Unmixed f T) (h : ActionsRun f T scope fileOf root done (t :: rest) m)
    (hturn : Turn T root t done rest) (hm : Passed T scope fileOf root t m m' g actions k)
    (hreport : m'.report = m.report ++ actions.report ++ extra)
    (hextra : ∀ d ∈ extra, d.problem = .optionsInDelegate) :
    ActionsRun f T scope fileOf root (done ++ [t]) rest m' := by
  have hff := hf.rooted.wellFormed
  have hrest : ∀ u ∈ rest, T u := fun u hu => (hturn.later u hu).1
  have hg := h.taken.steady hff hm.before hturn.rootTree hturn.earlier
    (List.forall_mem_cons.mpr ⟨hturn.tree, hrest⟩)
  have hearlier : ∀ u ∈ root :: (done ++ [t]), T u := by
    rw [← List.cons_append, List.forall_mem_append, List.forall_mem_singleton]
    exact ⟨hturn.earlier, hturn.tree⟩
  have hafter := (hg.merge hf hturn hm.combined hm.placed).steady hff hm.after hturn.rootTree
    hearlier hrest
  have hreported := hm.reported (hg.nodup_candidates hturn)
  have hlate := hg.lateDefinitions_eq hf hturn
  have hproblems : ∀ d ∈ actions.report, d.problem = .actionRedefinition := by
    rw [hreported.report]
    intro d hd
    obtain ⟨a, -, rfl⟩ := List.mem_map.mp hd
    rfl
  rw [h.repeated] at hreported
  refine ⟨hafter, ?_, ?_, fun d hd => ?_⟩
  · rw [hm.repeated, hreported.repeated, hlate, toldRepeats_concat]
  · have hactions : actions.report.filter (·.problem = .actionRedefinition) = actions.report :=
      List.filter_eq_self.mpr fun d hd => decide_eq_true (hproblems d hd)
    rw [toldRepeats_concat, List.map_append, hreport, List.filter_append, List.filter_append,
      h.report, hactions, List.filter_eq_nil_iff.mpr fun d hd => by simp [hextra d hd],
      List.append_nil, hreported.report, hlate]
    congr 1
    refine List.map_congr_left fun a ha => ?_
    have hrepeated : a ∈ repeatedActions f scope root ∨ a ∈ repeatedActions f scope t := by
      rcases List.mem_append.mp ha with ha | ha
      · split at ha
        · exact .inl ha
        · simp at ha
      · exact .inr (List.mem_of_mem_filter ha)
    have haction : f.IsAction T a ∧ actionKey? f scope a ≠ none := by
      rcases hrepeated with hmem | hmem
      · exact isAction_of_mem_repeatedActions hff hturn.rootTree hmem
      · exact isAction_of_mem_repeatedActions hff hturn.tree hmem
    exact hg.redefinitionOf_eq hff haction.1 haction.2 fileOf
  · rw [hreport, List.append_assoc, List.mem_append, List.mem_append] at hd
    rcases hd with hd | hd | hd
    · exact h.problems d hd
    · exact .inl (hproblems d hd)
    · exact .inr (hextra d hd)

theorem problem_of_mem_optionReport {s : GrammarSet} {grammar imported : GrammarId}
    {d : Diagnostic} (h : d ∈ optionReport s f grammar imported) :
    d.problem = .optionsInDelegate := by
  rw [optionReport] at h
  split at h
  · simp at h
  · dsimp only at h
    split at h
    · rw [List.mem_singleton.mp h]
      simp only [Diagnostic.withDetail, Diagnostic.located, Diagnostic.inFile, Diagnostic.of]
    · simp at h

end Integration

namespace GrammarSet

open Integration Forest

variable {s : GrammarSet} {grammar : GrammarId}

/-- Each grammar owns all nodes of its tree. -/
def Owned (s : GrammarSet) : Prop :=
  ∀ g < s.size, ∀ x, s.forest.Within x (s.grammar g).root → s.forest.owner x = some g

theorem Separate.owned (hs : s.Separate)
    (h : ∀ g < s.size, ∀ x < s.forest.size, s.forest.isWithin x (s.grammar g).root = true →
      s.forest.owner x = some g) : s.Owned := by
  intro g hg x hx
  have hlt := hx.lt_size (hs.root_lt g hg)
  exact h g hg x hlt ((hs.wellFormed.isWithin_iff hlt).mpr hx)

theorem unmixed_of_owned (hs : s.Separate) (ho : s.Owned) (hg : grammar < s.size) :
    Unmixed s.forest (s.Involved grammar) := by
  refine ⟨hs.rooted hg, fun t u ht hu a b ha hb => ?_⟩
  obtain ⟨i, hi, -, rfl⟩ := hs.of_involved hg ht
  obtain ⟨j, hj, -, rfl⟩ := hs.of_involved hg hu
  rw [ho i hi a (.of_parent ha (.refl ..)), ho j hj b (.of_parent hb (.refl ..)),
    Option.some.injEq]
  exact ⟨fun hij => by rw [hij], hs.distinct i hi j hj⟩

/-- Integration absorbs nodes of the imports, takes their named actions, and reports those that
repeat others. -/
theorem exists_actionsRun (hs : s.Separate) (ho : s.Owned) (ha : s.Acyclic)
    (hg : grammar < s.size) :
    ∃ m, s.integrateImports grammar = .ok (s.withForest m.rules.forest, m.report) ∧
      Absorbed (s.Involved grammar) (s.grammar grammar).root s.forest m.rules.forest ∧
      ActionsRun s.forest (s.Involved grammar) (s.grammar grammar).type.defaultScope
        (fileOf s grammar) (s.grammar grammar).root (s.importRoots grammar) [] m := by
  have hf := unmixed_of_owned hs ho hg
  have hr : s.Involved grammar (s.grammar grammar).root := List.mem_cons_self
  refine integrateImports_run (P := fun done rest m =>
      Absorbed (s.Involved grammar) (s.grammar grammar).root s.forest m.rules.forest ∧
        ActionsRun s.forest (s.Involved grammar) (s.grammar grammar).type.defaultScope
          (fileOf s grammar) (s.grammar grammar).root done rest m)
    hs ha hg (fun m hrepeated hreport hshifted => ?_)
    fun done rest imported m m' hturn _ hpass h => ?_
  · refine ⟨hshifted.absorbed hr hr, (ActionsTaken.start hf hr (s.importRoots grammar)).steady
      hs.wellFormed (hshifted.steady hf.rooted hr hr (by decide)) hr (by simpa using hr)
      fun u hu => List.mem_cons_of_mem _ hu, hrepeated, ?_, by simp [hreport]⟩
    rw [hreport]
    rfl
  · obtain ⟨g, actions, k, hpassed, hreport⟩ := hpass.passed
    exact ⟨h.1.trans hs.wellFormed hpass.brought.absorbed,
      h.2.step hf hturn hpassed hreport fun d hd => problem_of_mem_optionReport hd⟩

end GrammarSet

end GrammarTrees
