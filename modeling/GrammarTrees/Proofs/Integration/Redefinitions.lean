import GrammarTrees.Proofs.Integration.NamedActions

/-! The redefinitions of named actions that integration reports. A definition that repeats another
one of its grammar is overlooked if an earlier grammar defines the same action: it is not reported,
and its code is taken in as if it were the only one. -/

namespace GrammarTrees

namespace Integration

open Forest

variable {f g : Forest} {T : NodeId → Prop} {scope : String} {root t a : Nat}
  {before done roots : List NodeId} {key : String × String}

/-- The repeated definitions of all trees whose scope and name a tree before theirs defines. -/
def overlookedRepeats (f : Forest) (scope : String) :
    (before : List NodeId) → List NodeId → List NodeId
  | _, [] => []
  | before, t :: ts =>
    (repeatedActions f scope t).filter (· ∉ newRepeats f scope before t) ++
      overlookedRepeats f scope (before ++ [t]) ts

/-- The first definitions of an action in the trees of `roots`. -/
def firstDefiners (f : Forest) (scope : String) (key : String × String) (roots : List NodeId) :
    List NodeId :=
  roots.filterMap fun t => (definitions f scope key (f.childrenOfKind t .namedAction)).head?

theorem firstDefiners_cons (f : Forest) (scope : String) (key : String × String) (t : NodeId)
    (roots : List NodeId) : firstDefiners f scope key (t :: roots) =
      (definitions f scope key (f.childrenOfKind t .namedAction)).head?.toList ++
        firstDefiners f scope key roots := by
  rw [firstDefiners, List.filterMap_cons]
  cases (definitions f scope key (f.childrenOfKind t .namedAction)).head? <;> rfl

/-- Each repeated definition of the trees `roots` is reported once, and an action takes in the code
of the first definitions only: `f` before, `g` after. -/
structure RedefinitionsExact (f g : Forest) (scope : String)
    (fileOf : Option GrammarId → String) (roots : List NodeId) (report : Report) : Prop where
  reported : report.filter (·.problem = .actionRedefinition) =
    (roots.flatMap (repeatedActions f scope)).map (redefinitionOf f fileOf)
  code : ∀ key a, (definers f scope key roots).head? = some a →
    actionCode g a = joinAll (actionCode f a)
      ((firstDefiners f scope key roots).tail.map (actionCode f))

/-- What integration reports of the repeated definitions, and what it takes in: `f` before, `g`
after. -/
structure RedefinitionsReported (f g : Forest) (scope : String)
    (fileOf : Option GrammarId → String) (roots : List NodeId) (report : Report) : Prop where
  reported : report.filter (·.problem = .actionRedefinition) =
    (firstRepeats f scope [] roots).map (redefinitionOf f fileOf)
  code : ∀ key a, (definers f scope key roots).head? = some a →
    actionCode g a = joinAll (actionCode f a) (foreignCode f a (definers f scope key roots))
  overlooked : ∀ a ∈ overlookedRepeats f scope [] roots, ∃ key d,
    (definers f scope key roots).head? = some d ∧ a ∈ definers f scope key roots ∧
      f.owner a ≠ f.owner d

/-! ### Which repeated definitions are reported -/

theorem length_repeatedActions (f : Forest) (scope : String) (before roots : List NodeId) :
    (roots.flatMap (repeatedActions f scope)).length =
      (firstRepeats f scope before roots).length +
        (overlookedRepeats f scope before roots).length := by
  induction roots generalizing before with
  | nil => rfl
  | cons t ts ih =>
    have hsplit : (repeatedActions f scope t).length = (newRepeats f scope before t).length +
        ((repeatedActions f scope t).filter (· ∉ newRepeats f scope before t)).length := by
      rw [List.length_eq_length_filter_add fun a => (actionKey? f scope a).all fun key =>
        (definers f scope key before).isEmpty, newRepeats]
      congr 2
      refine List.filter_congr fun a ha => ?_
      simp only [List.mem_filter, ha, true_and, Bool.not_eq_true, Bool.decide_eq_false]
    rw [List.flatMap_cons, List.length_append, firstRepeats, List.length_append, overlookedRepeats,
      List.length_append, ih (before ++ [t]), hsplit]
    omega

/-- All repeated definitions are reported if none is overlooked. -/
theorem firstRepeats_eq_iff (f : Forest) (scope : String) (roots : List NodeId) :
    firstRepeats f scope [] roots = roots.flatMap (repeatedActions f scope) ↔
      overlookedRepeats f scope [] roots = [] := by
  have hlength := length_repeatedActions f scope [] roots
  constructor
  · intro heq
    rw [heq] at hlength
    exact List.length_eq_zero_iff.mp (by omega)
  · intro hnone
    rw [hnone, List.length_nil, Nat.add_zero] at hlength
    exact (firstRepeats_sublist f scope [] roots).eq_of_length hlength.symm

/-- An overlooked definition belongs to a later tree than the first one. -/
theorem exists_of_mem_overlooked (ha : a ∈ overlookedRepeats f scope before roots) :
    ∃ key front t back, roots = front ++ t :: back ∧
      a ∈ definitions f scope key (f.childrenOfKind t .namedAction) ∧
        definers f scope key (before ++ front) ≠ [] := by
  induction roots generalizing before with
  | nil => simp [overlookedRepeats] at ha
  | cons t ts ih =>
    rcases List.mem_append.mp ha with ha | ha
    · obtain ⟨hrepeated, hnew⟩ := List.mem_filter.mp ha
      obtain ⟨hmem, hnamed⟩ := List.mem_filter.mp hrepeated
      obtain ⟨key, hkey⟩ := Option.ne_none_iff_exists'.mp (of_decide_eq_true hnamed).1
      refine ⟨key, [], t, ts, rfl, List.mem_filter.mpr ⟨hmem, decide_eq_true hkey⟩, ?_⟩
      rw [List.append_nil]
      exact fun hnone => of_decide_eq_true hnew ((mem_newRepeats hkey).mpr ⟨hrepeated, hnone⟩)
    · obtain ⟨key, front, u, back, hsplit, hmem, hdefined⟩ := ih ha
      refine ⟨key, t :: front, u, back, by rw [hsplit, List.cons_append], hmem, ?_⟩
      rwa [List.append_assoc] at hdefined

/-! ### What is taken in -/

/-- A definition in a tree after the first one is taken in. -/
theorem Unmixed.exists_first {front back : List NodeId} (hf : Unmixed f T)
    (hT : ∀ u ∈ front ++ t :: back, T u) (hnodup : (front ++ t :: back).Nodup)
    (ha : a ∈ definitions f scope key (f.childrenOfKind t .namedAction))
    (hfront : definers f scope key front ≠ []) :
    ∃ d, (definers f scope key (front ++ t :: back)).head? = some d ∧
      a ∈ definers f scope key (front ++ t :: back) ∧ f.owner a ≠ f.owner d := by
  have hff := hf.rooted.wellFormed
  obtain ⟨d, ds, hd⟩ := List.exists_cons_of_ne_nil hfront
  obtain ⟨u, hu, hdu, -⟩ := mem_definers hff (hd ▸ List.mem_cons_self)
  have hap := ((mem_definitions hff).mp ha).1
  rw [definers_append, definers_cons, hd]
  refine ⟨d, rfl, by simp [ha], fun howner => ?_⟩
  have htu := (hf.owner t u (hT t (by simp)) (hT u (by simp [hu])) a d hap hdu).mp howner
  exact (List.nodup_append.mp hnodup).2.2 u hu t List.mem_cons_self htu.symm

section Taken

variable (hf : Unmixed f T)
include hf

/-- A tree that repeats no action after an earlier definition gives its first definition. -/
theorem foreignCode_of_newRepeats (ht : T t) (hnew : t ∉ before) (hT : ∀ u ∈ before, T u)
    (ha : a ∈ definers f scope key before)
    (hnone : (repeatedActions f scope t).filter (· ∉ newRepeats f scope before t) = []) :
    foreignCode f a (definitions f scope key (f.childrenOfKind t .namedAction)) =
      (definitions f scope key (f.childrenOfKind t .namedAction)).head?.toList.map
        (actionCode f) := by
  have hff := hf.rooted.wellFormed
  have hfirst : definitions f scope key (f.childrenOfKind t .namedAction) =
      (definitions f scope key (f.childrenOfKind t .namedAction)).head?.toList := by
    refine eq_toList_of_mem ((hff.nodup_children t).filter _ |>.filter _) fun b => ?_
    refine ⟨fun hb => by_contra fun hne => ?_, List.mem_of_head?⟩
    have hrepeated := (mem_repeatedActions hff hb).mpr hne
    have hkey := ((mem_definitions hff).mp hb).2.2
    refine List.filter_eq_nil_iff.mp hnone b hrepeated (decide_eq_true ?_)
    rw [mem_newRepeats hkey]
    exact fun hmem => List.ne_nil_of_mem ha hmem.2
  obtain ⟨u, hu, hau, -⟩ := mem_definers hff ha
  have hforeign : ∀ b ∈ definitions f scope key (f.childrenOfKind t .namedAction),
      f.owner b ≠ f.owner a := by
    intro b hb howner
    have hbt := ((mem_definitions hff).mp hb).1
    exact hnew ((hf.owner t u ht (hT u hu) b a hbt hau).mp howner ▸ hu)
  rw [← hfirst, foreignCode, List.filter_eq_self.mpr fun b hb => decide_eq_true (hforeign b hb)]

/-- Without overlooked definitions, the trees after the first definition give their first ones. -/
theorem foreignCode_later (hT : ∀ u ∈ before ++ roots, T u) (hnodup : (before ++ roots).Nodup)
    (ha : a ∈ definers f scope key before)
    (hnone : overlookedRepeats f scope before roots = []) :
    foreignCode f a (definers f scope key roots) =
      (firstDefiners f scope key roots).map (actionCode f) := by
  induction roots generalizing before with
  | nil => rfl
  | cons t ts ih =>
    rw [overlookedRepeats, List.append_eq_nil_iff] at hnone
    have hnew : t ∉ before := fun hmem =>
      (List.nodup_append.mp hnodup).2.2 t hmem t List.mem_cons_self rfl
    have hassoc : before ++ t :: ts = before ++ [t] ++ ts := by simp
    have hfirst := foreignCode_of_newRepeats hf (hT t (by simp)) hnew
      (fun u hu => hT u (List.mem_append_left _ hu)) ha hnone.1
    rw [hassoc] at hT hnodup
    have hlater := ih hT hnodup (definers_concat f scope key before t ▸ List.mem_append_left _ ha)
      hnone.2
    rw [definers_cons, foreignCode_append, hfirst, hlater, firstDefiners_cons, List.map_append]

/-- Without overlooked definitions, the first definition of an action takes in the first ones of the
other trees. -/
theorem foreignCode_firstDefiners (hT : ∀ u ∈ before ++ roots, T u)
    (hnodup : (before ++ roots).Nodup) (hbefore : definers f scope key before = [])
    (hnone : overlookedRepeats f scope before roots = [])
    (ha : (definers f scope key roots).head? = some a) :
    foreignCode f a (definers f scope key roots) =
      (firstDefiners f scope key roots).tail.map (actionCode f) := by
  induction roots generalizing before with
  | nil => simp [definers] at ha
  | cons t ts ih =>
    rw [overlookedRepeats, List.append_eq_nil_iff] at hnone
    have hassoc : before ++ t :: ts = before ++ [t] ++ ts := by simp
    have ht : T t := hT t (by simp)
    rw [hassoc] at hT hnodup
    rw [definers_cons, List.head?_append] at ha
    rw [definers_cons, foreignCode_append, firstDefiners_cons]
    cases hd : (definitions f scope key (f.childrenOfKind t .namedAction)).head? with
    | none =>
      rw [hd, Option.none_or] at ha
      rw [List.head?_eq_none_iff.mp hd]
      refine ih hT hnodup ?_ hnone.2 ha
      rw [definers_concat, hbefore, List.head?_eq_none_iff.mp hd, List.nil_append]
    | some d =>
      rw [hd, Option.some_or, Option.some.injEq] at ha
      subst ha
      have hmem := List.mem_of_head? hd
      rw [hf.foreignCode_eq_nil ht hmem, List.nil_append, Option.toList_some, List.singleton_append,
        List.tail_cons]
      exact foreignCode_later hf hT hnodup
        (definers_concat f scope key before t ▸ List.mem_append_right _ hmem) hnone.2

end Taken

theorem RedefinitionsReported.exact_iff {fileOf : Option GrammarId → String} {report : Report}
    (hf : Unmixed f T) (hT : ∀ t ∈ roots, T t) (hnodup : roots.Nodup)
    (h : RedefinitionsReported f g scope fileOf roots report) :
    RedefinitionsExact f g scope fileOf roots report ↔ overlookedRepeats f scope [] roots = [] := by
  constructor
  · intro hexact
    rw [← firstRepeats_eq_iff]
    refine (firstRepeats_sublist f scope [] roots).eq_of_length ?_
    have hmap := h.reported.symm.trans hexact.reported
    rw [← List.length_map (redefinitionOf f fileOf), hmap, List.length_map]
  · intro hnone
    refine ⟨?_, fun key a ha => ?_⟩
    · rw [h.reported, (firstRepeats_eq_iff f scope roots).mpr hnone]
    · rw [h.code key a ha,
        foreignCode_firstDefiners hf (show ∀ t ∈ [] ++ roots, T t from hT) hnodup
        rfl hnone ha]

end Integration

namespace GrammarSet

open Integration Forest

variable {s : GrammarSet} {grammar : GrammarId}

/-- Integration reports a repeated definition if no earlier grammar defines the same action. All are
reported, and their code left out, unless one is overlooked. -/
theorem integrateImports_redefinitions (hs : s.Separate) (ho : s.Owned) (ha : s.Acyclic)
    (hg : grammar < s.size) (himports : s.allImports grammar ≠ []) :
    ∃ g report, s.integrateImports grammar = .ok (s.withForest g, report) ∧
      RedefinitionsReported s.forest g (s.grammar grammar).type.defaultScope (fileOf s grammar)
        ((s.grammar grammar).root :: s.importRoots grammar) report ∧
      (RedefinitionsExact s.forest g (s.grammar grammar).type.defaultScope (fileOf s grammar)
          ((s.grammar grammar).root :: s.importRoots grammar) report ↔
        overlookedRepeats s.forest (s.grammar grammar).type.defaultScope []
          ((s.grammar grammar).root :: s.importRoots grammar) = []) := by
  have hf := unmixed_of_owned hs ho hg
  have hnodup := hs.nodup_involved ha hg
  obtain ⟨m, hok, -, hrun⟩ := exists_actionsRun hs ho ha hg
  have hroots : s.importRoots grammar ≠ [] := by
    rw [importRoots, ne_eq, List.map_eq_nil_iff]
    exact himports
  have hreport := hrun.report
  rw [toldRepeats, if_neg hroots] at hreport
  have hreported : RedefinitionsReported s.forest m.rules.forest
      (s.grammar grammar).type.defaultScope (fileOf s grammar)
      ((s.grammar grammar).root :: s.importRoots grammar) m.report := by
    refine ⟨hreport, hrun.taken.code, fun a hmem => ?_⟩
    obtain ⟨key, front, t, back, hsplit, hdefines, hdefined⟩ := exists_of_mem_overlooked hmem
    have hall : ∀ u ∈ front ++ t :: back, s.Involved grammar u := fun u hu => by
      rwa [Involved, hsplit]
    rw [hsplit] at hnodup ⊢
    exact ⟨key, hf.exists_first hall hnodup hdefines hdefined⟩
  exact ⟨m.rules.forest, m.report, hok, hreported, hreported.exact_iff hf (fun t ht => ht) hnodup⟩

/-- A grammar with the given sections and an import that defines its members twice. -/
def repeatedMembers (own : List (Tree Label)) : GrammarSet :=
  importing (ownedTree 0 (grammarTree "R" own))
    (ownedTree 1 (grammarTree "S" [actionTree "members" "{B}", actionTree "members" "{C}"]))

/-- The second definition is reported, and the first one is as it was. -/
theorem integrateImports_repeatedMembers :
    ∃ g report, (repeatedMembers []).integrateImports 0 =
        .ok ((repeatedMembers []).withForest g, report) ∧
      report.filter (·.problem = .actionRedefinition) =
        [redefinitionOf (repeatedMembers []).forest (fileOf (repeatedMembers []) 0) 7] ∧
      actionCode g 4 = "{B}" := by
  have hs : (repeatedMembers []).Separate := importing_separate _ _
  obtain ⟨g, report, hok, h, -⟩ := integrateImports_redefinitions hs
    (hs.owned (by decide +kernel)) (importing_acyclic _ _)
    (show 0 < (repeatedMembers []).size by decide) (by decide +kernel)
  have hfirst : firstRepeats (repeatedMembers []).forest "parser" []
      (0 :: (repeatedMembers []).importRoots 0) = [7] := by decide +kernel
  refine ⟨g, report, hok, h.reported.trans (congrArg (List.map _) hfirst), ?_⟩
  exact (h.code ("parser", "members") 4 (by decide +kernel)).trans (by decide +kernel)

/-- If the grammar itself has members, the second definition of its import is not reported. -/
theorem integrateImports_overlooksMembers :
    let s := repeatedMembers [actionTree "members" "{A}"]
    s.Separate ∧ s.Owned ∧ s.Acyclic ∧ 0 < s.size ∧ s.allImports 0 ≠ [] ∧
      ∃ t report, s.integrateImports 0 = .ok (t, report) ∧ actionCode t.forest 2 = "\x7bA\nB\nC\x7d" ∧
        ¬ RedefinitionsExact s.forest t.forest "parser" (fileOf s 0) (0 :: s.importRoots 0)
          report := by
  have hs : (repeatedMembers [actionTree "members" "{A}"]).Separate := importing_separate _ _
  refine ⟨hs, hs.owned (by decide +kernel), importing_acyclic _ _, by decide, by decide +kernel, ?_⟩
  have heval : ((repeatedMembers [actionTree "members" "{A}"]).integrateImports 0).map
      (fun r => (actionCode r.1.forest 2, r.2)) = .ok ("\x7bA\nB\nC\x7d", []) := by decide +kernel
  have hrepeated : (0 :: (repeatedMembers [actionTree "members" "{A}"]).importRoots 0).flatMap
      (repeatedActions (repeatedMembers [actionTree "members" "{A}"]).forest "parser") = [10] := by
    decide +kernel
  generalize (repeatedMembers [actionTree "members" "{A}"]).integrateImports 0 = result at heval ⊢
  match result, heval with
  | .ok (t, report), heval =>
    obtain ⟨hcode, hreport⟩ := Prod.mk.inj (Except.ok.inj heval)
    refine ⟨t, report, rfl, hcode, fun hexact => ?_⟩
    have hreported := hexact.reported
    rw [show report = [] from hreport, hrepeated] at hreported
    simp at hreported

end GrammarSet

end GrammarTrees
