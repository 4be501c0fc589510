import GrammarTrees.Proofs.Integration.ActionRuns

/-! The named actions of a grammar after integration. Of all definitions with one scope and name, in
the grammar and in what it imports, the first one is in the tree of the grammar, with the code of
all of them. -/

namespace GrammarTrees

namespace Integration

open Forest

variable {f g : Forest} {T : NodeId → Prop} {scope : String} {root t : Nat}
  {done roots ids : List NodeId} {key : String × String}

/-! ### Actions that no grammar defines twice -/

theorem definitions_length_le (h : (ids.filterMap (actionKey? f scope)).Nodup)
    (key : String × String) : (definitions f scope key ids).length ≤ 1 := by
  have hcount := List.nodup_iff_count_le_one.mp h key
  rw [List.count, List.countP_filterMap] at hcount
  rw [definitions, ← List.countP_eq_length_filter]
  refine Nat.le_trans (Nat.le_of_eq (List.countP_congr fun a _ => ?_)) hcount
  cases actionKey? f scope a <;> simp

theorem repeatedActions_eq_nil (hf : f.WellFormed)
    (honce : ∀ key, (definitions f scope key (f.childrenOfKind t .namedAction)).length ≤ 1) :
    repeatedActions f scope t = [] := by
  refine List.eq_nil_iff_forall_not_mem.mpr fun a ha => ?_
  obtain ⟨hmem, hrepeated⟩ := List.mem_filter.mp ha
  obtain ⟨key, hkey⟩ := Option.ne_none_iff_exists'.mp (of_decide_eq_true hrepeated).1
  have hdefines : a ∈ definitions f scope key (f.childrenOfKind t .namedAction) :=
    List.mem_filter.mpr ⟨hmem, decide_eq_true hkey⟩
  refine (mem_repeatedActions hf hdefines).mp ha ?_
  obtain ⟨d, hd⟩ := List.length_eq_one_iff.mp
    (Nat.le_antisymm (honce key) (List.length_pos_of_mem hdefines))
  rw [hd, List.mem_singleton] at hdefines
  rw [hd, hdefines]
  rfl

theorem Unmixed.pairwise_definers (hf : Unmixed f T) (hT : ∀ t ∈ roots, T t) (hnodup : roots.Nodup)
    (honce : ∀ t ∈ roots,
      (definitions f scope key (f.childrenOfKind t .namedAction)).length ≤ 1) :
    (definers f scope key roots).Pairwise fun a b => f.owner a ≠ f.owner b := by
  refine List.pairwise_flatMap.mpr ⟨fun t ht => ?_, ?_⟩
  · match definitions f scope key (f.childrenOfKind t .namedAction), honce t ht with
    | [], _ => exact .nil
    | [a], _ => exact List.pairwise_singleton _ a
  · refine hnodup.imp_of_mem fun ht hu htu a ha b hb => ?_
    have hap := ((mem_definitions hf.rooted.wellFormed).mp ha).1
    have hbp := ((mem_definitions hf.rooted.wellFormed).mp hb).1
    exact (hf.owner _ _ (hT _ ht) (hT _ hu) a b hap hbp).not.mpr htu

/-- What integration makes of the named actions: `f` before, `g` after it. -/
structure ActionsIntegrated (f g : Forest) (scope : String) (root : NodeId)
    (imports : List NodeId) : Prop where
  first : ∀ key, definitions g scope key (g.childrenOfKind root .namedAction) =
    (definers f scope key (root :: imports)).head?.toList
  single : ∀ key a, definers f scope key (root :: imports) = [a] → actionCode g a = actionCode f a
  joined : ∀ key a bs, bs ≠ [] → definers f scope key (root :: imports) = a :: bs →
    actionCode g a = "\x7b" ++ codeLines ((a :: bs).map (actionCode f)) ++ "\x7d"
  bare : ∀ t ∈ root :: imports, ∀ a ∈ f.childrenOfKind t .namedAction,
    f.childCount a ≠ 2 → f.childCount a ≠ 3 →
      g.parent? a = some t ∧ g.labelTree a = f.labelTree a

theorem ActionsTaken.integrated (hf : Unmixed f T) (h : ActionsTaken f g T scope root done [])
    (hT : ∀ t ∈ root :: done, T t) (hnodup : (root :: done).Nodup)
    (honce : ∀ t ∈ root :: done, ∀ key,
      (definitions f scope key (f.childrenOfKind t .namedAction)).length ≤ 1) :
    ActionsIntegrated f g scope root done := by
  have hff := hf.rooted.wellFormed
  refine ⟨fun key => ?_, fun key a hd => ?_, fun key a bs hbs hd => ?_,
    fun t ht a hmem htwo hthree => ?_⟩
  · rw [definers_cons]
    by_cases hnone : definitions f scope key (f.childrenOfKind root .namedAction) = []
    · rw [h.ownTaken key hnone, hnone, List.nil_append]
    · obtain ⟨a, ha⟩ := List.length_eq_one_iff.mp (Nat.le_antisymm
        (honce root List.mem_cons_self key) (List.length_pos_iff.mpr hnone))
      rw [h.ownKept key hnone, ha]
      rfl
  · rw [h.code key a (by rw [hd]; rfl), hd, foreignCode_eq_nil (by simp)]
    rfl
  · have hpairwise := hf.pairwise_definers hT hnodup fun t ht => honce t ht key
    rw [hd, List.pairwise_cons] at hpairwise
    have hforeign : foreignCode f a (a :: bs) = bs.map (actionCode f) := by
      rw [foreignCode, List.filter_cons_of_neg (by simp),
        List.filter_eq_self.mpr fun b hb => decide_eq_true (hpairwise.1 b hb).symm]
    rw [h.code key a (by rw [hd]; rfl), hd, hforeign, joinAll_eq (by simpa using hbs)]
    rfl
  · obtain ⟨hp, hk⟩ := (mem_childrenOfKind hff).mp hmem
    have haction : f.IsAction T a := ⟨hk, t, hT t ht, hp⟩
    have hkey : actionKey? f scope a = none := actionKey?_eq_none_iff.mpr ⟨htwo, hthree⟩
    exact ⟨(h.bare a haction hkey).trans hp, h.labelTree hf.rooted hT haction hkey⟩

end Integration

namespace GrammarSet

open Integration Forest

variable {s : GrammarSet} {grammar : GrammarId}

/-- No grammar of the list defines a named action twice; `scope` is that of actions without one. -/
def ActionsDistinct (s : GrammarSet) (scope : String) (grammars : List GrammarId) : Prop :=
  ∀ i ∈ grammars, ((s.forest.childrenOfKind (s.grammar i).root .namedAction).filterMap
    (actionKey? s.forest scope)).Nodup

/-- Integration leaves one named action for each scope and name: the first one in the grammar and
its imports, in this order, with the code of all of them. -/
theorem integrateImports_actionsIntegrated (hs : s.Separate) (ho : s.Owned) (ha : s.Acyclic)
    (hg : grammar < s.size)
    (honce : s.ActionsDistinct (s.grammar grammar).type.defaultScope
      (grammar :: s.allImports grammar)) :
    ∃ g report, s.integrateImports grammar = .ok (s.withForest g, report) ∧
      ActionsIntegrated s.forest g (s.grammar grammar).type.defaultScope (s.grammar grammar).root
        (s.importRoots grammar) ∧
      ∀ d ∈ report, d.problem ≠ .actionRedefinition := by
  have hf := unmixed_of_owned hs ho hg
  obtain ⟨m, hok, -, hrun⟩ := exists_actionsRun hs ho ha hg
  have honce' : ∀ t ∈ (s.grammar grammar).root :: s.importRoots grammar, ∀ key,
      (definitions s.forest (s.grammar grammar).type.defaultScope key
        (s.forest.childrenOfKind t .namedAction)).length ≤ 1 := by
    intro t ht key
    obtain ⟨i, -, hi, rfl⟩ := hs.of_involved hg ht
    exact definitions_length_le (honce i (List.mem_cons.mpr hi)) key
  refine ⟨m.rules.forest, m.report, hok,
    hrun.taken.integrated hf (fun t ht => ht) (hs.nodup_involved ha hg) honce', ?_⟩
  have hnone : toldRepeats s.forest (s.grammar grammar).type.defaultScope (s.grammar grammar).root
      (s.importRoots grammar) = [] := by
    refine List.eq_nil_iff_forall_not_mem.mpr fun a hmem => ?_
    obtain ⟨t, ht, hat⟩ := mem_repeatedActions_of_told hmem
    rw [repeatedActions_eq_nil hs.wellFormed (honce' t ht)] at hat
    simp at hat
  have hreport := hrun.report
  rw [hnone, List.map_nil, List.filter_eq_nil_iff] at hreport
  exact fun d hd => by simpa using hreport d hd

def ownedTree (grammar : GrammarId) (t : Tree Label) : Tree Label :=
  t.map fun label => { label with owner := some grammar }

def actionTree (name code : String) : Tree Label :=
  .node (.ofKind .namedAction) [.leaf (.make .id name), .leaf (.make .action code)]

/-- Two grammars with code for one header. -/
def twoHeaders : GrammarSet :=
  importing
    (ownedTree 0 (grammarTree "R" [actionTree "header" "{a}", .leaf (.ofKind .namedAction)]))
    (ownedTree 1 (grammarTree "S" [actionTree "members" "{m}", actionTree "header" "{b}"]))

/-- The header of the grammar takes in that of its import. -/
theorem integrateImports_twoHeaders :
    ∃ g report, twoHeaders.integrateImports 0 = .ok (twoHeaders.withForest g, report) ∧
      ActionsIntegrated twoHeaders.forest g "parser" 0 [6] ∧ actionCode g 2 = "\x7ba\nb\x7d" ∧
      ∀ d ∈ report, d.problem ≠ .actionRedefinition := by
  have hs : twoHeaders.Separate := importing_separate _ _
  have howned : twoHeaders.Owned := by
    have hall : ∀ g < twoHeaders.size, ∀ x < twoHeaders.forest.size,
        twoHeaders.forest.isWithin x (twoHeaders.grammar g).root = true →
          twoHeaders.forest.owner x = some g := by decide +kernel
    intro g hg x hx
    have hlt := hx.lt_size (hs.root_lt g hg)
    exact hall g hg x hlt ((hs.wellFormed.isWithin_iff hlt).mpr hx)
  have honce : twoHeaders.ActionsDistinct (twoHeaders.grammar 0).type.defaultScope
      (0 :: twoHeaders.allImports 0) := by
    unfold ActionsDistinct
    decide +kernel
  obtain ⟨g, report, hok, hactions, hreport⟩ := integrateImports_actionsIntegrated hs howned
    (importing_acyclic _ _) (by decide) honce
  have hroots : twoHeaders.importRoots 0 = [6] := by decide +kernel
  rw [hroots] at hactions
  refine ⟨g, report, hok, hactions, ?_, hreport⟩
  rw [hactions.joined ("parser", "header") 2 [11] (by simp) (by decide +kernel)]
  decide +kernel

end GrammarSet

end GrammarTrees
