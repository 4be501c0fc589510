import GrammarTrees.Proofs.Grammar.Imports
import GrammarTrees.Proofs.Integration.ActionPlaces
import GrammarTrees.Proofs.Integration.Merging
import GrammarTrees.Proofs.Integration.OtherSections

/-! Merging imports one after the other: which rules each of them gives to the grammar, and where
they end up. -/

namespace GrammarTrees

/-- The sections of the tree of `root` whose rules other grammars take over: the modes, and then the
first rule section. -/
def Forest.importSections (f : Forest) (root : NodeId) : List NodeId :=
  f.childrenOfKind root .mode ++ (f.firstChildOfKind? root .rules).toList

theorem Forest.childrenOfKind_eq_sections (f : Forest) (root : NodeId) :
    f.childrenOfKind root .mode = (f.sections root).filter (f.kind · = .mode) := by
  rw [Forest.childrenOfKind, Forest.sections, List.filter_filter]
  apply List.filter_congr
  intro c _
  cases f.kind c <;> rfl

theorem Forest.firstChildOfKind?_eq_sections (f : Forest) (root : NodeId) :
    f.firstChildOfKind? root .rules = (f.sections root).find? (f.kind · = .rules) := by
  rw [Forest.firstChildOfKind?, Forest.sections, List.find?_filter]
  congr 1
  funext c
  cases f.kind c <;> rfl

namespace Integration

open Forest

variable {f g k : Forest} {root rules x t : Nat} {grammar : GrammarId}
  {todo xs ms rest made : List NodeId} {m : RuleMerge}

/-- The rules of the sections `xs` have been taken over. -/
structure Progress (f : Forest) (root rules : NodeId) (grammar : GrammarId)
    (todo xs : List NodeId) (m : RuleMerge) : Prop where
  taken : ∃ made, m.modes = f.childrenOfKind root .mode ++ made ∧
    Taken f root rules grammar (f.ruleOrder root todo) xs made m.forest
  names : ∀ n, n ∈ m.names ↔ ∃ q ∈ f.ruleOrder root xs, f.sectionName q = n

section Steps

variable (h : Setting f root rules todo) (htodo : todo = xs ++ x :: rest)
  (hm : Progress f root rules grammar todo xs m)
include h htodo hm

theorem addMode_progress (hx : f.kind x = .mode) :
    ∃ m', RuleMerge.addMode grammar root m x = .ok m' ∧
      Progress f root rules grammar todo (xs ++ [x]) m' := by
  obtain ⟨⟨made, hmodes, ht⟩, hnames⟩ := hm
  have h' : Setting f root rules (xs ++ x :: rest) := htodo ▸ h
  have hg := ht.carried.wellFormed
  have horder : f.ruleOrder root todo = f.ruleOrder root (xs ++ x :: rest) := by rw [htodo]
  obtain ⟨hfirst, hnames'⟩ := ht.next_newRules h' horder hnames
  have hxs := ht.carried.ruleSection h.wellFormed h'.next_ruleSection
  have hxlt : x < m.forest.size := hxs.lt_size_of_within (.refl _ x)
  rw [RuleMerge.addMode]
  simp only [ht.next_name h', hmodes, hfirst]
  split
  · rename_i target hfind
    have hmem := List.mem_of_find?_eq_some hfind
    have hp := ((mem_sections hg).mp (ht.mem_sections_of_mode h' hmem)).1
    have hapart : ¬ m.forest.Within target x := by
      obtain ⟨t, hxt, hroot, hne⟩ := h'.next_root
      have hxt' := (ht.next_parent? h').trans hxt
      exact not_within_of_roots (.of_parent hp (.refl _ root)) (.of_parent hxt' (.refl _ t))
        (ht.isRoot h') (ht.carried.roots t (h.wellFormed.lt_size_of_parent hxt) hroot) hne.symm
    obtain ⟨k, hk, hgathered⟩ := ht.push_firstRules h' (lt_size_of_parent?_eq hp) hapart
    refine ⟨⟨k, _, _⟩, ?_, ⟨made, rfl, ht.gathered_mode h' hgathered hx hfind⟩, hnames'⟩
    rw [hk]
    rfl
  · rename_i hfind
    obtain ⟨k, copy, hcopy, hcopied⟩ := copyMode_eq_ok hg grammar x
    have hnodes : ∀ r ∈ f.firstRules (f.ruleOrder root todo) x, m.forest.parent? r = some x :=
      ht.parent?_of_mem_firstRules h'
    obtain ⟨l, hl, hgathered⟩ := hcopied.gather hnodes hxlt
      (nodup_firstRules h.wellFormed (f.ruleOrder root todo) x)
    simp only [hcopy]
    by_cases hnew : f.firstRules (f.ruleOrder root todo) x = []
    · have ht' := (ht.skip h' hx hfind hnew).apart h (hcopied.grown.apart hg)
      refine ⟨⟨k, _, _⟩, ?_, ⟨made, rfl, ht'⟩, hnames'⟩
      rw [hnew]
      rfl
    · obtain ⟨k', hk', hpushed⟩ :=
        hcopied.push hnodes (ht.isRoot h) (ht.root_lt h) hgathered
      have hadded := hcopied.added hnodes (ht.isRoot h) (ht.root_lt h) hgathered hg hxs hpushed
      have hempty : (f.firstRules (f.ruleOrder root todo) x).isEmpty = false := by
        simpa using hnew
      refine ⟨⟨k', _, f.childrenOfKind root .mode ++ made ++ [copy]⟩, ?_,
        ⟨made ++ [copy], List.append_assoc .., ht.added h' hx hfind hadded hnew⟩, hnames'⟩
      simp only [bind, Except.bind, hl, hempty, hk']
      rfl

theorem addRules_step (hx : f.kind x = .rules) :
    ∃ k, m.forest.pushChildren rules
        (newRules m.forest m.names (m.forest.childrenOfKind x .rule)).1 = .ok k ∧
      Progress f root rules grammar todo (xs ++ [x])
        { m with
          forest := k
          names := (newRules m.forest m.names (m.forest.childrenOfKind x .rule)).2 } := by
  obtain ⟨⟨made, hmodes, ht⟩, hnames⟩ := hm
  have h' : Setting f root rules (xs ++ x :: rest) := htodo ▸ h
  have horder : f.ruleOrder root todo = f.ruleOrder root (xs ++ x :: rest) := by rw [htodo]
  obtain ⟨hfirst, hnames'⟩ := ht.next_newRules h' horder hnames
  have hp : m.forest.parent? rules = some root :=
    (ht.carried.sections rules h.ruleSection).2.trans h.hangs
  have hapart : ¬ m.forest.Within rules x := by
    obtain ⟨t, hxt, hroot, hne⟩ := h'.next_root
    have hxt' := (ht.next_parent? h').trans hxt
    exact not_within_of_roots (.of_parent hp (.refl _ root)) (.of_parent hxt' (.refl _ t))
      (ht.isRoot h') (ht.carried.roots t (h.wellFormed.lt_size_of_parent hxt) hroot) hne.symm
  obtain ⟨k, hk, hgathered⟩ := ht.push_firstRules h' (lt_size_of_parent?_eq hp) hapart
  rw [hfirst]
  exact ⟨k, hk, ⟨made, hmodes, ht.gathered_rules h' hgathered hx rfl⟩, hnames'⟩

end Steps

/-! ### The sections of an import -/

section Import

variable (h : Setting f root rules todo)
include h

theorem addModes_progress {ys : List NodeId} (htodo : todo = xs ++ (ys ++ rest))
    (hm : Progress f root rules grammar todo xs m) (hys : ∀ y ∈ ys, f.kind y = .mode) :
    ∃ m', ys.foldlM (RuleMerge.addMode grammar root) m = .ok m' ∧
      Progress f root rules grammar todo (xs ++ ys) m' := by
  induction ys generalizing xs m with
  | nil => exact ⟨m, rfl, by simpa using hm⟩
  | cons y ys ih =>
    rw [List.forall_mem_cons] at hys
    have hcons : todo = xs ++ y :: (ys ++ rest) := htodo
    have hnext : todo = (xs ++ [y]) ++ (ys ++ rest) := by
      simpa using htodo
    obtain ⟨k, hk, hkm⟩ := addMode_progress h hcons hm hys.1
    obtain ⟨m', hm', hprogress⟩ := ih hnext hkm hys.2
    refine ⟨m', ?_, by simpa using hprogress⟩
    rw [List.foldlM_cons, hk]
    exact hm'

theorem Progress.sections_eq (hm : Progress f root rules grammar todo xs m) (hlt : t < f.size)
    (ht : f.parent? t = none) (hne : t ≠ root) :
    m.forest.childrenOfKind t .mode = f.childrenOfKind t .mode ∧
      m.forest.firstChildOfKind? t .rules = f.firstChildOfKind? t .rules := by
  obtain ⟨made, -, htaken⟩ := hm.taken
  have hkind : ∀ c ∈ f.sections t, m.forest.kind c = f.kind c := by
    intro c hc
    exact htaken.carried.kind (ruleSection_of_mem h.wellFormed ht hc)
  have hsections := (htaken.imports t hlt ht hne).1
  constructor
  · rw [childrenOfKind_eq_sections, childrenOfKind_eq_sections, hsections]
    apply List.filter_congr
    intro c hc
    rw [hkind c hc]
  · rw [firstChildOfKind?_eq_sections, firstChildOfKind?_eq_sections, hsections]
    revert hkind
    generalize f.sections t = l
    intro hkind
    induction l with
    | nil => rfl
    | cons c cs ih =>
      rw [List.forall_mem_cons] at hkind
      rw [List.find?_cons, List.find?_cons, hkind.1, ih hkind.2]

theorem Progress.apart (hm : Progress f root rules grammar todo xs m)
    (hk : m.forest.Apart k) : Progress f root rules grammar todo xs { m with forest := k } := by
  obtain ⟨⟨made, hmodes, ht⟩, hnames⟩ := hm
  exact ⟨⟨made, hmodes, ht.apart h hk⟩, hnames⟩

theorem addRules_progress (htodo : todo = xs ++ ((f.firstChildOfKind? t .rules).toList ++ rest))
    (hm : Progress f root rules grammar todo xs m)
    (hsame : m.forest.firstChildOfKind? t .rules = f.firstChildOfKind? t .rules) :
    ∃ m', RuleMerge.addRules rules t m = .ok m' ∧
      Progress f root rules grammar todo (xs ++ (f.firstChildOfKind? t .rules).toList) m' := by
  rw [RuleMerge.addRules, hsame]
  cases hfirst : f.firstChildOfKind? t .rules with
  | none => exact ⟨m, rfl, by simpa using hm⟩
  | some x =>
    have hcons : todo = xs ++ x :: rest := by
      simpa [hfirst] using htodo
    obtain ⟨k, hk, hkm⟩ := addRules_step h hcons hm
      (of_firstChildOfKind? h.wellFormed hfirst).2
    refine ⟨_, ?_, hkm⟩
    simp only [hk]
    rfl

variable {s : GrammarSet} {imported : GrammarId}

/-- Merging an import takes over the rules of its sections. -/
theorem mergeImport_progress {m : Merge}
    (htodo : todo = xs ++ (f.importSections (s.grammar imported).root ++ rest))
    (hm : Progress f root rules grammar todo xs m.rules) (hroot : (s.grammar grammar).root = root)
    (hlt : (s.grammar imported).root < f.size)
    (hi : f.parent? (s.grammar imported).root = none) (hne : (s.grammar imported).root ≠ root) :
    ∃ m', mergeImport s grammar rules m imported = .ok m' ∧
      Progress f root rules grammar todo (xs ++ f.importSections (s.grammar imported).root)
        m'.rules := by
  have hstart : ∀ {p : RuleMerge}, Progress f root rules grammar todo xs p →
      p.forest.Rooted (fun t => t = root ∨ t = (s.grammar imported).root) ∧
        p.forest.parent? rules = some root := by
    intro p hp
    obtain ⟨made, -, ht⟩ := hp.taken
    refine ⟨⟨ht.carried.wellFormed, ?_, ?_⟩, ?_⟩
    · rintro t (rfl | rfl)
      · exact ht.root_lt h
      · exact Nat.lt_of_lt_of_le hlt ht.carried.size_le
    · rintro t (rfl | rfl)
      · exact ht.isRoot h
      · exact ht.carried.roots _ hlt hi
    · have hmem : rules ∈ f.sections root :=
        (mem_sections h.wellFormed).mpr ⟨h.hangs, by rw [h.kind]; rfl⟩
      refine ((mem_sections ht.carried.wellFormed).mp ?_).1
      rw [ht.sections]
      exact List.mem_append_left _ hmem
  obtain ⟨hT, hrules⟩ := hstart hm
  obtain ⟨k, hk, -, hchannels, -⟩ := mergeChannels_eq_ok hT (.inl rfl) hrules grammar
    (s.grammar imported).root
  have hm := hm.apart h hchannels
  obtain ⟨hT, hrules⟩ := hstart hm
  obtain ⟨l, hl, -, htokens, -⟩ := mergeTokens_eq_ok hT (.inl rfl) (.inr rfl) hrules grammar
  have hm := hm.apart h htokens
  obtain ⟨hT, hrules⟩ := hstart hm
  obtain ⟨n, repeated, report, hn, hactions⟩ := mergeActions_apart hT.wellFormed
    (hT.isRoot root (.inl rfl)) (hT.isRoot _ (.inr rfl)) hrules
    (s.grammar grammar).type.defaultScope (fileOf s grammar) m.repeated
  have hm := hm.apart h hactions
  have hmodes := (hm.sections_eq h hlt hi hne).1
  rw [importSections, List.append_assoc] at htodo
  obtain ⟨p, hp, hm⟩ := addModes_progress h htodo hm fun y hy =>
    ((mem_childrenOfKind h.wellFormed).mp hy).2
  rw [← List.append_assoc] at htodo
  obtain ⟨q, hq, hm⟩ := addRules_progress h htodo hm (hm.sections_eq h hlt hi hne).2
  rw [← hmodes] at hp
  refine ⟨⟨q, repeated, m.report ++ report ++ optionReport s q.forest grammar imported⟩, ?_, ?_⟩
  · rw [mergeImport, hroot]
    simp only [bind, Except.bind, hk, hl, hn, RuleMerge.addModes, hp, hq]
    rfl
  · rw [importSections, ← List.append_assoc]
    exact hm

end Import

end Integration

end GrammarTrees
