import GrammarTrees.Proofs.Grammar.Imports
import GrammarTrees.Proofs.Integration.Imports

/-! From the start of integration to its end: the rule section that integration begins with, and the
imports one after the other. -/

namespace GrammarTrees.Integration

open Forest

variable {f g : Forest} {root rules x t : Nat} {grammar : GrammarId} {roots : List NodeId}

/-- `g` is `f` with `rules` as the first rule section of the tree of `root`. It was there, or it is
made at the end. -/
inductive SectionReady (f : Forest) (root : NodeId) (grammar : GrammarId) : Forest → NodeId → Prop
  | found {rules : NodeId} :
      f.firstChildOfKind? root .rules = some rules → SectionReady f root grammar f rules
  | made {g : Forest} {rules : NodeId} :
      f.firstChildOfKind? root .rules = none →
      f.PlantedBelow g root [.leaf { Label.ofKind .rules with owner := some grammar }] →
      g.children root = f.children root ++ [rules] → SectionReady f root grammar g rules

theorem ruleSection_eq_ok (h : f.WellFormed) (hlt : root < f.size) (grammar : GrammarId) :
    ∃ g rules, ruleSection grammar root f = .ok (g, rules) ∧
      SectionReady f root grammar g rules := by
  rw [ruleSection]
  split
  · rename_i rules hfind
    exact ⟨f, rules, rfl, .found hfind⟩
  · rename_i hnone
    have hplanted := planted_alloc_relabel h (.ofKind .rules) fun l =>
      { l with owner := some grammar }
    obtain ⟨g, hg, hbelow, -, hchildren, -⟩ := hplanted.pushChild h hlt
    refine ⟨g, f.size, ?_, .made hnone hbelow hchildren⟩
    simp only [alloc_snd, setOwner, hg]
    rfl

namespace SectionReady

theorem of_made (hbelow : f.PlantedBelow g root
      [.leaf { Label.ofKind .rules with owner := some grammar }])
    (hchildren : g.children root = f.children root ++ [rules]) :
    g.kind rules = .rules ∧ g.children rules = [] := by
  obtain ⟨hlabel, hnil⟩ := hbelow.last hchildren
  refine ⟨?_, List.map_eq_nil_iff.mp hnil⟩
  rw [Forest.kind, hlabel]
  rfl

variable (h : f.WellFormed) (hg : SectionReady f root grammar g rules)
include hg

theorem size_le : f.size ≤ g.size := by
  cases hg with
  | found => exact Nat.le_refl _
  | made _ hbelow _ => exact hbelow.size_le

theorem node (hx : x < f.size) (hne : x ≠ root) : g.node x = f.node x := by
  cases hg with
  | found => rfl
  | made _ hbelow _ => exact hbelow.node x hx hne

theorem parent? (hx : x < f.size) : g.parent? x = f.parent? x := by
  cases hg with
  | found => rfl
  | made _ hbelow _ => exact hbelow.parent?_eq hx

theorem node_of_parent (hr : f.parent? root = none) {p : NodeId} (hp : f.parent? x = some p) :
    g.node x = f.node x := by
  exact hg.node (lt_size_of_parent?_eq hp) (ne_of_parent hr hp)

include h

theorem wellFormed : g.WellFormed := by
  cases hg with
  | found => exact h
  | made _ hbelow _ => exact hbelow.wellFormed

theorem hangs : g.parent? rules = some root := by
  cases hg with
  | found hfind => exact (of_firstChildOfKind? h hfind).1
  | made _ hbelow hchildren =>
    apply hbelow.wellFormed.mem_children.mp
    rw [hchildren]
    simp

theorem kind : g.kind rules = .rules := by
  cases hg with
  | found hfind => exact (of_firstChildOfKind? h hfind).2
  | made _ hbelow hchildren => exact (of_made hbelow hchildren).1

section Names

variable (hr : f.parent? root = none)
include hr

omit h in
theorem children_eq {p : NodeId} (hp : f.parent? x = some p) : g.children x = f.children x := by
  rw [Forest.children, hg.node_of_parent hr hp, ← Forest.children]

theorem label_eq : ∀ c ∈ f.children x, g.label c = f.label c := by
  intro c hc
  rw [Forest.label, hg.node_of_parent hr (h.mem_children.mp hc), ← Forest.label]

theorem rules_eq {own : Grammar} (hroot : own.root = root) : own.rules g = own.rules f := by
  cases id hg with
  | found => rfl
  | made _ hbelow hchildren =>
    have hnil := (of_made hbelow hchildren).2
    have hsections : g.sections root = f.sections root ++ [rules] :=
      (hbelow.sections_parent h hchildren).2
    rw [rules_eq_flatMap, rules_eq_flatMap, hroot, hsections, List.flatMap_append,
      List.flatMap_singleton, childrenOfKind, hnil, List.filter_nil, List.append_nil]
    refine List.flatMap_congr fun x hx => ?_
    exact childrenOfKind_congr (hg.children_eq hr ((mem_sections h).mp hx).1) (hg.label_eq h hr) _

theorem ruleNames_eq {own : Grammar} (hroot : own.root = root) :
    own.ruleNames g = own.ruleNames f := by
  rw [Grammar.ruleNames, Grammar.ruleNames, hg.rules_eq h hr hroot]
  refine List.map_congr_left fun r hr' => ?_
  rw [rules_eq_flatMap] at hr'
  obtain ⟨x, -, hrx⟩ := List.mem_flatMap.mp hr'
  exact sectionName_congr (hg.children_eq hr ((mem_childrenOfKind h).mp hrx).1)
    (hg.label_eq h hr)

end Names

end SectionReady

/-! ### The sections to be taken over -/

theorem mem_importSections (h : f.WellFormed) (hx : x ∈ f.importSections t) :
    f.parent? x = some t ∧ (f.kind x).holdsRules = true := by
  rcases List.mem_append.mp hx with hx | hx
  · obtain ⟨hp, hk⟩ := (mem_childrenOfKind h).mp hx
    exact ⟨hp, by rw [hk]; rfl⟩
  · obtain ⟨hp, hk⟩ := of_firstChildOfKind? h (Option.mem_toList.mp hx)
    exact ⟨hp, by rw [hk]; rfl⟩

theorem nodup_importSections (h : f.WellFormed) (t : NodeId) : (f.importSections t).Nodup := by
  refine List.nodup_append.mpr ⟨(h.nodup_children t).filter _, ?_, ?_⟩
  · cases f.firstChildOfKind? t .rules <;> simp
  · rintro a ha b hb rfl
    have hmode := ((mem_childrenOfKind h).mp ha).2
    rw [(of_firstChildOfKind? h (Option.mem_toList.mp hb)).2] at hmode
    exact Kind.noConfusion hmode

theorem setting_of_roots (h : f.WellFormed) (hr : f.parent? root = none)
    (hp : f.parent? rules = some root) (hk : f.kind rules = .rules) (hnodup : roots.Nodup)
    (hroots : ∀ t ∈ roots, f.parent? t = none ∧ t ≠ root) :
    Setting f root rules (roots.flatMap f.importSections) := by
  refine ⟨h, hr, hp, hk, ?_, fun x hx => ?_⟩
  · rw [List.nodup_flatMap]
    refine ⟨fun t _ => nodup_importSections h t, hnodup.imp fun {a b} hne x ha hb => ?_⟩
    have ha' := (mem_importSections h ha).1
    rw [(mem_importSections h hb).1] at ha'
    exact hne (Option.some.inj ha').symm
  · obtain ⟨t, ht, hxt⟩ := List.mem_flatMap.mp hx
    obtain ⟨hpt, hkx⟩ := mem_importSections h hxt
    refine ⟨⟨hkx, t, hpt, (hroots t ht).1⟩, ?_⟩
    rw [hpt]
    intro he
    exact (hroots t ht).2 (Option.some.inj he)

/-! ### All imports -/

section All

variable {todo : List NodeId} (h : Setting f root rules todo)
include h

/-- At the start nothing has been taken over. -/
theorem Setting.start {own : Grammar} (hroot : own.root = root) (grammar : GrammarId) :
    Progress f root rules grammar todo []
      ⟨f, own.ruleNames f, f.childrenOfKind own.root .mode⟩ := by
  subst hroot
  refine ⟨⟨[], (List.append_nil _).symm, .refl h.wellFormed, (List.append_nil _).symm, ?_, ?_,
    by simp, fun _ _ _ _ => rfl, fun t _ _ _ => ⟨rfl, fun x _ => ?_⟩⟩, fun n => ?_⟩
  · refine ⟨by simp, f.children own.root, (List.append_nil _).symm, rules,
      h.wellFormed.mem_children.mpr h.hangs, ?_⟩
    rw [h.kind]
    rfl
  · rw [modePlans, List.filter_nil, List.foldl_nil, List.append_nil, List.forall₂_map_left_iff,
      List.forall₂_same]
    exact fun m _ => .own (List.append_nil _).symm
  · rw [List.flatMap_nil, eq_comm, List.filter_eq_self]
    simp
  · rw [Grammar.ruleNames, List.mem_map, rules_eq_flatMap, ruleOrder, List.flatMap_nil,
      List.append_nil]
    rfl

variable {s : GrammarSet}

theorem mergeImports_progress {imports : List GrammarId} {xs : List NodeId} {m : Merge}
    (htodo : todo = xs ++ imports.flatMap fun i => f.importSections (s.grammar i).root)
    (hm : Progress f root rules grammar todo xs m.rules) (hroot : (s.grammar grammar).root = root)
    (himports : ∀ i ∈ imports, (s.grammar i).root < f.size ∧
      f.parent? (s.grammar i).root = none ∧ (s.grammar i).root ≠ root) :
    ∃ m', imports.foldlM (mergeImport s grammar rules) m = .ok m' ∧
      Progress f root rules grammar todo todo m'.rules := by
  induction imports generalizing xs m with
  | nil =>
    obtain rfl : todo = xs := by simpa using htodo
    exact ⟨m, rfl, hm⟩
  | cons i imports ih =>
    rw [List.forall_mem_cons] at himports
    obtain ⟨⟨hlt, hr, hne⟩, himports⟩ := himports
    rw [List.flatMap_cons] at htodo
    obtain ⟨k, hk, hkm⟩ := mergeImport_progress h htodo hm hroot hlt hr hne
    obtain ⟨m', hm', hprogress⟩ := ih (by rw [htodo, List.append_assoc]) hkm himports
    refine ⟨m', ?_, hprogress⟩
    rw [List.foldlM_cons, hk]
    exact hm'

end All

end GrammarTrees.Integration
