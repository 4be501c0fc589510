import GrammarTrees.Proofs.Integration.Precedence
import Mathlib.Data.List.Induction

/-! How far rules have been taken over: what the sections of a grammar and of its imports hold after
the rules of some of the imported sections have been. -/

namespace GrammarTrees.Integration

open Forest

/-- A grammar at `root` with its first rule section `rules`, and the sections `todo` of other trees
whose rules it is to take over. -/
structure Setting (f : Forest) (root rules : NodeId) (todo : List NodeId) : Prop where
  wellFormed : f.WellFormed
  isRoot : f.parent? root = none
  hangs : f.parent? rules = some root
  kind : f.kind rules = .rules
  nodup : todo.Nodup
  foreign : ∀ x ∈ todo, f.RuleSection x ∧ f.parent? x ≠ some root

/-- In `g`, the rules of the sections `xs` of `f` have been taken over, and the modes `made` have
been made for it. -/
structure Taken (f : Forest) (root rules : NodeId) (grammar : GrammarId) (order xs : List NodeId)
    (made : List NodeId) (g : Forest) : Prop where
  carried : f.Carried g
  sections : g.sections root = f.sections root ++ made
  ends : g.Ends root made
  modes : List.Forall₂ (ModePlan.Realized f g grammar) (f.modePlans root order xs)
    (f.childrenOfKind root .mode ++ made)
  own : g.children rules =
    f.children rules ++ (xs.filter (f.kind · = .rules)).flatMap (f.firstRules order)
  others : ∀ x, f.parent? x = some root → f.kind x = .rules → x ≠ rules →
    g.children x = f.children x
  imports : ∀ t < f.size, f.parent? t = none → t ≠ root → g.sections t = f.sections t ∧
    ∀ x ∈ f.sections t,
      g.children x = (f.children x).filter (· ∉ xs.flatMap (f.firstRules order))

variable {f g k : Forest} {root rules x y t : Nat} {grammar : GrammarId}
  {todo order xs rest made : List NodeId}

theorem mem_firstRules (h : f.WellFormed) {r : NodeId} (hr : r ∈ f.firstRules order x) :
    f.parent? r = some x ∧ f.kind r = .rule ∧ f.isFirst order r = true := by
  rw [firstRules, List.mem_filter, sectionRules, mem_childrenOfKind h] at hr
  exact ⟨hr.1.1, hr.1.2, hr.2⟩

theorem nodup_firstRules (h : f.WellFormed) (order : List NodeId) (x : NodeId) :
    (f.firstRules order x).Nodup := ((h.nodup_children x).filter _).filter _

theorem forall₂_of_mem {α β : Type} {R R' : α → β → Prop} {l : List α} {l' : List β}
    (h : List.Forall₂ R l l') (himp : ∀ a ∈ l, ∀ b ∈ l', R a b → R' a b) :
    List.Forall₂ R' l l' := by
  induction h with
  | nil => exact .nil
  | @cons a b as bs hab _ ih =>
    refine .cons (himp a (by simp) b (by simp) hab) (ih fun c hc d hd => ?_)
    exact himp c (List.mem_cons_of_mem a hc) d (List.mem_cons_of_mem b hd)

theorem exists_of_mem_forall₂ {α β : Type} {R : α → β → Prop} {l : List α} {l' : List β}
    (h : List.Forall₂ R l l') {b : β} (hb : b ∈ l') : ∃ a ∈ l, R a b := by
  induction h with
  | nil => simp at hb
  | @cons a c as cs hac _ ih =>
    rcases List.mem_cons.mp hb with rfl | hb
    · exact ⟨a, by simp, hac⟩
    · obtain ⟨d, hd, hdb⟩ := ih hb
      exact ⟨d, List.mem_cons_of_mem a hd, hdb⟩

theorem nodup_flatMap_sectionRules (h : f.WellFormed) {l : List NodeId} (hl : l.Nodup) :
    (l.flatMap f.sectionRules).Nodup := by
  rw [List.nodup_flatMap]
  refine ⟨fun a _ => (h.nodup_children a).filter _, hl.imp fun {a b} hne r ha hb => ?_⟩
  have ha' := ((mem_childrenOfKind h).mp ha).1
  have hb' := ((mem_childrenOfKind h).mp hb).1
  exact hne (Option.some.inj (ha'.symm.trans hb'))

/-! ### The setting -/

namespace Setting

variable (h : Setting f root rules todo)
include h

theorem root_lt : root < f.size := h.wellFormed.lt_size_of_parent h.hangs

theorem ruleSection : f.RuleSection rules :=
  ⟨by rw [h.kind]; rfl, root, h.hangs, h.isRoot⟩

theorem nodup_order : (f.ruleOrder root todo).Nodup := by
  have hsections : (f.sections root ++ todo).Nodup := by
    refine List.nodup_append.mpr ⟨(h.wellFormed.nodup_children root).filter _, h.nodup, ?_⟩
    rintro a ha b hb rfl
    exact (h.foreign a hb).2 ((mem_sections h.wellFormed).mp ha).1
  rw [ruleOrder, ← List.flatMap_append]
  exact nodup_flatMap_sectionRules h.wellFormed hsections

theorem rulePart {r : NodeId} (hr : r ∈ f.ruleOrder root todo) : f.RulePart r := by
  rcases List.mem_append.mp hr with hr | hr
  · obtain ⟨x, hx, hrx⟩ := List.mem_flatMap.mp hr
    exact ⟨x, ruleSection_of_mem h.wellFormed h.isRoot hx,
      ((mem_childrenOfKind h.wellFormed).mp hrx).1⟩
  · obtain ⟨x, hx, hrx⟩ := List.mem_flatMap.mp hr
    exact ⟨x, (h.foreign x hx).1, ((mem_childrenOfKind h.wellFormed).mp hrx).1⟩

/-- Rules taken from other sections are no children of a section. -/
theorem filter_children (order : List NodeId) (hy : y ∉ xs) (zs : List NodeId) :
    ((f.children y).filter fun c => decide (c ∉ (xs ++ zs).flatMap (f.firstRules order))) =
      (f.children y).filter fun c => decide (c ∉ zs.flatMap (f.firstRules order)) := by
  apply List.filter_congr
  intro c hc
  have hnot : c ∉ xs.flatMap (f.firstRules order) := by
    intro hmem
    obtain ⟨z, hz, hcz⟩ := List.mem_flatMap.mp hmem
    have hcz := (mem_firstRules h.wellFormed hcz).1
    rw [h.wellFormed.mem_children.mp hc] at hcz
    exact hy (Option.some.inj hcz ▸ hz)
  simp only [List.flatMap_append, List.mem_append, hnot, false_or]

end Setting

/-! ### Plans -/

theorem modePlans_append (f : Forest) (root : NodeId) (order xs : List NodeId) (x : NodeId) :
    f.modePlans root order (xs ++ [x]) =
      if f.kind x = .mode then ModePlan.place f x (f.firstRules order x) (f.modePlans root order xs)
      else f.modePlans root order xs := by
  rw [modePlans, List.filter_append, List.foldl_append, ← modePlans]
  by_cases hk : f.kind x = .mode
  · rw [if_pos hk, List.filter_cons_of_pos (by simpa using hk)]
    rfl
  · rw [if_neg hk, List.filter_cons_of_neg (by simpa using hk)]
    rfl

/-- Plans speak of sections that hold rules, copies are planned of modes that have been seen, and
rules are taken from sections that have been. -/
theorem mem_modePlans (h : f.WellFormed) (hroot : f.parent? root = none)
    (hxs : ∀ x ∈ xs, f.RuleSection x) {p : ModePlan} (hp : p ∈ f.modePlans root order xs) :
    f.RuleSection p.mode ∧ (p.copied = true → p.mode ∈ xs ∧ f.kind p.mode = .mode) ∧
      ∀ r ∈ p.rules, r ∈ xs.flatMap (f.firstRules order) := by
  induction xs using List.reverseRecOn generalizing p with
  | nil =>
    obtain ⟨m, hm, rfl⟩ := List.mem_map.mp hp
    obtain ⟨hpar, hk⟩ := (mem_childrenOfKind h).mp hm
    exact ⟨⟨by rw [hk]; rfl, root, hpar, hroot⟩, by simp, by simp⟩
  | append_singleton xs x ih =>
    have ih := fun {q : ModePlan} => ih (p := q) fun y hy => hxs y (List.mem_append_left _ hy)
    have hleft : ∀ r, r ∈ xs.flatMap (f.firstRules order) →
        r ∈ (xs ++ [x]).flatMap (f.firstRules order) := by
      intro r hr
      rw [List.flatMap_append]
      exact List.mem_append_left _ hr
    rw [modePlans_append] at hp
    split at hp
    · rename_i hk
      obtain ⟨hmode, hrules⟩ := mem_place hp
      refine ⟨?_, fun hcopied => ?_, fun r hr => ?_⟩
      · rcases hmode with he | ⟨q, hq, he, -⟩
        · rw [he]
          exact hxs x (by simp)
        · rw [he]
          exact (ih hq).1
      · rcases hmode with he | ⟨q, hq, he, hqc⟩
        · rw [he]
          exact ⟨by simp, hk⟩
        · obtain ⟨hmem, hkq⟩ := (ih hq).2.1 (hqc ▸ hcopied)
          rw [he]
          exact ⟨List.mem_append_left _ hmem, hkq⟩
      · rcases hrules r hr with hr | ⟨q, hq, hr⟩
        · rw [List.flatMap_append]
          exact List.mem_append_right _ (by simpa using hr)
        · exact hleft r ((ih hq).2.2 r hr)
    · obtain ⟨hmode, hcopied, hrules⟩ := ih hp
      exact ⟨hmode, fun hc => ⟨List.mem_append_left _ (hcopied hc).1, (hcopied hc).2⟩,
        fun r hr => hleft r (hrules r hr)⟩

/-- The rules that modes give away are planned for. -/
theorem exists_mem_modePlans (root : NodeId) {r : NodeId} (hx : x ∈ xs) (hk : f.kind x = .mode)
    (hr : r ∈ f.firstRules order x) : ∃ p ∈ f.modePlans root order xs, r ∈ p.rules := by
  induction xs using List.reverseRecOn with
  | nil => simp at hx
  | append_singleton xs y ih =>
    rw [modePlans_append]
    rcases List.mem_append.mp hx with hx | hx
    · obtain ⟨p, hp, hrp⟩ := ih hx
      split
      · exact exists_mem_place (.inr ⟨p, hp, hrp⟩)
      · exact ⟨p, hp, hrp⟩
    · obtain rfl := List.mem_singleton.mp hx
      rw [if_pos hk]
      exact exists_mem_place (.inl hr)

/-- A mode stays what it has become while it and its children stay as they are. -/
theorem realized_congr {p : ModePlan} {m : NodeId} (h : ModePlan.Realized f g grammar p m)
    (hm : k.label m = g.label m ∧ k.children m = g.children m)
    (hbelow : ∀ c ∈ g.children m, k.label c = g.label c ∧ k.children c = g.children c) :
    ModePlan.Realized f k grammar p m := by
  cases h with
  | own hc => exact .own (hm.2.trans hc)
  | @copy mode name copy leaf rules hlt hlabel hname hc hleaf hnil hnew =>
    obtain ⟨h1, h2⟩ := hbelow leaf (by rw [hc]; simp)
    exact .copy hlt (hm.1.trans hlabel) hname (hm.2.trans hc) (h1.trans hleaf) (h2.trans hnil) hnew

theorem realized_name {p : ModePlan} {m : NodeId} (hf : f.WellFormed) (hg : f.Carried g)
    (hmode : f.RuleSection p.mode) (hrules : ∀ r ∈ p.rules, f.RulePart r)
    (h : ModePlan.Realized f g grammar p m) : g.sectionName m = p.name f := by
  have hname : ∀ (m : NodeId), g.sectionName m = ((g.children m).head?.map g.text).getD "" := by
    intro m
    rw [sectionName, child?, List.head?_eq_getElem?]
  rw [hname, ModePlan.name]
  cases h with
  | @own m rules hc =>
    have htext : ∀ c ∈ f.children m ++ rules, g.text c = f.text c := by
      intro c hcm
      have hpart : f.RulePart c := by
        rcases List.mem_append.mp hcm with hcm | hcm
        · exact ⟨m, hmode, hf.mem_children.mp hcm⟩
        · exact hrules c hcm
      exact text_of_label (hg.below c c hpart (.refl f c)).1
    simp only [hc]
    cases hl : f.children m ++ rules with
    | nil => rfl
    | cons c cs =>
      rw [List.head?_cons, Option.map_some, Option.map_some, htext c (by rw [hl]; simp)]
  | @copy mode name copy leaf rules _ _ hchild hc hleaf _ _ =>
    obtain ⟨cs, hcs⟩ : ∃ cs, f.children mode = name :: cs := by
      rw [child?] at hchild
      cases hl : f.children mode with
      | nil => simp [hl] at hchild
      | cons c cs =>
        rw [hl] at hchild
        exact ⟨cs, by rw [show c = name by simpa using hchild]⟩
    rw [hc, hcs]
    simp [text_of_label hleaf]

/-! ### What has been taken -/

namespace Taken

section

variable (h : Setting f root rules todo) (ht : Taken f root rules grammar order xs made g)
include h ht

theorem root_lt : root < g.size := Nat.lt_of_lt_of_le h.root_lt ht.carried.size_le

theorem isRoot : g.parent? root = none := ht.carried.roots root h.root_lt h.isRoot

theorem mem_sections_of_mode {m : NodeId} (hm : m ∈ f.childrenOfKind root .mode ++ made) :
    m ∈ g.sections root := by
  rw [ht.sections]
  rcases List.mem_append.mp hm with hm | hm
  · obtain ⟨hp, hk⟩ := (mem_childrenOfKind h.wellFormed).mp hm
    exact List.mem_append_left _ ((mem_sections h.wellFormed).mpr ⟨hp, by rw [hk]; rfl⟩)
  · exact List.mem_append_right _ hm

theorem ruleSection_of_mode {m : NodeId} (hm : m ∈ f.childrenOfKind root .mode ++ made) :
    g.RuleSection m :=
  ruleSection_of_mem ht.carried.wellFormed (ht.isRoot h) (ht.mem_sections_of_mode h hm)

/-- Nothing that has been taken changes with what stands apart from the sections. -/
theorem apart (hk : g.Apart k) : Taken f root rules grammar order xs made k := by
  have hg := ht.carried.wellFormed
  have hroot := ht.isRoot h
  have hlt := ht.root_lt h
  have hsame : ∀ x, f.RuleSection x → k.children x = g.children x := by
    intro x hx
    exact (hk.below x x (ht.carried.ruleSection h.wellFormed hx) (.refl g x)).2
  refine ⟨ht.carried.trans h.wellFormed (hk.carried hg), (hk.sections root hlt hroot).trans
    ht.sections, hk.ends root hlt hroot made ht.ends, ?_, ?_, fun x hp hkind hne => ?_,
    fun t htlt htroot hne => ⟨?_, fun x hx => ?_⟩⟩
  · refine forall₂_of_mem ht.modes fun p _ m hm hpm => ?_
    have hs := ht.ruleSection_of_mode h hm
    refine realized_congr hpm (hk.below m m hs (.refl g m)) fun c hc => ?_
    exact hk.below c m hs (.of_parent (hg.mem_children.mp hc) (.refl g m))
  · rw [hsame rules h.ruleSection, ht.own]
  · rw [hsame x ⟨by rw [hkind]; rfl, root, hp, h.isRoot⟩, ht.others x hp hkind hne]
  · rw [hk.sections t (Nat.lt_of_lt_of_le htlt ht.carried.size_le)
      (ht.carried.roots t htlt htroot), (ht.imports t htlt htroot hne).1]
  · rw [hsame x (ruleSection_of_mem h.wellFormed htroot hx), (ht.imports t htlt htroot hne).2 x hx]

end

end Taken

end GrammarTrees.Integration
