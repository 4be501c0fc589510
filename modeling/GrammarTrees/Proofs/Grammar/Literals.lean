import GrammarTrees.Grammar.Literals
import GrammarTrees.Proofs.Forest.Gathering
import Mathlib.Data.List.Perm.Subperm
import Mathlib.Order.Bounds.Basic

/-! The string literals of a tree do not depend on who owns its nodes, and the names made for their
rules are free and different from each other. -/

namespace GrammarTrees

/-! ### Names -/

theorem literalRuleName_injective {m n : Nat} (h : literalRuleName m = literalRuleName n) :
    m = n := by
  have hrepr : Nat.repr m = Nat.repr n := (String.append_right_inj _).mp h
  have hdigits : Nat.toDigits 10 m = Nat.toDigits 10 n := by
    rw [← Nat.toList_repr, hrepr, Nat.toList_repr]
  rw [← Nat.ofDigitChars_ten_toDigits (n := m), hdigits, Nat.ofDigitChars_ten_toDigits]

/-- Among more numbers than there are names taken, one has a name that is not. -/
theorem exists_free_number (taken : List String) (start : Nat) :
    ∃ n ∈ (List.range (taken.length + 1)).map (start + ·), literalRuleName n ∉ taken := by
  by_contra hall
  have hmem : ∀ name ∈ (List.range (taken.length + 1)).map (fun i => literalRuleName (start + i)),
      name ∈ taken := by
    intro name hname
    obtain ⟨i, hi, rfl⟩ := List.mem_map.mp hname
    by_contra hnot
    exact hall ⟨start + i, List.mem_map_of_mem hi, hnot⟩
  have hnodup : ((List.range (taken.length + 1)).map
      (fun i => literalRuleName (start + i))).Nodup := by
    refine List.nodup_range.map fun a b hab => ?_
    have := literalRuleName_injective hab
    omega
  have hlength := (List.subperm_of_subset hnodup hmem).length_le
  rw [List.length_map, List.length_range] at hlength
  omega

/-- The number that is found is the least free one, and no further away than the names that are
taken are many. -/
theorem isLeast_freeLiteralNumber (taken : List String) (start : Nat) :
    IsLeast {n | start ≤ n ∧ literalRuleName n ∉ taken} (freeLiteralNumber taken start) ∧
      freeLiteralNumber taken start ≤ start + taken.length := by
  rw [freeLiteralNumber, List.find?_map]
  cases hfind : (List.range (taken.length + 1)).find?
      ((fun n => !taken.contains (literalRuleName n)) ∘ (start + ·)) with
  | none =>
    obtain ⟨n, hn, hfree⟩ := exists_free_number taken start
    obtain ⟨i, hi, rfl⟩ := List.mem_map.mp hn
    have := List.find?_eq_none.mp hfind i hi
    simp [hfree] at this
  | some i =>
    obtain ⟨hfree, hi, hbefore⟩ := List.find?_range_eq_some.mp hfind
    rw [Option.map_some, Option.getD_some]
    refine ⟨⟨⟨Nat.le_add_right start i, by simpa using hfree⟩, fun n ⟨hn, hnfree⟩ => ?_⟩, ?_⟩
    · by_contra hlt
      have := hbefore (n - start) (by omega)
      rw [Function.comp_apply, show start + (n - start) = n by omega] at this
      simp [hnfree] at this
    · have := List.mem_range.mp hi
      omega

theorem freeLiteralNumber_spec (taken : List String) (start : Nat) :
    start ≤ freeLiteralNumber taken start ∧
      literalRuleName (freeLiteralNumber taken start) ∉ taken :=
  (isLeast_freeLiteralNumber taken start).1.1

/-! ### Labels without owners -/

/-- The label without its owner. -/
def Label.unowned (l : Label) : Label := { l with owner := none }

namespace Forest

variable {f g : Forest} {a x : Nat}

theorem unowned_kind (f : Forest) (x : NodeId) : (f.label x).unowned.kind = f.kind x := rfl

theorem unowned_text (f : Forest) (x : NodeId) : (f.label x).unowned.text = f.text x := rfl

/-- The tree below a node, whoever owns it. -/
def bareTree (f : Forest) (a : NodeId) : Tree Label := (f.labelTree a).map Label.unowned

theorem bareTree_eq (h : f.WellFormed) (ha : a < f.size) :
    f.bareTree a = .node (f.label a).unowned ((f.children a).map f.bareTree) := by
  rw [bareTree, labelTree_eq h ha, Tree.map_node, List.map_map]
  rfl

theorem label_bareTree (f : Forest) (a : NodeId) : (f.bareTree a).label = (f.label a).unowned := by
  rw [bareTree, Tree.label_map, label_labelTree]

theorem kind_bareTree (f : Forest) (a : NodeId) : (f.bareTree a).label.kind = f.kind a := by
  rw [label_bareTree, unowned_kind]

theorem Reowned.bareTree (hf : f.WellFormed) (hg : f.Reowned g) (ha : a < f.size) :
    g.bareTree a = f.bareTree a := by
  refine hf.induction_down (P := fun a => g.bareTree a = f.bareTree a) (fun a ha ih => ?_) ha
  obtain ⟨owner, hl⟩ := hg.label a
  rw [bareTree_eq hf ha, bareTree_eq hg.wellFormed (hg.size ▸ ha), hl, hg.children]
  congr 1
  exact List.map_congr_left fun c hc => ih c hc

theorem Reowned.rules (hg : f.Reowned g) (own : Grammar) : own.rules g = own.rules f := by
  simp only [Grammar.rules, childrenOfKind, hg.children, hg.kind]

end Forest

/-! ### Names in trees -/

/-- The name of the rule that a tree describes. -/
def treeName : Tree Label → String
  | .node _ (.node name _ :: _) => name.text
  | _ => ""

theorem Forest.sectionName_eq {f : Forest} {x : Nat} (h : f.WellFormed) (hx : x < f.size) :
    f.sectionName x = treeName (f.bareTree x) := by
  rw [sectionName, child?, bareTree_eq h hx]
  cases hc : f.children x with
  | nil => rfl
  | cons c cs =>
    have hlt : c < f.size := h.lt_size_of_child (hc ▸ List.mem_cons_self)
    rw [List.map_cons, bareTree_eq h hlt]
    rfl

/-! ### Literals -/

mutual

/-- Owners do not matter for the literals of a tree. -/
theorem literalsOf_unowned : (t : Tree Label) → literalsOf (t.map Label.unowned) = literalsOf t
  | .node l ts => by
    rw [Tree.map, literalsOf, literalsOf, literalsOfAll_unowned ts]
    rfl

theorem literalsOfAll_unowned : (ts : List (Tree Label)) →
    literalsOfAll (Tree.mapAll Label.unowned ts) = literalsOfAll ts
  | [] => rfl
  | t :: ts => by
    rw [Tree.mapAll, literalsOfAll, literalsOfAll, literalsOf_unowned t, literalsOfAll_unowned ts]

end

theorem stringLiterals_congr {own : Grammar} {f g : Forest} (hrules : own.rules g = own.rules f)
    (htrees : ∀ r ∈ own.rules f, g.bareTree r = f.bareTree r) :
    own.stringLiterals g = own.stringLiterals f := by
  rw [Grammar.stringLiterals, Grammar.stringLiterals, hrules]
  congr 1
  refine List.flatMap_congr fun r hr => ?_
  rw [← literalsOf_unowned, ← literalsOf_unowned (f.labelTree r)]
  exact congrArg literalsOf (htrees r hr)

theorem nodup_eraseDups (l : List String) : l.eraseDups.Nodup := by
  obtain ⟨n, hn⟩ : ∃ n, l.length = n := ⟨_, rfl⟩
  induction n using Nat.strongRecOn generalizing l with
  | ind n ih =>
    cases l with
    | nil => simp
    | cons a l =>
      rw [List.eraseDups_cons, List.nodup_cons]
      refine ⟨by simp, ih _ ?_ _ rfl⟩
      have := List.length_filter_le (fun b => !b == a) l
      rw [List.length_cons] at hn
      omega

end GrammarTrees
