import GrammarTrees.Grammar.GrammarSet
import GrammarTrees.Proofs.Grammar.Literals
import GrammarTrees.Proofs.Integration.RuleSections
import Mathlib.Data.List.Induction

/-! The options of a grammar. They are read from the first section of options in its tree, and they
stay what they are as long as that section does. -/

namespace GrammarTrees

namespace OrderedMap

variable {κ υ ω : Type}

def mapValues (h : υ → ω) (m : OrderedMap κ υ) : OrderedMap κ ω :=
  ⟨m.entries.map fun e => (e.1, h e.2)⟩

def filterKeys (p : κ → Bool) (m : OrderedMap κ υ) : OrderedMap κ υ :=
  ⟨m.entries.filter fun e => p e.1⟩

variable [DecidableEq κ]

theorem mapValues_insert (h : υ → ω) (m : OrderedMap κ υ) (key : κ) (value : υ) :
    (m.insert key value).mapValues h = (m.mapValues h).insert key (h value) := by
  obtain ⟨es⟩ := m
  simp only [insert, mapValues, OrderedMap.mk.injEq]
  induction es with
  | nil => rfl
  | cons e es ih =>
    by_cases he : e.1 = key
    · simp [putEntry, he]
    · simp [putEntry, he, ih]

theorem filterKeys_insert (p : κ → Bool) (m : OrderedMap κ υ) (key : κ) (value : υ) :
    (m.insert key value).filterKeys p =
      if p key then (m.filterKeys p).insert key value else m.filterKeys p := by
  obtain ⟨es⟩ := m
  simp only [insert, filterKeys]
  rw [← apply_ite OrderedMap.mk, OrderedMap.mk.injEq]
  induction es with
  | nil => simp [putEntry, List.filter_cons]
  | cons e es ih =>
    by_cases he : e.1 = key
    · subst he
      by_cases hp : p e.1 = true <;> simp [putEntry, hp]
    · by_cases hp : p e.1 = true
      · simp only [putEntry, if_neg he, List.filter_cons, hp, if_true, ih]
        split <;> rfl
      · simp only [putEntry, if_neg he, List.filter_cons, if_neg hp, ih]

theorem ofList_append_singleton (es : List (κ × υ)) (e : κ × υ) :
    ofList (es ++ [e]) = (ofList es).insert e.1 e.2 := by
  rw [ofList, ofList, List.foldl_append]
  rfl

/-- A key has the last value that it is given. -/
theorem get?_ofList (es : List (κ × υ)) (key : κ) : (ofList es).get? key =
    (es.filterMap fun e => if e.1 = key then some e.2 else none).getLast? := by
  induction es using List.reverseRecOn with
  | nil => rfl
  | append_singleton es e ih =>
    rw [ofList_append_singleton, get?_insert, ih, List.filterMap_append]
    by_cases he : e.1 = key
    · simp [he]
    · simp [he, Ne.symm he]

theorem mapValues_ofList (h : υ → ω) (es : List (κ × υ)) :
    (ofList es).mapValues h = ofList (es.map fun e => (e.1, h e.2)) := by
  induction es using List.reverseRecOn with
  | nil => rfl
  | append_singleton es e ih =>
    rw [List.map_append, List.map_singleton, ofList_append_singleton, ofList_append_singleton,
      mapValues_insert, ih]

theorem filterKeys_ofList (p : κ → Bool) (es : List (κ × υ)) :
    (ofList es).filterKeys p = ofList (es.filter fun e => p e.1) := by
  induction es using List.reverseRecOn with
  | nil => rfl
  | append_singleton es e ih =>
    rw [List.filter_append, ofList_append_singleton, filterKeys_insert, ih]
    by_cases hp : p e.1 = true
    · rw [if_pos hp, List.filter_cons, if_pos hp, List.filter_nil, ofList_append_singleton]
    · rw [if_neg hp, List.filter_cons, if_neg hp, List.filter_nil, List.append_nil]

omit [DecidableEq κ] in
theorem mapValues_filterKeys (h : υ → ω) (p : κ → Bool) (m : OrderedMap κ υ) :
    (m.filterKeys p).mapValues h = (m.mapValues h).filterKeys p := by
  rw [mapValues, mapValues, filterKeys, filterKeys, List.filter_map]
  rfl

end OrderedMap

namespace Forest

variable {f g : Forest} {a c x root : Nat}

/-- The options of the grammar at `root`. -/
def optionsOf (f : Forest) (root : NodeId) : OrderedMap String NodeId :=
  ((f.firstChildOfKind? root .options).map f.readOptions).getD .empty

end Forest

/-- A grammar gets the options of its tree, and its name. -/
theorem GrammarSet.grammar_add (s : GrammarSet) (file : String) (root : NodeId) :
    ((s.add file root).1).grammar s.size =
      ⟨s.forest.sectionName root, file,
        (GrammarType.ofRootText? (s.forest.text root)).getD .combined, root,
        s.forest.optionsOf root, [], 0⟩ := by
  simp only [GrammarSet.add, GrammarSet.grammar, GrammarSet.size]
  rw [Array.getElem?_push_size, Option.getD_some, Forest.optionsOf]
  cases s.forest.firstChildOfKind? root .options <;> rfl

namespace Forest

variable {f g : Forest} {a c o x root : Nat}

/-! ### Options and trees -/

/-- The name and the value of the option that a tree describes. -/
def treeOption? : Tree Label → Option (String × Tree Label)
  | .node _ (name :: value :: _) => some (name.label.text, value)
  | _ => none

/-- The options of the grammar that a tree describes. -/
def treeOptions (t : Tree Label) : OrderedMap String (Tree Label) :=
  .ofList (((t.children.find? fun t => t.label.kind = .options).map fun t =>
    t.children.filterMap treeOption?).getD [])

theorem treeName_eq_of_treeOption? {t value : Tree Label} {name : String}
    (h : treeOption? t = some (name, value)) : treeName t = name := by
  rcases t with ⟨l, _ | ⟨⟨m, ts⟩, _ | ⟨u, us⟩⟩⟩
  · simp [treeOption?] at h
  · simp [treeOption?] at h
  · rw [treeOption?, Option.some.injEq, Prod.mk.injEq] at h
    exact h.1

section Reading

variable (hf : f.WellFormed)
include hf

theorem map_readOption? (hx : x < f.size) :
    (f.readOption? x).map (fun o => (o.1, f.bareTree o.2)) = treeOption? (f.bareTree x) := by
  rw [bareTree_eq hf hx, readOption?, child?, child?]
  cases hc : f.children x with
  | nil => rfl
  | cons name cs =>
    cases cs with
    | nil => rfl
    | cons value cs =>
      have hlt : name < f.size := hf.lt_size_of_child (hc ▸ List.mem_cons_self)
      simp only [List.map_cons, treeOption?, bareTree_eq hf hlt]
      rfl

theorem mapValues_readOptions (ho : o < f.size) : (f.readOptions o).mapValues f.bareTree =
    .ofList ((f.bareTree o).children.filterMap treeOption?) := by
  rw [readOptions, OrderedMap.mapValues_ofList, bareTree_eq hf ho, Tree.children,
    List.map_filterMap, List.filterMap_map]
  congr 1
  exact List.filterMap_congr fun c hc => map_readOption? hf (hf.lt_size_of_child hc)

theorem mapValues_optionsOf (hr : root < f.size) :
    (f.optionsOf root).mapValues f.bareTree = treeOptions (f.bareTree root) := by
  have hfind : (f.bareTree root).children.find? (fun t => t.label.kind = .options) =
      (f.firstChildOfKind? root .options).map f.bareTree := by
    rw [bareTree_eq hf hr, Tree.children, List.find?_map, firstChildOfKind?]
    simp only [Function.comp_def, kind_bareTree]
  rw [treeOptions, hfind, optionsOf]
  cases ho : f.firstChildOfKind? root .options with
  | none => rfl
  | some o =>
    have hlt : o < f.size := hf.lt_size_of_child (List.mem_of_find?_eq_some ho)
    exact mapValues_readOptions hf hlt

end Reading

theorem map_text_child? (f : Forest) (x : NodeId) (i : Nat) : (f.child? x i).map f.text =
    ((f.children x).map f.labelTree)[i]?.map fun t => t.label.text := by
  rw [child?, List.getElem?_map, Option.map_map]
  simp only [Function.comp_def, label_labelTree]
  rfl

theorem readOption?_of_name {name : String} (h : (f.child? x 0).map f.text = some name) :
    f.readOption? x = (f.child? x 1).map fun value => (name, value) := by
  obtain ⟨c, hc, rfl⟩ := Option.map_eq_some_iff.mp h
  rw [readOption?, hc]
  cases f.child? x 1 <;> rfl

/-! ### Options that stay -/

theorem readOption?_congr (hchildren : g.children x = f.children x)
    (hlabel : ∀ c ∈ f.children x, g.label c = f.label c) : g.readOption? x = f.readOption? x := by
  rw [readOption?, readOption?, child?, child?, child?, child?, hchildren]
  cases hc : (f.children x)[0]? with
  | none => rfl
  | some name =>
    have htext := text_of_label (hlabel name (List.mem_of_getElem? hc))
    cases (f.children x)[1]? with
    | none => rfl
    | some value => simp only [htext]

theorem Reowned.optionsOf (hg : f.Reowned g) (root : NodeId) :
    g.optionsOf root = f.optionsOf root := by
  have hread : ∀ x, g.readOptions x = f.readOptions x := by
    intro x
    rw [readOptions, readOptions, hg.children]
    congr 2
    funext c
    simp only [readOption?, child?, hg.children, hg.text]
  rw [Forest.optionsOf, Forest.optionsOf, firstChildOfKind?, firstChildOfKind?, hg.children]
  simp only [hg.kind, funext hread]

/-- One more option below a section of options. -/
theorem PlantedBelow.readOptions {t : Tree Label} (hf : f.WellFormed) (hg : f.PlantedBelow g o [t])
    (hc : g.children o = f.children o ++ [c]) : g.readOptions o =
      ((g.readOption? c).map fun e => (f.readOptions o).insert e.1 e.2).getD (f.readOptions o) := by
  have hkept : (f.children o).filterMap g.readOption? = (f.children o).filterMap f.readOption? := by
    refine List.filterMap_congr fun d hd => ?_
    have hp := hf.mem_children.mp hd
    exact readOption?_congr (hg.children_eq (lt_size_of_parent?_eq hp) (hf.ne_parent hp))
      fun e he => hg.label_eq (hf.lt_size_of_child he)
  rw [Forest.readOptions, Forest.readOptions, hc, List.filterMap_append, hkept]
  cases hread : g.readOption? c with
  | none => simp [hread]
  | some e =>
    simp only [List.filterMap_cons, hread, List.filterMap_nil, Option.map_some, Option.getD_some]
    exact OrderedMap.ofList_append_singleton _ e

/-- The first section of options behind others that are none. -/
theorem optionsOf_of_children {cs : List NodeId} (hc : f.children root = cs ++ [o])
    (hcs : ∀ c ∈ cs, f.kind c ≠ .options) (ho : f.kind o = .options) :
    f.optionsOf root = f.readOptions o := by
  have hnone : cs.find? (fun c => f.kind c = .options) = none := by
    rw [List.find?_eq_none]
    intro c hc
    simpa using hcs c hc
  rw [optionsOf, firstChildOfKind?, hc, List.find?_append, hnone, Option.none_or,
    List.find?_cons_of_pos (by simpa using ho)]
  rfl

/-- New sections behind the others give no options, unless they are sections of options. -/
theorem optionsOf_extended {more : List NodeId} (hf : f.WellFormed)
    (hlist : g.children root = f.children root ++ more) (hmore : ∀ c ∈ more, g.kind c ≠ .options)
    (hchildren : ∀ x, f.Within x root → x ≠ root → g.children x = f.children x)
    (hlabel : ∀ x, f.Within x root → g.label x = f.label x) :
    g.optionsOf root = f.optionsOf root := by
  have hbelow : ∀ {p c}, f.Within p root → c ∈ f.children p → f.Within c root ∧ c ≠ root := by
    intro p c hp hc
    have hcp := hf.mem_children.mp hc
    refine ⟨.of_parent hcp hp, ?_⟩
    rintro rfl
    exact hf.not_within_of_parent hcp hp
  have hfirst : g.firstChildOfKind? root .options = f.firstChildOfKind? root .options := by
    have hnone : more.find? (fun c => g.kind c = .options) = none := by
      rw [List.find?_eq_none]
      intro c hc
      simpa using hmore c hc
    rw [firstChildOfKind?, firstChildOfKind?, hlist, List.find?_append, hnone, Option.or_none]
    rw [← List.head?_filter, ← List.head?_filter]
    congr 1
    refine List.filter_congr fun c hc => ?_
    rw [kind_of_label (hlabel c (hbelow (.refl f root) hc).1)]
  rw [optionsOf, optionsOf, hfirst]
  cases ho : f.firstChildOfKind? root .options with
  | none => rfl
  | some o =>
    have hroot := hbelow (.refl f root) (List.mem_of_find?_eq_some ho)
    rw [Option.map_some, Option.map_some, readOptions, readOptions, hchildren o hroot.1 hroot.2]
    congr 3
    refine List.filterMap_congr fun c hc => ?_
    have hsection := hbelow hroot.1 hc
    exact readOption?_congr (hchildren c hsection.1 hsection.2) fun d hd =>
      hlabel d (hbelow hsection.1 hd).1

theorem PlantedBelow.optionsOf {ts : List (Tree Label)} (hf : f.WellFormed)
    (hg : f.PlantedBelow g root ts) (hr : root < f.size)
    (hts : ∀ t ∈ ts, t.label.kind ≠ .options) : g.optionsOf root = f.optionsOf root := by
  obtain ⟨roots, hroots, htrees⟩ := hg.children_parent
  refine optionsOf_extended hf hroots (fun c hc => ?_) (fun x hx hne => ?_) fun x hx => ?_
  · have hmem := List.mem_map_of_mem (f := g.labelTree) hc
    rw [htrees] at hmem
    have hkind := hts _ hmem
    rwa [label_labelTree, ← Forest.kind] at hkind
  · exact hg.children_eq (hx.lt_size hr) hne
  · exact hg.label_eq (hx.lt_size hr)

end Forest

end GrammarTrees
