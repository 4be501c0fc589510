import GrammarTrees.Proofs.Forest.NewTrees
import GrammarTrees.Proofs.Grammar.Transforms
import GrammarTrees.Proofs.TreeText.Descent

/-! Loading a grammar. Whatever is read, the trees that stand in the forest are left alone. What was
made before an error stays behind as trees of their own, which belong to no grammar. -/

namespace GrammarTrees

open Forest TreeText

theorem Forest.owner_setOwnerBelow {f : Forest} {x root owner : Nat} (h : f.WellFormed)
    (hroot : root < f.size) (hx : f.Within x root) :
    (f.setOwnerBelow root owner).owner x = some owner := by
  exact owner_setOwnerBelow_of_mem ((mem_preorder h hroot).mpr hx) (hx.lt_size hroot)

namespace GrammarSet

variable {s t : GrammarSet} {result : Except ReadError GrammarId} {f : Forest} {root : Nat}
  {source : String}

/-- `g` is the grammar of all new nodes. -/
structure Registered (s t : GrammarSet) (id : GrammarId) (g : Grammar) : Prop where
  id_eq : id = s.size
  grammars : t.grammars = s.grammars.push g
  isRoot : t.forest.parent? g.root = none
  within_iff : ∀ x, t.forest.Within x g.root ↔ s.forest.size ≤ x ∧ x < t.forest.size
  owner : ∀ x, t.forest.Within x g.root → t.forest.owner x = some id

/-- `t` is `s` after a source was read with the given result. -/
structure Loaded (s t : GrammarSet) (result : Except ReadError GrammarId) : Prop where
  wellFormed : t.forest.WellFormed
  size_le : s.forest.size ≤ t.forest.size
  /-- The nodes from before keep all their data. -/
  node : ∀ x < s.forest.size, t.forest.node x = s.forest.node x
  /-- No tree has both old and new nodes. -/
  apart : ∀ x y, t.forest.Within x y → (x < s.forest.size ↔ y < s.forest.size)
  /-- Every new node belongs to a new tree. -/
  newTree : ∀ x, s.forest.size ≤ x → x < t.forest.size →
    ∃ root, s.forest.size ≤ root ∧ t.forest.parent? root = none ∧ t.forest.Within x root
  refused : ∀ e, result = .error e → t.grammars = s.grammars
  registered : ∀ id, result = .ok id → ∃ g, s.Registered t id g

/-- Where the forest has grown, old and new trees stand apart. -/
theorem loaded_of_grown (h : s.forest.WellFormed) (hg : s.forest.Grown t.forest)
    (hrefused : ∀ e, result = .error e → t.grammars = s.grammars)
    (hregistered : ∀ id, result = .ok id → ∃ g, s.Registered t id g) : s.Loaded t result :=
  ⟨hg.wellFormed, hg.size_le, hg.node, fun _ _ hw => hg.lt_size_iff_of_within h hw,
    fun _ hle hlt => hg.exists_new_root h hle hlt, hrefused, hregistered⟩

/-- A tree that was read becomes a grammar. -/
theorem registered_add (h : s.forest.WellFormed) (file : String)
    (hread : s.forest.read source = (f, .ok root)) :
    ∃ g, s.Registered ((s.withForest f).add file root).1 s.size g := by
  obtain ⟨t, ht, hplanted⟩ := planted_of_read h hread
  have howned := reowned_setOwnerBelow hplanted.wellFormed root s.size
  rw [read_of_ok ht] at hread
  obtain ⟨rfl, hroot⟩ := Prod.mk.inj hread
  obtain rfl := Except.ok.inj hroot
  refine ⟨_, rfl, rfl, (howned.parent? _).trans hplanted.isRoot, fun x => ?_, fun x hx => ?_⟩
  · exact howned.within.trans ((within_plant_iff h t).trans (by rw [← howned.size]; rfl))
  · exact owner_setOwnerBelow hplanted.wellFormed hplanted.root_lt (howned.within.mp hx)

/-- Whatever is read, and wherever reading stops, the old trees stay as they are and the new nodes
form trees of their own. Only a tree that was read to the end is registered. -/
theorem load_loaded (h : s.forest.WellFormed) (file source : String) :
    readInPlace s.forest source = .ok (s.forest.read source) ∧
      s.Loaded (s.load file source).1 (s.load file source).2 := by
  refine ⟨readInPlace_eq h source, ?_⟩
  have hgrown := grown_read h source
  rw [load]
  rcases hread : s.forest.read source with ⟨f, e | root⟩
  · rw [hread] at hgrown
    refine loaded_of_grown h hgrown (fun _ _ => rfl) fun id hid => ?_
    cases hid
  · obtain ⟨t, -, hplanted⟩ := planted_of_read h hread
    have howned := hplanted.toGrown.setOwnerBelow h (Nat.le_of_eq hplanted.root_eq.symm) s.size
    refine loaded_of_grown h howned (fun e he => ?_) fun id hid => ?_
    · cases he
    · obtain rfl := Except.ok.inj hid
      exact registered_add h file hread

/-- A set with one grammar, of two nodes. -/
def namedSet : GrammarSet := (empty.load "A.g4" "(GRAMMAR ID:A)").1

/-- A text that ends inside two open nodes leaves three nodes behind. -/
def brokenLoad : GrammarSet × Except ReadError GrammarId :=
  namedSet.load "B.g4" "(GRAMMAR ID:B (RULES"

def wholeLoad : GrammarSet × Except ReadError GrammarId :=
  namedSet.load "B.g4" "(GRAMMAR ID:B (RULES))"

theorem load_loaded_broken :
    namedSet.size = 1 ∧ namedSet.forest.size = 2 ∧
    namedSet.Loaded brokenLoad.1 brokenLoad.2 ∧ brokenLoad.2 = .error (.unexpectedEnd .closing) ∧
    brokenLoad.1.forest.size = 5 ∧ brokenLoad.1.size = 1 ∧
    namedSet.Loaded wholeLoad.1 wholeLoad.2 ∧ wholeLoad.2 = .ok 1 ∧
    wholeLoad.1.forest.size = 5 ∧ wholeLoad.1.size = 2 := by
  have h : namedSet.forest.WellFormed :=
    (load_loaded (s := empty) .empty "A.g4" "(GRAMMAR ID:A)").2.wellFormed
  exact ⟨by decide +kernel, by decide +kernel, (load_loaded h _ _).2, by decide +kernel,
    by decide +kernel, by decide +kernel, (load_loaded h _ _).2, by decide +kernel,
    by decide +kernel, by decide +kernel⟩

end GrammarSet

end GrammarTrees
