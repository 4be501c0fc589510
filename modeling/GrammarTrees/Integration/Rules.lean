import GrammarTrees.Forest.Copy
import GrammarTrees.Grammar.Basic

/-! Taking over the modes and the rules of an imported grammar. A rule is moved unless the grammar
has a rule of its name, in whatever mode. -/

namespace GrammarTrees.Integration

/-- What taking over rules has come to: the forest, the names of all rules of the grammar, and its
modes. -/
structure RuleMerge where
  forest : Forest
  names : List String
  modes : List NodeId

/-- The rules with new names, the first of each name, and the names known after them. -/
def newRules (f : Forest) : (names : List String) → List NodeId → List NodeId × List String
  | names, [] => ([], names)
  | names, rule :: rules =>
    let name := f.sectionName rule
    if names.contains name then newRules f names rules
    else
      let (found, names) := newRules f (names ++ [name]) rules
      (rule :: found, names)

/-- A new mode with the name of `mode` and no rules. -/
def copyMode (grammar : GrammarId) (mode : NodeId) (f : Forest) :
    Except EditFault (Forest × NodeId) :=
  let (f, copy) := f.copyNode mode
  let f := f.setOwner copy grammar
  match f.child? mode 0 with
  | none => .ok (f, copy)
  | some name => do
    let (f, name) := f.copyNode name
    let f ← f.pushChild copy name
    return (f, copy)

namespace RuleMerge

/-- Takes over the new rules of a mode: into the grammar's mode of that name, or else into a new one
at its end. A new mode that gets no rules is left aside. -/
def addMode (grammar : GrammarId) (root : NodeId) (m : RuleMerge) (mode : NodeId) :
    Except EditFault RuleMerge := do
  let f := m.forest
  let name := f.sectionName mode
  let (rules, names) := newRules f m.names (f.childrenOfKind mode .rule)
  match m.modes.find? fun other => f.sectionName other = name with
  | some target =>
    let f ← f.pushChildren target rules
    return ⟨f, names, m.modes⟩
  | none =>
    let (f, target) ← copyMode grammar mode f
    let f ← f.pushChildren target rules
    if rules.isEmpty then return ⟨f, names, m.modes⟩
    let f ← f.pushChild root target
    return ⟨f, names, m.modes ++ [target]⟩

def addModes (grammar : GrammarId) (root importRoot : NodeId) (m : RuleMerge) :
    Except EditFault RuleMerge :=
  (m.forest.childrenOfKind importRoot .mode).foldlM (addMode grammar root) m

/-- Takes over the new rules outside of modes to the end of the section `rules`. -/
def addRules (rules importRoot : NodeId) (m : RuleMerge) : Except EditFault RuleMerge :=
  let f := m.forest
  match f.firstChildOfKind? importRoot .rules with
  | none => .ok m
  | some imported => do
    let (found, names) := newRules f m.names (f.childrenOfKind imported .rule)
    let f ← f.pushChildren rules found
    return { m with forest := f, names }

end RuleMerge

end GrammarTrees.Integration
