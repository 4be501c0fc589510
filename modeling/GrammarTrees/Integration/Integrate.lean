import GrammarTrees.Grammar.GrammarSet
import GrammarTrees.Integration.NamedActions
import GrammarTrees.Integration.Rules
import GrammarTrees.Integration.Tokens

/-! Integration of imports: everything that a grammar imports, directly or not, is merged into its
tree, import by import. What comes first wins: the grammar itself, and then earlier imports. -/

namespace GrammarTrees

namespace Integration

/-- The warning about an imported grammar one of whose options has another value in the grammar that
imports it. Options of only one of the two are not compared. -/
def optionReport (s : GrammarSet) (f : Forest) (grammar imported : GrammarId) : Report :=
  let own := s.grammar grammar
  let other := s.grammar imported
  match f.firstChildOfKind? other.root .options with
  | none => []
  | some options =>
    let differs := other.options.keys.any fun name =>
      match other.optionText? f name, own.optionText? f name with
      | some theirs, some ours => decide (theirs ≠ ours)
      | _, _ => false
    if differs then
      [(((Diagnostic.of .optionsInDelegate).inFile other.file).located (f.position options)
        (f.range options)).withDetail other.name]
    else []

/-- What integration has come to: the rules and modes taken over, the named actions reported as
repeated, and all reports. -/
structure Merge where
  rules : RuleMerge
  repeated : List NodeId
  report : Report

/-- The first rule section of the grammar at `root`, which is made at its end if there is none. -/
def ruleSection (grammar : GrammarId) (root : NodeId) (f : Forest) :
    Except EditFault (Forest × NodeId) :=
  match f.firstChildOfKind? root .rules with
  | some rules => .ok (f, rules)
  | none => do
    let (f, rules) := f.alloc (.ofKind .rules)
    let f ← (f.setOwner rules grammar).pushChild root rules
    return (f, rules)

/-- The file of a grammar, or of `grammar` if none is given. -/
def fileOf (s : GrammarSet) (grammar : GrammarId) (owner : Option GrammarId) : String :=
  (s.grammar (owner.getD grammar)).file

def mergeImport (s : GrammarSet) (grammar : GrammarId) (rules : NodeId) (m : Merge)
    (imported : GrammarId) : Except EditFault Merge := do
  let own := s.grammar grammar
  let importRoot := (s.grammar imported).root
  let f ← mergeChannels grammar own.root importRoot m.rules.forest
  let f ← mergeTokens grammar own.root importRoot f
  let (f, repeated, report) ←
    mergeActions own.type.defaultScope (fileOf s grammar) own.root importRoot m.repeated f
  let merged ← RuleMerge.addModes grammar own.root importRoot { m.rules with forest := f }
  let merged ← RuleMerge.addRules rules importRoot merged
  return ⟨merged, repeated, m.report ++ report ++ optionReport s merged.forest grammar imported⟩

end Integration

open Integration in
/-- Merges all imports of a grammar into its tree. A grammar without imports stays as it is. -/
def GrammarSet.integrateImports (s : GrammarSet) (grammar : GrammarId) :
    Except EditFault (GrammarSet × Report) :=
  let imports := s.allImports grammar
  if imports.isEmpty then .ok (s, [])
  else do
    let own := s.grammar grammar
    let (f, rules) ← ruleSection grammar own.root s.forest
    let start : Merge := ⟨⟨f, own.ruleNames f, f.childrenOfKind own.root .mode⟩, [], []⟩
    let merged ← imports.foldlM (mergeImport s grammar rules) start
    return (s.withForest merged.rules.forest, merged.report)

end GrammarTrees
