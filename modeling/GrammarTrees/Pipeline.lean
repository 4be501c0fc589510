import GrammarTrees.Integration.Integrate
import GrammarTrees.Template.Expansion

/-! The way of a grammar from its parsed tree to the tree that code is generated from: imports are
integrated, further passes rewrite the tree, and the templates in its actions are expanded. -/

namespace GrammarTrees

structure Pass where
  name : String
  run : GrammarSet → GrammarId → Except EditFault (GrammarSet × Report)

namespace Pass

def runAll (id : GrammarId) : List Pass → GrammarSet → Except EditFault (GrammarSet × Report)
  | [], s => .ok (s, [])
  | pass :: passes, s => do
    let (s, report) ← pass.run s id
    let (s, more) ← runAll id passes s
    return (s, report ++ more)

end Pass

/-- Integrates the imports of a grammar, runs the passes and expands the actions. -/
def GrammarSet.process {γ : Type} (s : GrammarSet) (engine : Template.Engine γ) (store : Store)
    (config : Config) (passes : List Pass) (id : GrammarId) :
    Except EditFault (GrammarSet × Report) := do
  let (s, integrated) ← s.integrateImports id
  let (s, passed) ← Pass.runAll id passes s
  let (s, expanded) := s.expand engine store config id
  return (s, integrated ++ passed ++ expanded)

end GrammarTrees
