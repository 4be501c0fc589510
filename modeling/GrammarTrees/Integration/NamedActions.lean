import GrammarTrees.Diagnostic.Basic
import GrammarTrees.Forest.Edit
import GrammarTrees.Grammar.Basic

/-! Merging the named actions of an imported grammar. Actions of one scope and name become one
action: the first definition stays and takes in the code of the others. A second definition in the
same grammar is reported and left out. -/

namespace GrammarTrees.Integration

/-- A named action taken apart: its scope, and the nodes of its name and its code. -/
structure NamedAction where
  scope : String
  name : NodeId
  action : NodeId

/-- The parts of a named action of two or three children. -/
def NamedAction.of? (f : Forest) (defaultScope : String) (id : NodeId) : Option NamedAction :=
  match f.children id with
  | [scope, name, action] => some ⟨f.text scope, name, action⟩
  | [name, action] => some ⟨defaultScope, name, action⟩
  | _ => none

def stripBraces (text : String) : String :=
  let cs := text.toList
  String.ofList ((inside? '\x7b' ['\x7d'] cs).getD cs)

/-- Two pieces of code as one, each on lines of its own. -/
def joinActions (first second : String) : String :=
  "\x7b" ++ stripBraces first ++ "\n" ++ stripBraces second ++ "\x7d"

/-- What merging named actions has come to: the forest, the first definition of each scope and name,
the definitions reported as repeated, and the reports. -/
structure ActionMerge where
  forest : Forest
  named : OrderedMap (String × String) NodeId
  repeated : List NodeId
  report : Report

namespace ActionMerge

/-- The report of a repeated definition of the action `name`. -/
def redefinition (f : Forest) (fileOf : Option GrammarId → String) (id name : NodeId) :
    Diagnostic :=
  (((Diagnostic.of .actionRedefinition).inFile (fileOf (f.owner id))).located (f.position name)
    (f.range name)).withDetail (f.text name)

def add (defaultScope : String) (fileOf : Option GrammarId → String) (m : ActionMerge)
    (id : NodeId) : ActionMerge :=
  let f := m.forest
  match NamedAction.of? f defaultScope id with
  | none => m
  | some parts =>
    let key := (parts.scope, f.text parts.name)
    match m.named.get? key with
    | none => { m with named := m.named.insert key id }
    | some first =>
      if f.owner first = f.owner id then
        if m.repeated.contains id then m
        else
          { m with
            repeated := m.repeated ++ [id]
            report := m.report ++ [redefinition f fileOf id parts.name] }
      else
        match NamedAction.of? f defaultScope first with
        | none => m
        | some kept =>
          let joined := joinActions (f.text kept.action) (f.text parts.action)
          { m with forest := f.setText kept.action joined }

end ActionMerge

/-- Moves a named action right after the grammar's name, unless it stands in the grammar. -/
def placeAction (root : NodeId) (f : Forest) (id : NodeId) : Except EditFault Forest :=
  if f.isWithin id root then .ok f else f.insertChild root 1 id

/-- Merges the named actions of the grammar at `importRoot` into those of the grammar at `root`.
Gives the forest, the definitions reported as repeated so far, and the new reports. -/
def mergeActions (defaultScope : String) (fileOf : Option GrammarId → String)
    (root importRoot : NodeId) (repeated : List NodeId) (f : Forest) :
    Except EditFault (Forest × List NodeId × Report) := do
  let candidates := f.childrenOfKind root .namedAction ++ f.childrenOfKind importRoot .namedAction
  let merged :=
    candidates.foldl (ActionMerge.add defaultScope fileOf) ⟨f, .empty, repeated, []⟩
  let f ← merged.named.values.foldlM (placeAction root) merged.forest
  return (f, merged.repeated, merged.report)

end GrammarTrees.Integration
