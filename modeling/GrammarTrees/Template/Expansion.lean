import GrammarTrees.Grammar.GrammarSet
import GrammarTrees.Template.Engine
import GrammarTrees.Template.Listener

/-! Expanding the templates in the actions of a grammar. The group comes from the configuration or
from an option of the grammar. Each action is rendered on its own; one that cannot be rendered keeps
its text. -/

namespace GrammarTrees

structure Config where
  /-- The directory that the grammars were read from. -/
  inputDir : Option String
  /-- The directory that is searched last. -/
  libDir : Option String
  /-- The group file for all grammars, which goes before their options. -/
  actionTemplates : Option String
deriving DecidableEq, Repr

def Config.empty : Config := ⟨none, none, none⟩

namespace Template

def groupOption : String := "actionTemplates"

/-- A group file and where it is named: in the configuration, or in the option with the value at a
node. -/
inductive GroupReference where
  | configured (file : String)
  | option (file : String) (value : NodeId)
deriving DecidableEq, Repr

def GroupReference.file : GroupReference → String
  | configured file => file
  | option file _ => file

/-- The group file that a grammar is to be expanded with. -/
def reference? (config : Config) (f : Forest) (g : Grammar) : Option GroupReference :=
  match config.actionTemplates with
  | some file => some (.configured file)
  | none => (g.option? groupOption).map fun value => .option (f.optionValue value) value

/-- The paths at which a group file is looked for: as given, below the input directory, next to the
grammar, and below the library directory. -/
def candidates (config : Config) (grammarFile file : String) : List String :=
  file :: [config.inputDir, Path.parent? grammarFile, config.libDir].filterMap fun dir =>
    dir.map (Path.join · file)

def resolve? (store : Store) (config : Config) (grammarFile file : String) : Option String :=
  (candidates config grammarFile file).find? store.contains

def notFound (f : Forest) (g : Grammar) : GroupReference → Diagnostic
  | .configured file =>
    (Diagnostic.of .groupFileNotFoundOnCmdline).withDetail (file ++ " given for " ++ g.name)
  | .option file value =>
    (((Diagnostic.of .groupFileNotFoundInGrammar).inFile g.file).located (f.position value)
      (f.range value)).withDetail file

def loadDiagnostic (f : Forest) (g : Grammar) (r : GroupReference) (fault : LoadFault) :
    Diagnostic :=
  match fault with
  | .notFound _ => notFound f g r
  | .wrongExtension _ _ =>
    (Diagnostic.of .groupFileWrongExtension).withDetail (r.file ++ ": " ++ fault.message)
  | .read _ _ => (Diagnostic.of .groupFileReadError).withDetail (r.file ++ ": " ++ fault.message)
  | .io _ cause => ((Diagnostic.of .internalError).withDetail fault.message).withCause cause

variable {γ : Type}

def loadReferred (engine : Engine γ) (store : Store) (config : Config) (f : Forest) (g : Grammar)
    (r : GroupReference) : Option γ × Report :=
  if !Path.hasSuffix r.file engine.suffix then
    (none, [loadDiagnostic f g r (.wrongExtension r.file engine.suffix)])
  else
    match resolve? store config g.file r.file with
    | none => (none, [notFound f g r])
    | some path =>
      let (result, messages) := engine.load path
      let report := messages.map (groupDiagnostic path)
      match result with
      | .ok group => (some group, report)
      | .error fault => (none, report ++ [loadDiagnostic f g r fault])

/-- The code between the braces of an action, or between those of a predicate and its question
mark. -/
def actionBody? (kind : Kind) (text : String) : Option (List Char) :=
  inside? '\x7b' (if kind = .sempred then ['\x7d', '?'] else ['\x7d']) text.toList

/-- The template that an action is rendered as: its code with a space in place of each brace. -/
def actionTemplate? (kind : Kind) (text : String) : Option String :=
  (actionBody? kind text).map fun body => String.ofList (' ' :: (body ++ [' ']))

/-- The place of an action. Its file is that of the grammar it belongs to. -/
def siteOf (s : GrammarSet) (g : Grammar) (id : NodeId) : ActionSite :=
  let f := s.forest
  let file := (((f.owner id).bind fun o => s.grammars[o]?).getD g).file
  ⟨file, f.position id, f.range id⟩

/-- The text that an action is to have, if it changes, and what is to be said about it. -/
def expandAction (engine : Engine γ) (group : γ) (s : GrammarSet) (g : Grammar) (id : NodeId) :
    Option String × Report :=
  let f := s.forest
  if (f.kind id).holdsCode then
    match actionTemplate? (f.kind id) (f.text id) with
    | none => (none, [])
    | some template =>
      let site := siteOf s g id
      let (rendered, messages) := engine.render group site.file template
      (rendered, messages.map (actionDiagnostic site))
  else (none, [])

def expandNode (engine : Engine γ) (group : γ) (g : Grammar) (done : GrammarSet × Report)
    (id : NodeId) : GrammarSet × Report :=
  let (s, report) := done
  let (text, more) := expandAction engine group s g id
  match text with
  | some text => (s.withForest (s.forest.setText id text), report ++ more)
  | none => (s, report ++ more)

def expandWith (engine : Engine γ) (group : γ) (s : GrammarSet) (g : Grammar) :
    GrammarSet × Report :=
  (s.forest.preorder g.root).foldl (expandNode engine group g) (s, [])

end Template

open Template in
/-- Expands the actions of a grammar. Nothing happens if it refers to no group file. -/
def GrammarSet.expand {γ : Type} (s : GrammarSet) (engine : Engine γ) (store : Store)
    (config : Config) (id : GrammarId) : GrammarSet × Report :=
  let g := s.grammar id
  match reference? config s.forest g with
  | none => (s, [])
  | some r =>
    let (group, report) := loadReferred engine store config s.forest g r
    match group with
    | none => (s, report)
    | some group =>
      let (s, more) := expandWith engine group s g
      (s, report ++ more)

end GrammarTrees
