import GrammarTrees.Forest.Traversal
import GrammarTrees.OrderedMap
import GrammarTrees.Text.Quoted
import GrammarTrees.Text.Uppercase

/-! Grammars. A grammar is a tree in a forest whose root names it and tells its type, together with
the file it comes from and the grammars it imports. The children of the root are its sections:
options, tokens, channels, named actions, rules and modes. -/

namespace GrammarTrees

inductive GrammarType where
  | lexer
  | parser
  | combined
deriving DecidableEq, Repr

namespace GrammarType

def rootText : GrammarType → String
  | lexer => "LEXER_GRAMMAR"
  | parser => "PARSER_GRAMMAR"
  | combined => "COMBINED_GRAMMAR"

def ofRootText? (text : String) : Option GrammarType :=
  [lexer, parser, combined].find? (·.rootText = text)

/-- The scope of a named action that is written without one. -/
def defaultScope : GrammarType → String
  | lexer => "lexer"
  | parser | combined => "parser"

end GrammarType

structure Grammar where
  name : String
  file : String
  type : GrammarType
  root : NodeId
  /-- The nodes that hold the values of its options. -/
  options : OrderedMap String NodeId
  /-- The grammars it imports directly, in order. -/
  imports : List GrammarId
  /-- The number of the next rule that is made for a string literal. -/
  literalCount : Nat

instance : Inhabited Grammar := ⟨"", "", .combined, 0, .empty, [], 0⟩

/-- Names of tokens start with an upper-case letter. -/
def isTokenName (name : String) : Bool := name.toList.head?.any isUppercase

namespace Forest

/-- The name of a grammar, a rule or a mode: the text of its first child. -/
def sectionName (f : Forest) (id : NodeId) : String := ((f.child? id 0).map f.text).getD ""

/-- The name and the value of an option: the first two children of its node. -/
def readOption? (f : Forest) (id : NodeId) : Option (String × NodeId) :=
  match f.child? id 0, f.child? id 1 with
  | some name, some value => some (f.text name, value)
  | _, _ => none

/-- The options below a node. A repeated option has its last value. -/
def readOptions (f : Forest) (id : NodeId) : OrderedMap String NodeId :=
  .ofList ((f.children id).filterMap f.readOption?)

/-- The value of an option. A string literal stands for the text between its quotes. -/
def optionValue (f : Forest) (id : NodeId) : String :=
  if f.kind id = .stringLiteral then unquote '\'' (f.text id) else f.text id

end Forest

namespace Grammar

def isCombined (g : Grammar) : Bool := g.type = .combined

def option? (g : Grammar) (name : String) : Option NodeId := g.options.get? name

def optionText? (g : Grammar) (f : Forest) (name : String) : Option String :=
  (g.option? name).map f.optionValue

/-- The rules of all rule sections and modes, in order. -/
def rules (g : Grammar) (f : Forest) : List NodeId :=
  (f.children g.root).flatMap fun s =>
    match f.kind s with
    | .rules | .mode => f.childrenOfKind s .rule
    | _ => []

def ruleNames (g : Grammar) (f : Forest) : List String := (g.rules f).map f.sectionName

end Grammar

end GrammarTrees
