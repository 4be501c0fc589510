import GrammarTrees.Forest.Copy
import GrammarTrees.Grammar.GrammarSet
import GrammarTrees.Grammar.Literals

/-! Splitting the lexer off a combined grammar. The token rules move into a new tree, which gets
copies of the named actions and of the options that concern a lexer. The string literals of the
rules that stay become rules of the lexer, in front of the others. -/

namespace GrammarTrees

/-- A lexer that was split off a combined grammar. Its tree belongs to that grammar until it is
registered. -/
structure ImplicitLexer where
  root : NodeId
  name : String
  /-- The nodes that hold the values of its options. -/
  options : OrderedMap String NodeId

namespace LexerExtraction

/-- The options that concern a lexer. -/
def lexerOptions : List String :=
  ["superClass", "contextSuperClass", "TokenLabelType", "tokenVocab", "language", "accessLevel",
   "exportMacro", "caseInsensitive", "actionTemplates"]

/-- The options among them that only the parser keeps. -/
def parserOnlyOptions : List String := ["superClass", "TokenLabelType", "tokenVocab"]

def isCopiedOption (name : String) : Bool :=
  lexerOptions.contains name && !parserOnlyOptions.contains name

/-- Copies an option below `target`, if it is one that is copied. -/
def copyOption (target : NodeId) (s : Forest × OrderedMap String NodeId) (option : NodeId) :
    Except EditFault (Forest × OrderedMap String NodeId) :=
  let (f, options) := s
  match (f.child? option 0).map f.text with
  | none => .ok s
  | some name =>
    if isCopiedOption name then do
      let (f, copy) := f.copyTree option
      let f ← f.pushChild target copy
      return (f, ((f.child? copy 1).map (options.insert name)).getD options)
    else .ok s

/-- Copies the options of the grammar at `root` to the lexer. No section is made if there are
none. -/
def copyOptions (root lexer : NodeId) (f : Forest) :
    Except EditFault (Forest × OrderedMap String NodeId) :=
  match f.firstChildOfKind? root .options with
  | none => .ok (f, .empty)
  | some options =>
    if f.childCount options = 0 then .ok (f, .empty)
    else do
      let (f, target) := f.copyNode options
      let f ← f.pushChild lexer target
      (f.children options).foldlM (copyOption target) (f, .empty)

def copyAction (lexer : NodeId) (f : Forest) (action : NodeId) : Except EditFault Forest :=
  let (f, copy) := f.copyTree action
  f.pushChild lexer copy

def isLexerAction (f : Forest) (action : NodeId) : Bool :=
  (f.child? action 0).any fun scope => f.text scope = "lexer"

def onlyChild? (f : Forest) (kind : Kind) (id : NodeId) : Option NodeId :=
  match f.children id with
  | [child] => if f.kind child = kind then some child else none
  | _ => none

/-- The literal of a token rule that matches nothing but it. -/
def aliasOf? (f : Forest) (rule : NodeId) : Option String :=
  match f.children rule with
  | [name, block] =>
    if f.kind name = .tokenRef ∧ f.kind block = .block then
      ((onlyChild? f .alt block).bind (onlyChild? f .stringLiteral)).map f.text
    else none
  | _ => none

/-- The token rule of the given name that matches a literal. -/
def literalRule (name literal : String) : Tree Label :=
  .node (.ofKind .rule)
    [.leaf (.make .tokenRef name),
     .node (.ofKind .block)
       [.node (.ofKind .alt) [.leaf (.make .stringLiteral literal)]]]

/-- Making rules for string literals: the forest, the grammar, which counts them, the names taken,
and the number of rules made. -/
structure LiteralMerge where
  forest : Forest
  grammar : Grammar
  taken : List String
  count : Nat

/-- Makes a rule for a literal, after those made before. -/
def LiteralMerge.add (lexerRules : NodeId) (m : LiteralMerge) (literal : String) :
    Except EditFault LiteralMerge := do
  let (grammar, name) := m.grammar.nextLiteralRule m.taken
  let (f, rule) := m.forest.plant (literalRule name literal)
  let f ← f.attach lexerRules rule m.count
  return ⟨f, grammar, m.taken ++ [name], m.count + 1⟩

/-- Makes rules for the literals of `grammar` that are not matched by a rule of the lexer. -/
def addLiteralRules (grammar : Grammar) (lexerRules : NodeId) (f : Forest) :
    Except EditFault LiteralMerge :=
  let moved := f.children lexerRules
  let aliases := moved.filterMap (aliasOf? f)
  let literals := (grammar.stringLiterals f).filter fun l => !aliases.contains l
  let taken := grammar.ruleNames f ++ moved.map f.sectionName
  literals.foldlM (LiteralMerge.add lexerRules) ⟨f, grammar, taken, 0⟩

/-- A new lexer tree of the given name, with the tokens of the grammar at `root`. -/
def newLexer (root : NodeId) (name : String) (f : Forest) : Except EditFault (Forest × NodeId) := do
  let (f, lexer) := f.alloc (.make .grammar GrammarType.lexer.rootText)
  let f := f.setTokens lexer (f.tokens root)
  let (f, id) := f.alloc (.make .id name)
  let f ← f.pushChild lexer id
  return (f, lexer)

/-- Splits the lexer off a combined grammar whose rule section is `rules`. Gives the lexer's rule
section with it. -/
def split (grammar : Grammar) (rules : NodeId) (f : Forest) :
    Except EditFault (Forest × Grammar × ImplicitLexer × NodeId) := do
  let root := grammar.root
  let actions := f.childrenOfKind root .namedAction
  let name := f.sectionName root ++ "Lexer"
  let (f, lexer) ← newLexer root name f
  let (f, options) ← copyOptions root lexer f
  let f ← actions.foldlM (copyAction lexer) f
  let f := (actions.filter (isLexerAction f)).foldl (fun f a => (f.deleteChild root a).1) f
  let (f, lexerRules) := f.alloc (.ofKind .rules)
  let f ← f.pushChild lexer lexerRules
  let tokenRules := (f.childrenOfKind rules .rule).filter fun r => isTokenName (f.sectionName r)
  let f ← f.pushChildren lexerRules tokenRules
  let made ← addLiteralRules grammar lexerRules f
  return (made.forest, made.grammar, ⟨lexer, name, options⟩, lexerRules)

end LexerExtraction

open LexerExtraction in
/-- Splits the lexer off a combined grammar. There is none if it would have no rules. A grammar
without a rule section stays as it is. -/
def GrammarSet.extractLexer (s : GrammarSet) (id : GrammarId) :
    Except EditFault (GrammarSet × Option ImplicitLexer) :=
  let grammar := s.grammar id
  match s.forest.firstChildOfKind? grammar.root .rules with
  | none => .ok (s, none)
  | some rules => do
    let (f, grammar, lexer, lexerRules) ← split grammar rules s.forest
    let f := f.setOwnerBelow lexer.root id
    if f.linksAgree lexer.root && f.linksAgree grammar.root then
      let s : GrammarSet := ⟨f, s.grammars.modify id fun _ => grammar⟩
      return (s, if f.childCount lexerRules = 0 then none else some lexer)
    else .error .inconsistentLinks

end GrammarTrees
