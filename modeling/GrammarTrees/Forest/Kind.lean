/-! The kinds of nodes in grammar trees. A kind is written by its name, which is also the text of a
node that is given no other. -/

namespace GrammarTrees

inductive Kind where
  | grammar
  | id
  | tokenRef
  | ruleRef
  | options
  | elementOptions
  | assign
  | plusAssign
  | tokensSpec
  | channels
  | namedAction
  | action
  | sempred
  | argAction
  | rules
  | rule
  | ruleModifiers
  | mode
  | block
  | alt
  | lexerAltAction
  | lexerActionCall
  | stringLiteral
  | lexerCharSet
  | int
  | set
  | not
  | range
  | wildcard
  | optional
  | closure
  | positiveClosure
  | epsilon
deriving DecidableEq, Repr

namespace Kind

def all : List Kind :=
  [.grammar, .id, .tokenRef, .ruleRef, .options, .elementOptions, .assign, .plusAssign,
   .tokensSpec, .channels, .namedAction, .action, .sempred, .argAction, .rules, .rule,
   .ruleModifiers, .mode, .block, .alt, .lexerAltAction, .lexerActionCall, .stringLiteral,
   .lexerCharSet, .int, .set, .not, .range, .wildcard, .optional, .closure, .positiveClosure,
   .epsilon]

def name : Kind → String
  | grammar => "GRAMMAR"
  | id => "ID"
  | tokenRef => "TOKEN_REF"
  | ruleRef => "RULE_REF"
  | options => "OPTIONS"
  | elementOptions => "ELEMENT_OPTIONS"
  | assign => "ASSIGN"
  | plusAssign => "PLUS_ASSIGN"
  | tokensSpec => "TOKENS_SPEC"
  | channels => "CHANNELS"
  | namedAction => "AT"
  | action => "ACTION"
  | sempred => "SEMPRED"
  | argAction => "ARG_ACTION"
  | rules => "RULES"
  | rule => "RULE"
  | ruleModifiers => "RULEMODIFIERS"
  | mode => "MODE"
  | block => "BLOCK"
  | alt => "ALT"
  | lexerAltAction => "LEXER_ALT_ACTION"
  | lexerActionCall => "LEXER_ACTION_CALL"
  | stringLiteral => "STRING_LITERAL"
  | lexerCharSet => "LEXER_CHAR_SET"
  | int => "INT"
  | set => "SET"
  | not => "NOT"
  | range => "RANGE"
  | wildcard => "WILDCARD"
  | optional => "OPTIONAL"
  | closure => "CLOSURE"
  | positiveClosure => "POSITIVE_CLOSURE"
  | epsilon => "EPSILON"

/-- The kind with the given name. Names have exactly one spelling. -/
def ofName? (name : String) : Option Kind := all.find? (·.name = name)

def ordinal (k : Kind) : Nat := k.ctorIdx

/-- Code of the target language stands in nodes of these kinds. -/
def holdsCode : Kind → Bool
  | action | sempred => true
  | _ => false

instance : Inhabited Kind := ⟨grammar⟩

theorem mem_all (k : Kind) : k ∈ all := by
  cases k <;> decide

theorem name_injective {j k : Kind} (h : j.name = k.name) : j = k := by
  revert h
  cases j <;> cases k <;> decide

theorem ofName?_name (k : Kind) : ofName? k.name = some k := by
  cases k <;> decide

theorem name_of_ofName? {name : String} {k : Kind} (h : ofName? name = some k) :
    k.name = name := by
  simpa using List.find?_some h

end Kind

end GrammarTrees
