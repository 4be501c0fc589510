import GrammarTrees.Grammar.Basic

/-! The string literals in the rules of a grammar, and names for the lexer rules that match them. -/

namespace GrammarTrees

mutual

/-- The string literals in a tree, in order. Options of elements hold values and are passed over. -/
def literalsOf : Tree Label → List String
  | .node l ts =>
    if l.kind = .elementOptions then []
    else if l.kind = .stringLiteral then l.text :: literalsOfAll ts
    else literalsOfAll ts

def literalsOfAll : List (Tree Label) → List String
  | [] => []
  | t :: ts => literalsOf t ++ literalsOfAll ts

end

def literalRulePrefix : String := "T__"

def literalRuleName (n : Nat) : String := literalRulePrefix ++ toString n

/-- The least number from `start` on whose rule name is not taken. Among one more number than there
are names taken, one is free. -/
def freeLiteralNumber (taken : List String) (start : Nat) : Nat :=
  (((List.range (taken.length + 1)).map (start + ·)).find? fun n =>
    !taken.contains (literalRuleName n)).getD start

namespace Grammar

/-- The string literals in the rules, each at its first occurrence. -/
def stringLiterals (g : Grammar) (f : Forest) : List String :=
  ((g.rules f).flatMap fun r => literalsOf (f.labelTree r)).eraseDups

/-- A rule name for a string literal that is not taken and was not given before. -/
def nextLiteralRule (g : Grammar) (taken : List String) : Grammar × String :=
  let n := freeLiteralNumber taken g.literalCount
  ({ g with literalCount := n + 1 }, literalRuleName n)

end Grammar

end GrammarTrees
