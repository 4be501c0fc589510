import GrammarTrees.Forest.Traversal

/-! Writing trees in the tree notation. Positions are not written, and neither is a text that is the
name of its node's kind. -/

namespace GrammarTrees

namespace TreeText

/-- A node without its children. -/
def nodeChars (l : Label) : List Char :=
  if l.text = l.kind.name then l.kind.name.toList
  else l.kind.name.toList ++ ':' :: l.text.toList

mutual

/-- A tree. A node with children stands with them in parentheses. -/
def chars : Tree Label → List Char
  | .node l ts =>
    if ts.isEmpty then nodeChars l else '(' :: (nodeChars l ++ (childChars ts ++ [')']))

/-- Trees with a space before each of them. -/
def childChars : List (Tree Label) → List Char
  | [] => []
  | t :: ts => ' ' :: (chars t ++ childChars ts)

end

def write (t : Tree Label) : String := String.ofList (chars t)

end TreeText

def Forest.write (f : Forest) (id : NodeId) : String := TreeText.write (f.labelTree id)

end GrammarTrees
