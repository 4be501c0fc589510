import GrammarTrees.Grammar.Basic
import GrammarTrees.Text.Numeral

/-! Elements that were copied from a grammar carry the index of the token they were built from as an
option. Their tokens are set to those of the node that was built from that token. -/

namespace GrammarTrees

def tokenIndexOption : String := "tokenIndex"

namespace Forest

def tokenIndex? (f : Forest) (options : NodeId) : Option Nat :=
  ((f.readOptions options).get? tokenIndexOption).bind fun value =>
    readNumber (f.text value).toList

/-- The tokens of an element that was built from token `index` of the tree of `root`. A token that
no node of that tree was built from stands alone. -/
def originOf (f : Forest) (root : NodeId) (index : Nat) : TokenSpan :=
  match f.nodeOfToken? root index with
  | some node => { f.tokens node with index := some index }
  | none => ⟨some index, some index, some index⟩

/-- Sets the tokens of the element that the options belong to. -/
def restoreOrigin (root : NodeId) (f : Forest) (options : NodeId) : Forest :=
  match f.parent? options, f.tokenIndex? options with
  | some element, some index => f.setTokens element (f.originOf root index)
  | _, _ => f

/-- Sets the tokens of all elements in a tree to those of the grammar with the given root. -/
def restoreOrigins (f : Forest) (root tree : NodeId) : Forest :=
  (f.descendantsOfKind tree .elementOptions).foldl (restoreOrigin root) f

end Forest

end GrammarTrees
