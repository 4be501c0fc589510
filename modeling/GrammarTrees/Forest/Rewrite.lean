import GrammarTrees.Forest.Edit

/-! Rewriting a tree in place. Every node of a subtree is visited, before or after the nodes below
it, and the visitor may put another tree in its place. The children of a node are visited by index,
so a visitor that changes them changes what is visited next. -/

namespace GrammarTrees

/-- When a node is visited. -/
inductive VisitOrder where
  /-- Before the nodes below it; those of a replacement are visited. -/
  | pre
  /-- After the nodes below it. -/
  | post
deriving DecidableEq, Repr

/-- Looks at a node, may change the forest, and may name a node to put in its place. A visitor
carries a state of its own. -/
abbrev Visitor (σ : Type) := σ → Forest → NodeId → σ × Forest × Option NodeId

namespace Forest

variable {σ : Type}

/-- Visits one node and puts the replacement, if there is one, in its place. Gives the node that
stands there now. -/
def visitOne (visitor : Visitor σ) (s : σ) (f : Forest) (id : NodeId) :
    Except EditFault (σ × Forest × NodeId) :=
  match visitor s f id with
  | (s, f, none) => .ok (s, f, id)
  | (s, f, some replacement) =>
    if replacement = id then .ok (s, f, id)
    else
      match f.parent? id with
      | none => .ok (s, f, replacement)
      | some parent =>
        match (f.detach id).insertChild parent (f.childIndex id) replacement with
        | .ok f => .ok (s, f, replacement)
        | .error e => .error e

mutual

/-- Rewrites the subtree of `id` in at most `bound` nested steps. Gives the root of what stands in
its place. -/
def rewriteNode (order : VisitOrder) (visitor : Visitor σ) :
    (bound : Nat) → σ → Forest → NodeId → Except EditFault (σ × Forest × NodeId)
  | 0, _, _, _ => .error .unfinished
  | bound + 1, s, f, id =>
    match order with
    | .pre => do
      let (s, f, root) ← visitOne visitor s f id
      let (s, f) ← rewriteChildren order visitor bound s f root 0
      return (s, f, root)
    | .post => do
      let (s, f) ← rewriteChildren order visitor bound s f id 0
      visitOne visitor s f id

/-- Rewrites the subtrees of the children of `parent` from child number `index` on. -/
def rewriteChildren (order : VisitOrder) (visitor : Visitor σ) :
    (bound : Nat) → σ → Forest → (parent : NodeId) → (index : Nat) →
      Except EditFault (σ × Forest)
  | 0, _, _, _, _ => .error .unfinished
  | bound + 1, s, f, parent, index =>
    match f.child? parent index with
    | none => .ok (s, f)
    | some child => do
      let (s, f, _) ← rewriteNode order visitor bound s f child
      rewriteChildren order visitor bound s f parent (index + 1)

end

end Forest

end GrammarTrees
