import GrammarTrees.Forest.Copy

/-! The operations on a forest as data, and runs of them. An operation that is refused stops where
it is refused: what it did before stays done. -/

namespace GrammarTrees

inductive Operation where
  | alloc (kind : Kind)
  | allocText (kind : Kind) (text : String)
  | copyNode (id : NodeId)
  | copyTree (id : NodeId)
  | detach (id : NodeId)
  | attach (parent node : NodeId) (index : Nat)
  | insertChild (parent : NodeId) (index : Nat) (node : NodeId)
  | pushChild (parent node : NodeId)
  | deleteChild (parent child : NodeId)
  | setText (id : NodeId) (text : String)
  | setPosition (id : NodeId) (position : Position)
  | setTokens (id : NodeId) (tokens : TokenSpan)
  | setRange (id : NodeId) (range : ByteRange)
  | setOwner (id : NodeId) (owner : GrammarId)
  | setOwnerBelow (id : NodeId) (owner : GrammarId)
deriving DecidableEq, Repr

/-- The forest that an operation leaves, and the fault if it was refused. -/
structure Outcome where
  forest : Forest
  fault : Option EditFault

namespace Outcome

def done (f : Forest) : Outcome := ⟨f, none⟩

def result (o : Outcome) : Except EditFault Forest :=
  match o.fault with
  | none => .ok o.forest
  | some e => .error e

end Outcome

/-- Attaches a node. All checks come before the first change, so a refusal leaves the forest as it
was. -/
def Forest.tryAttach (f : Forest) (parent node : NodeId) (index : Nat) : Outcome :=
  match f.attach parent node index with
  | .ok g => .done g
  | .error e => ⟨f, some e⟩

namespace Operation

def nodes : Operation → List NodeId
  | alloc _ | allocText _ _ => []
  | copyNode id | copyTree id | detach id => [id]
  | attach parent node _ | insertChild parent _ node | pushChild parent node => [parent, node]
  | deleteChild parent child => [parent, child]
  | setText id _ | setPosition id _ | setTokens id _ | setRange id _ => [id]
  | setOwner id _ | setOwnerBelow id _ => [id]

def Fits (op : Operation) (f : Forest) : Prop := ∀ id ∈ op.nodes, id < f.size

instance (op : Operation) (f : Forest) : Decidable (op.Fits f) :=
  inferInstanceAs (Decidable (∀ id ∈ op.nodes, id < f.size))

def run (f : Forest) : Operation → Outcome
  | alloc kind => .done (f.alloc (.ofKind kind)).1
  | allocText kind text => .done (f.alloc (.make kind text)).1
  | copyNode id => .done (f.copyNode id).1
  | copyTree id => .done (f.copyTree id).1
  | detach id => .done (f.detach id)
  | attach parent node index => f.tryAttach parent node index
  | insertChild parent index node => (f.detach node).tryAttach parent node index
  | pushChild parent node =>
    let g := f.detach node
    g.tryAttach parent node (g.childCount parent)
  | deleteChild parent child => .done (f.deleteChild parent child).1
  | setText id text => .done (f.setText id text)
  | setPosition id position => .done (f.setPosition id position)
  | setTokens id tokens => .done (f.setTokens id tokens)
  | setRange id range => .done (f.setRange id range)
  | setOwner id owner => .done (f.setOwner id owner)
  | setOwnerBelow id owner => .done (f.setOwnerBelow id owner)

/-- The forest after operations, one after the other, whether refused or not. -/
def runAll (f : Forest) : List Operation → Forest
  | [] => f
  | op :: ops => runAll (op.run f).forest ops

def AllFit (f : Forest) : List Operation → Prop
  | [] => True
  | op :: ops => op.Fits f ∧ AllFit (op.run f).forest ops

instance decidableAllFit (f : Forest) : (ops : List Operation) → Decidable (AllFit f ops)
  | [] => inferInstanceAs (Decidable True)
  | op :: ops =>
    have := decidableAllFit (op.run f).forest ops
    inferInstanceAs (Decidable (op.Fits f ∧ AllFit (op.run f).forest ops))

/-- The forest in which the checks of an operation are made: one that moves a node detaches it
first. -/
def checkedIn (f : Forest) : Operation → Forest
  | insertChild _ _ node | pushChild _ node => f.detach node
  | _ => f

end Operation

theorem Forest.result_tryAttach (f : Forest) (parent node : NodeId) (index : Nat) :
    (f.tryAttach parent node index).result = f.attach parent node index := by
  rw [tryAttach]
  split <;> simp_all [Outcome.result, Outcome.done]

theorem Operation.result_run_insertChild (f : Forest) (parent node : NodeId) (index : Nat) :
    (run f (.insertChild parent index node)).result = f.insertChild parent index node :=
  f.detach node |>.result_tryAttach parent node index

theorem Operation.result_run_pushChild (f : Forest) (parent node : NodeId) :
    (run f (.pushChild parent node)).result = f.pushChild parent node :=
  f.detach node |>.result_tryAttach parent node _

end GrammarTrees
