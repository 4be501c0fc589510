import GrammarTrees.Forest.Copy
import GrammarTrees.Grammar.Basic

/-! Taking over the channels and the tokens of an imported grammar. Channels are copied unless the
grammar has one of the name; tokens are moved, duplicates included. -/

namespace GrammarTrees.Integration

/-- Copies a channel below `channels`, unless its name stands there. -/
def addChannel (grammar : GrammarId) (channels : NodeId) (f : Forest) (channel : NodeId) :
    Except EditFault Forest :=
  if (f.children channels).any fun c => f.text c = f.text channel then .ok f
  else
    let (f, copy) := f.copyNode channel
    (f.setOwner copy grammar).pushChild channels copy

/-- Takes over the channels of the grammar at `importRoot`. A grammar without channels of its own
gets a copy of the whole section, right after its name. -/
def mergeChannels (grammar : GrammarId) (root importRoot : NodeId) (f : Forest) :
    Except EditFault Forest :=
  match f.firstChildOfKind? importRoot .channels with
  | none => .ok f
  | some imported =>
    match f.firstChildOfKind? root .channels with
    | some channels => (f.children imported).foldlM (addChannel grammar channels) f
    | none =>
      let (f, copy) := f.copyTree imported
      (f.setOwnerBelow copy grammar).attach root copy 1

/-- Moves the tokens of the grammar at `importRoot` to the end of the token section, which is made
right after the name if there is none. -/
def mergeTokens (grammar : GrammarId) (root importRoot : NodeId) (f : Forest) :
    Except EditFault Forest :=
  match f.firstChildOfKind? importRoot .tokensSpec with
  | none => .ok f
  | some imported =>
    match f.firstChildOfKind? root .tokensSpec with
    | some tokens => f.pushChildren tokens (f.children imported)
    | none => do
      let (f, tokens) := f.alloc (.ofKind .tokensSpec)
      let f ← (f.setOwner tokens grammar).attach root tokens 1
      f.pushChildren tokens (f.children imported)

end GrammarTrees.Integration
