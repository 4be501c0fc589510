import GrammarTrees.Forest.Copy
import GrammarTrees.TreeText.Token

/-! Reading the tree notation, one lexeme at a time. A reader holds the nodes whose closing
parenthesis is still to come and what it expects next, so the first lexeme with which no tree can go
on is the one that is reported. -/

namespace GrammarTrees

namespace TreeText

/-- What can come next at a place where a text went wrong. -/
inductive Expected where
  | node
  | kind
  | text
  | closing
  | ending
deriving DecidableEq, Repr

def Expected.message : Expected → String
  | node => "a node"
  | kind => "a node kind"
  | text => "node text"
  | closing => "`)`"
  | ending => "end of input"

inductive ReadError where
  /-- No token starts at `offset`. -/
  | invalidInput (offset : Nat)
  | unexpected (found : String) (offset : Nat) (expected : Expected)
  | unknownKind (name : String) (offset : Nat)
  | unexpectedEnd (expected : Expected)
deriving DecidableEq, Repr

def ReadError.message : ReadError → String
  | invalidInput offset => "invalid input at offset " ++ toString offset
  | unexpected found offset expected =>
    "unexpected `" ++ found ++ "` at offset " ++ toString offset ++ ", expected " ++
      expected.message
  | unknownKind name offset =>
    "unknown node kind `" ++ name ++ "` at offset " ++ toString offset
  | unexpectedEnd expected => "unexpected end of input, expected " ++ expected.message

/-- A node whose closing parenthesis is still to come, with the children read so far, the latest
first. -/
structure OpenNode where
  label : Label
  children : List (Tree Label)

namespace OpenNode

def tree (n : OpenNode) : Tree Label := .node n.label n.children.reverse

def add (n : OpenNode) (t : Tree Label) : OpenNode := { n with children := t :: n.children }

end OpenNode

/-- What a reader has come to. -/
inductive Stage where
  | start
  /-- The kind of a node with a parenthesis is still to come. -/
  | head
  /-- The text of a node is still to come; `opens` tells whether it has a parenthesis. -/
  | text (opens : Bool) (kind : Kind)
  /-- Children of `node` or its closing parenthesis are still to come. -/
  | inside (node : OpenNode)
  /-- Nothing may come any more. -/
  | finished (tree : Tree Label)

/-- A reader in a stage, or one that has read a node whose text or position may still follow. The
nodes that are open around it come innermost first. -/
inductive Reader where
  | settled (outer : List OpenNode) (stage : Stage)
  | pending (outer : List OpenNode) (opens : Bool) (label : Label) (mayHaveText : Bool)

/-- The stage after a whole subtree. -/
def afterTree : (outer : List OpenNode) → Tree Label → List OpenNode × Stage
  | [], t => ([], .finished t)
  | n :: outer, t => (outer, .inside (n.add t))

/-- The stage after a node without its children. -/
def afterNode (outer : List OpenNode) (opens : Bool) (label : Label) : List OpenNode × Stage :=
  if opens then (outer, .inside ⟨label, []⟩) else afterTree outer (.leaf label)

namespace Reader

def ofStage (s : List OpenNode × Stage) : Reader := .settled s.1 s.2

/-- The stage of a reader whose last node does not go on. -/
def settle : Reader → List OpenNode × Stage
  | settled outer stage => (outer, stage)
  | pending outer opens label _ => afterNode outer opens label

/-- The reader after a lexeme that goes on with the last node. -/
def grow? (r : Reader) (l : Lexeme Token) : Option Reader :=
  match r, l.token with
  | pending outer opens label true, some .colon => some (.settled outer (.text opens label.kind))
  | pending outer opens label _, some .position =>
    some (.ofStage (afterNode outer opens { label with position := positionOf (l.chars.drop 1) }))
  | _, _ => none

end Reader

/-- A reader that has met a lexeme that cannot come where it stands. -/
def unexpected {α : Type} (l : Lexeme Token) (expected : Expected) : Except ReadError α :=
  .error (.unexpected l.text l.offset expected)

def readKind (outer : List OpenNode) (opens : Bool) (l : Lexeme Token) :
    Except ReadError Reader :=
  match Kind.ofName? l.text with
  | some kind => .ok (.pending outer opens (.ofKind kind) true)
  | none => .error (.unknownKind l.text l.offset)

def readNode (outer : List OpenNode) (l : Lexeme Token) : Except ReadError Reader :=
  match l.token with
  | some .opening => .ok (.settled outer .head)
  | some .word => readKind outer false l
  | _ => unexpected l .node

def readIn (outer : List OpenNode) (stage : Stage) (l : Lexeme Token) : Except ReadError Reader :=
  match stage with
  | .start => readNode outer l
  | .head => if l.token = some .word then readKind outer true l else unexpected l .kind
  | .text opens kind =>
    match l.token with
    | some .word | some .quoted | some .braced =>
      .ok (.pending outer opens (.make kind l.text) false)
    | _ => unexpected l .text
  | .inside node =>
    if l.token = some .closing then .ok (.ofStage (afterTree outer node.tree))
    else readNode (node :: outer) l
  | .finished _ => unexpected l .ending

/-- The trees that a reader leaves behind, outermost first. -/
def leftovers (outer : List OpenNode) : Stage → List (Tree Label)
  | .inside node => (node :: outer).reverse.map OpenNode.tree
  | .finished tree => [tree]
  | _ => outer.reverse.map OpenNode.tree

/-- The tree read when the text ends in a stage. -/
def finish : Stage → Except ReadError (Tree Label)
  | .start => .error (.unexpectedEnd .node)
  | .head => .error (.unexpectedEnd .kind)
  | .text _ _ => .error (.unexpectedEnd .text)
  | .inside _ => .error (.unexpectedEnd .closing)
  | .finished tree => .ok tree

/-- Reads all lexemes. A failure comes with the trees left behind. -/
def readLexemes : Reader → List (Lexeme Token) → Except (ReadError × List (Tree Label)) (Tree Label)
  | r, [] =>
    let (outer, stage) := r.settle
    match finish stage with
    | .ok tree => .ok tree
    | .error e => .error (e, leftovers outer stage)
  | r, l :: ls =>
    match r.grow? l with
    | some r => readLexemes r ls
    | none =>
      let (outer, stage) := r.settle
      match readIn outer stage l with
      | .ok r => readLexemes r ls
      | .error e => .error (e, leftovers outer stage)

/-- Reads a tree. A failure comes with the trees left behind: the part of each open node that had
been read. Nothing is left behind when some character starts no token. -/
def read (source : String) : Except (ReadError × List (Tree Label)) (Tree Label) :=
  let lexemes := Lexeme.readAll scan source.toList
  match lexemes.find? (·.token.isNone) with
  | some l => .error (.invalidInput l.offset, [])
  | none => readLexemes (.settled [] .start) (lexemes.filter (·.token ≠ some .gap))

end TreeText

/-- Reads a tree into a forest. A failure leaves the trees behind that it had come to. -/
def Forest.read (f : Forest) (source : String) : Forest × Except TreeText.ReadError NodeId :=
  match TreeText.read source with
  | .ok tree =>
    let planted := f.plant tree
    (planted.1, .ok planted.2)
  | .error (e, trees) => (f.plantAll trees, .error e)

end GrammarTrees
