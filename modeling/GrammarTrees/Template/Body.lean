import GrammarTrees.Template.Expression

/-! Bodies of templates: text with expressions between angle brackets in it. A backslash makes an
angle bracket or another backslash stand for itself, and comments between exclamation marks inside
angle brackets are dropped. -/

namespace GrammarTrees.Template

inductive Chunk where
  | text (cs : List Char)
  | expression (e : Expression)

/-- What a body holds at one place: a character of its text or an expression. -/
inductive Piece where
  | char (c : Char)
  | expression (e : Expression)

/-- Reads what starts with the character `c` at byte `offset` of a body of `size` bytes, and `cs`
after it. Gives the piece, none for a comment, and the number of further characters that belong to
it. -/
def pieceAt (size offset : Nat) (c : Char) (cs : List Char) :
    Except SyntaxError (Option Piece × Nat) :=
  match c, cs with
  | '\\', '<' :: _ => .ok (some (.char '<'), 1)
  | '\\', '>' :: _ => .ok (some (.char '>'), 1)
  | '\\', '\\' :: _ => .ok (some (.char '\\'), 1)
  | '<', '!' :: comment =>
    match lengthThrough '!' '>' comment with
    | some length => .ok (none, length + 1)
    | none => .error ⟨.prematureEnd, size⟩
  | '<', cs => do
    let (e, length) ← Expression.read size (offset + 1) cs
    return (some (.expression e), length)
  | c, _ => .ok (some (.char c), 0)

/-- The pieces of the given characters of a body of `size` bytes, after the first `skip` of them.
The first of the characters stands at byte `offset`. -/
def readPieces (size : Nat) : (offset skip : Nat) → List Char → Except SyntaxError (List Piece)
  | _, _, [] => .ok []
  | offset, skip + 1, c :: cs => readPieces size (offset + c.utf8Size) skip cs
  | offset, 0, c :: cs => do
    let (piece, further) ← pieceAt size offset c cs
    let pieces ← readPieces size (offset + c.utf8Size) further cs
    return piece.toList ++ pieces

/-- Joins characters that follow each other. -/
def chunksOf : List Piece → List Chunk
  | [] => []
  | .expression e :: pieces => .expression e :: chunksOf pieces
  | .char c :: pieces =>
    match chunksOf pieces with
    | .text cs :: chunks => .text (c :: cs) :: chunks
    | chunks => .text [c] :: chunks

def compileBody (source : String) : Except SyntaxError (List Chunk) := do
  let cs := source.toList
  let pieces ← readPieces (byteLength cs) 0 0 cs
  return chunksOf pieces

end GrammarTrees.Template

namespace GrammarTrees

/-- A template that is ready to be rendered. Offsets in its chunks count the bytes of `source`. -/
structure Template where
  name : String
  params : List String
  chunks : List Template.Chunk
  source : String

def Template.compile (name : String) (params : List String) (source : String) :
    Except Template.SyntaxError Template := do
  let chunks ← compileBody source
  return ⟨name, params, chunks, source⟩

end GrammarTrees
