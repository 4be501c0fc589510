/-! Places in a text. Lines are counted from 1 and columns, in characters, from 0. The place that a
byte offset falls on is found by reading the characters that end at or before it. -/

namespace GrammarTrees

/-- The number of bytes that the characters take in UTF-8. -/
def byteLength : List Char → Nat
  | [] => 0
  | c :: cs => c.utf8Size + byteLength cs

/-- The longest run of leading characters that fits into `n` bytes. -/
def takeBytes : List Char → Nat → List Char
  | [], _ => []
  | c :: cs, n => if c.utf8Size ≤ n then c :: takeBytes cs (n - c.utf8Size) else []

/-- A place in a text. Line 0 stands for no known place. -/
structure Position where
  line : Nat
  column : Nat
deriving DecidableEq, Repr

namespace Position

/-- The place of what no text gave rise to. -/
def unknown : Position := ⟨0, 0⟩

def first : Position := ⟨1, 0⟩

instance : Inhabited Position := ⟨unknown⟩

def isKnown (p : Position) : Bool := decide (0 < p.line)

/-- The place after the character `c` read at `p`. -/
def advance (p : Position) (c : Char) : Position :=
  if c = '\n' then ⟨p.line + 1, 0⟩ else ⟨p.line, p.column + 1⟩

/-- The place after the characters `cs` read from `p` on. -/
def after (p : Position) (cs : List Char) : Position := cs.foldl advance p

/-- The place of the byte `offset` of `source`. An offset inside a character stands for the start
of that character, and one past the end for the end. -/
def ofOffset (source : String) (offset : Nat) : Position :=
  first.after (takeBytes source.toList offset)

/-- The place in the outer text of the place `p` in an inner text that starts at `base`: only the
first inner line shares a line with what stands before it. -/
def within (base p : Position) : Position :=
  ⟨base.line + p.line - 1, if p.line = 1 then p.column + base.column else p.column⟩

def text (p : Position) : String := toString p.line ++ ":" ++ toString p.column

@[simp] theorem after_nil (p : Position) : p.after [] = p := rfl

@[simp] theorem after_cons (p : Position) (c : Char) (cs : List Char) :
    p.after (c :: cs) = (p.advance c).after cs := rfl

theorem after_append (p : Position) (cs ds : List Char) :
    p.after (cs ++ ds) = (p.after cs).after ds := by
  simp [after]

end Position

@[simp] theorem byteLength_nil : byteLength [] = 0 := rfl

@[simp] theorem byteLength_cons (c : Char) (cs : List Char) :
    byteLength (c :: cs) = c.utf8Size + byteLength cs := rfl

theorem byteLength_append (cs ds : List Char) :
    byteLength (cs ++ ds) = byteLength cs + byteLength ds := by
  induction cs with
  | nil => simp
  | cons c cs ih => simp [ih, Nat.add_assoc]

end GrammarTrees
