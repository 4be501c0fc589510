import GrammarTrees.Text.Position

/-! Cutting a text into lexemes. A scanner looks at a character and what follows it and says which
token starts there and how many further characters belong to it; where no token starts, the
characters it names form a lexeme without a token. So the lexemes cover the text, in order. -/

namespace GrammarTrees

/-- What starts at a character: the token, if there is one, and the number of further characters
that belong to it. -/
structure Scan (τ : Type) where
  token : Option τ
  further : Nat

/-- Looks at a character and the characters after it. -/
abbrev Scanner (τ : Type) := Char → List Char → Scan τ

/-- A piece of a text: its token, if it has one, its characters, and the byte it starts at. -/
structure Lexeme (τ : Type) where
  token : Option τ
  chars : List Char
  offset : Nat

namespace Lexeme

variable {τ : Type}

def text (l : Lexeme τ) : String := String.ofList l.chars

/-- The lexemes of the given characters after the first `skip` of them, up to and including the
first that `last` accepts. The first of the characters stands at byte `offset`. -/
def readFrom (scan : Scanner τ) (last : Lexeme τ → Bool) :
    (offset skip : Nat) → List Char → List (Lexeme τ)
  | _, _, [] => []
  | offset, skip + 1, c :: cs => readFrom scan last (offset + c.utf8Size) skip cs
  | offset, 0, c :: cs =>
    let found := scan c cs
    let lexeme : Lexeme τ := ⟨found.token, c :: cs.take found.further, offset⟩
    if last lexeme then [lexeme]
    else lexeme :: readFrom scan last (offset + c.utf8Size) found.further cs

def readAll (scan : Scanner τ) (cs : List Char) : List (Lexeme τ) :=
  readFrom scan (fun _ => false) 0 0 cs

end Lexeme

def Scan.single {τ : Type} (token : τ) : Scan τ := ⟨some token, 0⟩

def Scan.stray {τ : Type} : Scan τ := ⟨none, 0⟩

/-- The token of a character and the run of characters after it for which `p` holds. -/
def Scan.run {τ : Type} (token : τ) (p : Char → Bool) (cs : List Char) : Scan τ :=
  ⟨some token, (cs.takeWhile p).length⟩

/-- The number of characters up to the end of the first `a` that is followed by `b`. -/
def lengthThrough (a b : Char) : List Char → Option Nat
  | [] => none
  | [_] => none
  | c :: d :: cs =>
    if c = a ∧ d = b then some 2 else (lengthThrough a b (d :: cs)).map (· + 1)

end GrammarTrees
