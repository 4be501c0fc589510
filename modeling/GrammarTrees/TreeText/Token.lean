import GrammarTrees.Text.Blank
import GrammarTrees.Text.Lexeme
import GrammarTrees.Text.Numeral
import GrammarTrees.Text.Quoted

/-! The tokens of the tree notation. A node is written as its kind, followed by a colon and its
text, followed by an at sign and its position; the text is a word, a quoted text or a
braced text. -/

namespace GrammarTrees.TreeText

inductive Token where
  | opening
  | closing
  | colon
  | quoted
  | braced
  | position
  | word
  | gap
deriving DecidableEq, Repr

def isWordChar (c : Char) : Bool :=
  !isBlank c && ['(', ')', ':', '\'', '\x7b', '\x7d', '@'].all (· ≠ c)

/-- The number of characters up to the brace that closes `depth` inner braces and the one before
them, and a question mark right after it. -/
def bracedLength : (depth : Nat) → List Char → Option Nat
  | _, [] => none
  | depth, c :: cs =>
    if c = '\x7b' then (bracedLength (depth + 1) cs).map (· + 1)
    else if c = '\x7d' then
      match depth with
      | 0 => some (if cs.head? = some '?' then 2 else 1)
      | depth + 1 => (bracedLength depth cs).map (· + 1)
    else (bracedLength depth cs).map (· + 1)

/-- The digits of line and column in the characters after an at sign, split at their colon. -/
def splitPosition (cs : List Char) : List Char × List Char :=
  (cs.takeWhile (· ≠ ':'), (cs.dropWhile (· ≠ ':')).drop 1)

/-- The number of characters that a position takes after its at sign. -/
def positionLength (cs : List Char) : Option Nat :=
  let line := cs.takeWhile Char.isDigit
  match cs.dropWhile Char.isDigit with
  | ':' :: rest =>
    let column := rest.takeWhile Char.isDigit
    if line = [] ∨ column = [] then none else some (line.length + 1 + column.length)
  | _ => none

/-- The position that is written after an at sign. A number that is too large counts as 0. -/
def positionOf (cs : List Char) : Position :=
  let (line, column) := splitPosition cs
  ⟨(readDigits line).getD 0, (readDigits column).getD 0⟩

/-- The token of `further` characters after the first, if that many are given. -/
def scanOf (token : Token) : (further : Option Nat) → Scan Token
  | some further => ⟨some token, further⟩
  | none => .stray

def scan : Scanner Token
  | '(', _ => .single .opening
  | ')', _ => .single .closing
  | ':', _ => .single .colon
  | '\'', cs =>
    let run := quotedRun '\'' (fun _ => true) cs
    ⟨if run.1 then some .quoted else none, run.2⟩
  | '\x7b', cs => scanOf .braced (bracedLength 0 cs)
  | '@', cs => scanOf .position (positionLength cs)
  | c, cs =>
    if isWordChar c then .run .word isWordChar cs
    else if isGap c then .run .gap isGap cs
    else .stray

end GrammarTrees.TreeText
