/-! Decimal numerals of 32-bit numbers. -/

namespace GrammarTrees

/-- The number that decimal digits spell. -/
def digitsValue (cs : List Char) : Nat :=
  cs.foldl (fun n c => 10 * n + (c.toNat - '0'.toNat)) 0

/-- The number that one or more decimal digits spell, if it is one of 32 bits. -/
def readDigits (cs : List Char) : Option Nat :=
  if cs ≠ [] ∧ cs.all Char.isDigit ∧ digitsValue cs < UInt32.size then some (digitsValue cs)
  else none

/-- As `readDigits`, with or without a plus sign in front. -/
def readNumber : List Char → Option Nat
  | '+' :: cs => readDigits cs
  | cs => readDigits cs

end GrammarTrees
