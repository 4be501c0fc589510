/-! Splitting a text at every occurrence of a character. -/

namespace GrammarTrees

/-- The pieces between the occurrences of `separator`, in order. There is always at least one. -/
def splitAtChar (separator : Char) : List Char → List (List Char)
  | [] => [[]]
  | c :: cs =>
    if c = separator then [] :: splitAtChar separator cs
    else
      match splitAtChar separator cs with
      | [] => [[c]]
      | piece :: pieces => (c :: piece) :: pieces

theorem splitAtChar_ne_nil (separator : Char) (cs : List Char) :
    splitAtChar separator cs ≠ [] := by
  induction cs with
  | nil => simp [splitAtChar]
  | cons c cs ih =>
    simp only [splitAtChar]
    split
    · simp
    · split <;> simp

end GrammarTrees
