/-! Texts between an opening and a closing mark: how far a quoted text runs, what stands between the
marks, and what its escapes stand for. A backslash escapes the character after it. -/

namespace GrammarTrees

/-- What stands between the character `opening` and the characters `closing` at the two ends. -/
def inside? (opening : Char) (closing : List Char) : List Char → Option (List Char)
  | [] => none
  | c :: cs =>
    if c = opening ∧ closing.isSuffixOf cs then some (cs.take (cs.length - closing.length))
    else none

/-- How far a quoted text runs after its opening quote: whether it ends with a closing quote, and
the number of its characters, that quote included. It stops before a character that is not
`allowed` in it, and an escaped line feed is never allowed. -/
def quotedRun (quote : Char) (allowed : Char → Bool) : List Char → Bool × Nat
  | [] => (false, 0)
  | ['\\'] => (false, 1)
  | '\\' :: c :: cs =>
    if c = '\n' then (false, 1)
    else
      let rest := quotedRun quote allowed cs
      (rest.1, rest.2 + 2)
  | c :: cs =>
    if c = quote then (true, 1)
    else if allowed c then
      let rest := quotedRun quote allowed cs
      (rest.1, rest.2 + 1)
    else (false, 0)

/-- What an escaped character stands for: a line feed, a carriage return or a tab for its letter,
and itself for any other. -/
def escaped : Char → Char
  | 'n' => '\n'
  | 'r' => '\r'
  | 't' => '\t'
  | c => c

/-- Replaces each escape by what it stands for. A backslash at the end stands for itself. -/
def unescape : List Char → List Char
  | [] => []
  | ['\\'] => ['\\']
  | '\\' :: c :: cs => escaped c :: unescape cs
  | c :: cs => c :: unescape cs

/-- The text that a quoted text stands for. Quotes that are not at both ends belong to it. -/
def unquote (quote : Char) (text : String) : String :=
  let cs := text.toList
  String.ofList (unescape ((inside? quote [quote] cs).getD cs))

end GrammarTrees
