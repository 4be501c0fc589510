import GrammarTrees.Diagnostic.Basic

/-! Reports as JSON: an array with one object a diagnostic, indented by two spaces a level. A field
that is not known is left out. -/

namespace GrammarTrees

namespace JsonText

def hexDigit (n : Nat) : Char := Nat.digitChar n

/-- A character inside a string literal. Quotes, backslashes and control characters are escaped. -/
def charText (c : Char) : List Char :=
  match c with
  | '"' => ['\\', '"']
  | '\\' => ['\\', '\\']
  | '\x08' => ['\\', 'b']
  | '\x0c' => ['\\', 'f']
  | '\n' => ['\\', 'n']
  | '\r' => ['\\', 'r']
  | '\t' => ['\\', 't']
  | c =>
    if c.toNat < 32 then
      ['\\', 'u', '0', '0', hexDigit (c.toNat / 16), hexDigit (c.toNat % 16)]
    else [c]

def quote (s : String) : String :=
  String.ofList ('"' :: (s.toList.flatMap charText ++ ['"']))

/-- Items between brackets, each on a line of its own that starts with `indent` and two spaces. -/
def block (opening closing indent : String) (items : List String) : String :=
  if items.isEmpty then opening ++ closing
  else
    opening ++ "\n" ++ ",\n".intercalate (items.map (indent ++ "  " ++ ·)) ++ "\n" ++ indent ++
      closing

end JsonText

namespace Diagnostic

/-- The known fields of a diagnostic, in order, with their values as JSON. -/
def jsonFields (d : Diagnostic) : List (String × String) :=
  let known (name : String) (value : Option String) : List (String × String) :=
    (value.map fun v => (name, v)).toList
  [("code", toString d.problem.code), ("kind", JsonText.quote d.problem.name),
   ("severity", JsonText.quote d.severity.name)] ++
  known "file" (d.file.map JsonText.quote) ++
  known "line" (d.position.map fun p => toString p.line) ++
  known "column" (d.position.map fun p => toString p.column) ++
  [("message", JsonText.quote d.message)] ++
  known "cause" (d.cause.map JsonText.quote)

def json (d : Diagnostic) : String :=
  JsonText.block "\x7b" "\x7d" "  "
    (d.jsonFields.map fun f => JsonText.quote f.1 ++ ": " ++ f.2)

end Diagnostic

def Report.json (r : Report) : String := JsonText.block "[" "]" "" (r.map Diagnostic.json)

end GrammarTrees
