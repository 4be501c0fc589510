import GrammarTrees.Template.Expression

/-! The text of group files: imports of other group files, followed by definitions of templates.
After an error in a definition, reading goes on behind the next string. -/

namespace GrammarTrees.Template

/-- An imported path, and the byte its string starts at. -/
structure Import where
  path : String
  offset : Nat

/-- A template as it is written. Its name and the first character of its body stand at the given
bytes. -/
structure Definition where
  name : String
  nameOffset : Nat
  params : List String
  body : String
  bodyOffset : Nat

structure GroupText where
  imports : List Import
  definitions : List Definition

namespace GroupText

inductive Token where
  | importWord
  | name
  | opening
  | closing
  | comma
  | defines
  | colon
  | equals
  | bigString
  | quoted
  | gap
  | comment
deriving DecidableEq, Repr

/-- A token in the wording of errors. -/
def Token.text : Token → String
  | importWord => "'import'"
  | name => "ID"
  | opening => "'('"
  | closing => "')'"
  | comma => "','"
  | defines => "'::='"
  | colon => "':'"
  | equals => "'='"
  | bigString => "BIGSTRING"
  | quoted => "STRING"
  | gap | comment => "WS"

/-- Tokens that end a definition. -/
def Token.isString (t : Token) : Bool := t = bigString || t = quoted

/-- A token from a two-character opener, whose second character is the first of `cs`, through the
first `a` that is followed by `b`. Without these, the opener starts no token. -/
def enclosed (token : Token) (a b : Char) (cs : List Char) : Scan Token :=
  match lengthThrough a b (cs.drop 1) with
  | some length => ⟨some token, length + 1⟩
  | none => ⟨none, 1⟩

def scan : Scanner Token
  | '(', _ => .single .opening
  | ')', _ => .single .closing
  | ',', _ => .single .comma
  | '=', _ => .single .equals
  | ':', cs => if [':', '='].isPrefixOf cs then ⟨some .defines, 2⟩ else .single .colon
  | '<', cs => if cs.head? = some '<' then enclosed .bigString '>' '>' cs else .stray
  | '/', cs =>
    if cs.head? = some '*' then enclosed .comment '*' '/' cs
    else if cs.head? = some '/' then .run .comment (· ≠ '\n') cs
    else .stray
  | '"', cs =>
    let run := quotedRun '"' (· ≠ '\n') cs
    ⟨if run.1 then some .quoted else none, run.2⟩
  | c, cs =>
    if isNameStart c then
      let rest := cs.takeWhile isNamePart
      ⟨some (if c :: rest = ['i', 'm', 'p', 'o', 'r', 't'] then .importWord else .name),
        rest.length⟩
    else if isGap c then .run .gap isGap cs
    else .stray

/-- A string token where other text was left open runs to the end of the file. -/
def stringOpeners : List (List Char) := [['<', '<'], ['/', '*'], ['"']]

def isTrivia (l : Lexeme Token) : Bool := l.token = some .gap || l.token = some .comment

/-- Where the reading of a definition failed: the error, and the lexemes from there on. -/
structure Failure where
  error : SyntaxError
  rest : List (Lexeme Token)

/-- The first of the lexemes `ls`, or else the end of a text of `size` bytes, stands where
`expecting` was needed. -/
def mismatchAt (size : Nat) (ls : List (Lexeme Token)) (expecting : String) : Failure :=
  match ls with
  | l :: _ => ⟨⟨.mismatched l.text expecting, l.offset⟩, ls⟩
  | [] => ⟨⟨.mismatched "<EOF>" expecting, size⟩, ls⟩

/-- Takes a lexeme with the given token from the front. -/
def expect (size : Nat) (token : Token) (ls : List (Lexeme Token)) :
    Except Failure (Lexeme Token × List (Lexeme Token)) :=
  match ls with
  | l :: rest =>
    if l.token = some token then .ok (l, rest) else .error (mismatchAt size ls token.text)
  | [] => .error (mismatchAt size ls token.text)

/-- The import clauses at the front, their errors, and the lexemes after them. A clause without a
path ends after its keyword. -/
def readImports (size : Nat) :
    List (Lexeme Token) → List Import × List SyntaxError × List (Lexeme Token)
  | [] => ([], [], [])
  | [l] =>
    if l.token = some .importWord then
      ([], [⟨.mismatched "<EOF>" Token.quoted.text, size⟩], [])
    else ([], [], [l])
  | l :: s :: ls =>
    if l.token = some .importWord then
      if s.token = some .quoted then
        let (imports, errors, rest) := readImports size ls
        (⟨unquote '"' s.text, s.offset⟩ :: imports, errors, rest)
      else
        let (imports, errors, rest) := readImports size (s :: ls)
        (imports, ⟨.mismatched s.text Token.quoted.text, s.offset⟩ :: errors, rest)
    else ([], [], l :: s :: ls)

def readMoreParams (size : Nat) :
    List (Lexeme Token) → Except Failure (List String × List (Lexeme Token))
  | [] => .ok ([], [])
  | [l] =>
    if l.token = some .comma then .error (mismatchAt size [] Token.name.text) else .ok ([], [l])
  | l :: p :: ls =>
    if l.token = some .comma then
      if p.token = some .name then do
        let (params, rest) ← readMoreParams size ls
        return (p.text :: params, rest)
      else .error (mismatchAt size (p :: ls) Token.name.text)
    else .ok ([], l :: p :: ls)

def readParams (size : Nat) (ls : List (Lexeme Token)) :
    Except Failure (List String × List (Lexeme Token)) :=
  match ls with
  | p :: rest =>
    if p.token = some .name then do
      let (params, rest) ← readMoreParams size rest
      return (p.text :: params, rest)
    else .ok ([], ls)
  | [] => .ok ([], [])

/-- A text without a line end at its front, and the number of characters this takes away. -/
def dropLineEnd : List Char → List Char × Nat
  | '\r' :: '\n' :: cs => (cs, 2)
  | '\n' :: cs => (cs, 1)
  | cs => (cs, 0)

/-- A text without a line end at its back. -/
def dropLastLineEnd (cs : List Char) : List Char :=
  match cs.reverse with
  | '\n' :: '\r' :: back => back.reverse
  | '\n' :: back => back.reverse
  | _ => cs

/-- The body of a big string that starts at byte `offset`, without one line end right inside each
delimiter, and the byte it starts at. -/
def bigStringBody (cs : List Char) (offset : Nat) : String × Nat :=
  let (body, dropped) := dropLineEnd ((cs.drop 2).take (cs.length - 4))
  (String.ofList (dropLastLineEnd body), offset + 2 + dropped)

/-- The body that the string at the front stands for, and the byte it starts at. -/
def readBody (size : Nat) (ls : List (Lexeme Token)) : Except Failure (String × Nat) :=
  let expecting := Token.quoted.text ++ " or " ++ Token.bigString.text
  match ls with
  | l :: _ =>
    match l.token with
    | some .bigString => .ok (bigStringBody l.chars l.offset)
    | some .quoted => .ok (unquote '"' l.text, l.offset + 1)
    | _ => .error (mismatchAt size ls expecting)
  | [] => .error (mismatchAt size ls expecting)

/-- The definition at the front, and the lexemes after it. -/
def readDefinition (size : Nat) (ls : List (Lexeme Token)) :
    Except Failure (Definition × List (Lexeme Token)) := do
  let (name, ls) ← expect size .name ls
  let (_, ls) ← expect size .opening ls
  let (params, ls) ← readParams size ls
  let (_, ls) ← expect size .closing ls
  let (_, ls) ← expect size .defines ls
  let (body, bodyOffset) ← readBody size ls
  return (⟨name.text, name.offset, params, body, bodyOffset⟩, ls.drop 1)

/-- The lexemes after the next string. -/
def recover : List (Lexeme Token) → List (Lexeme Token)
  | [] => []
  | l :: ls => if l.token.any Token.isString then ls else recover ls

/-- The errors and the definitions in the lexemes after the first `skip` of them. -/
def readDefinitions (size : Nat) :
    (skip : Nat) → List (Lexeme Token) → List SyntaxError × List Definition
  | _, [] => ([], [])
  | skip + 1, _ :: ls => readDefinitions size skip ls
  | 0, l :: ls =>
    match readDefinition size (l :: ls) with
    | .ok (d, rest) =>
      let (errors, ds) := readDefinitions size (ls.length - rest.length) ls
      (errors, d :: ds)
    | .error failure =>
      let rest := recover failure.rest
      let (errors, ds) := readDefinitions size (ls.length - rest.length) ls
      (failure.error :: errors, ds)

/-- Reads a group file. The errors come in this order: stray characters, imports, definitions. -/
def read (source : String) : GroupText × List SyntaxError :=
  let cs := source.toList
  let size := byteLength cs
  let lexemes := Lexeme.readAll scan cs
  let strays := lexemes.filter (·.token.isNone)
  let (imports, importErrors, rest) :=
    readImports size (lexemes.filter fun l => l.token.isSome && !isTrivia l)
  let (definitionErrors, definitions) := readDefinitions size 0 rest
  (⟨imports, definitions⟩,
    strays.map (strayError stringOpeners size) ++ importErrors ++ definitionErrors)

end GroupText

end GrammarTrees.Template
