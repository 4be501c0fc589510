import GrammarTrees.Template.SyntaxError
import GrammarTrees.Text.Blank
import GrammarTrees.Text.Quoted

/-! The expressions of templates: string literals, parameters, and calls of other templates with
expressions as arguments. -/

namespace GrammarTrees.Template

inductive Expression where
  | literal (text : List Char)
  /-- The name stands at byte `offset` of the template. -/
  | param (name : String) (offset : Nat)
  | call (name : String) (args : List Expression) (offset : Nat)

instance : Inhabited Expression := ⟨.literal []⟩

def isNameStart (c : Char) : Bool := c.isAlpha || c = '_'

def isNamePart (c : Char) : Bool := isNameStart c || c.isDigit

namespace Expression

inductive Token where
  | name
  | opening
  | closing
  | comma
  | quoted
  | close
  | gap
deriving DecidableEq, Repr

/-- A token in the wording of errors. -/
def Token.text : Token → String
  | name => "ID"
  | opening => "'('"
  | closing => "')'"
  | comma => "','"
  | quoted => "STRING"
  | close => "'>'"
  | gap => "WS"

def scan : Scanner Token
  | '(', _ => .single .opening
  | ')', _ => .single .closing
  | ',', _ => .single .comma
  | '>', _ => .single .close
  | '"', cs =>
    let run := quotedRun '"' (fun _ => true) cs
    ⟨if run.1 then some .quoted else none, run.2⟩
  | c, cs =>
    if isNameStart c then .run .name isNamePart cs
    else if isGap c then .run .gap isGap cs
    else .stray

/-- A call whose closing parenthesis is still to come, with the arguments read so far, the latest
first. -/
structure OpenCall where
  name : String
  offset : Nat
  args : List Expression

namespace OpenCall

def add (c : OpenCall) (e : Expression) : OpenCall := { c with args := e :: c.args }

def expression (c : OpenCall) : Expression := .call c.name c.args.reverse c.offset

end OpenCall

inductive Stage where
  /-- An expression is still to come; after an opening parenthesis a closing one may come
  instead. -/
  | operand (afterOpening : Bool)
  /-- A name, which may be called. -/
  | name (name : String) (offset : Nat)
  | complete (e : Expression)

/-- A name that is not called is a parameter. -/
def Stage.settle : Stage → Stage
  | name n offset => complete (.param n offset)
  | s => s

/-- The open calls, innermost first, and the stage after one more lexeme. -/
def step (calls : List OpenCall) (s : Stage) (l : Lexeme Token) :
    Except SyntaxError (List OpenCall × Stage) :=
  match s, l.token with
  | .name n offset, some .opening => .ok (⟨n, offset, []⟩ :: calls, .operand true)
  | s, token =>
    match s.settle, calls, token with
    | .operand _, _, some .quoted =>
      .ok (calls, .complete (.literal (unquote '"' l.text).toList))
    | .operand _, _, some .name => .ok (calls, .name l.text l.offset)
    | .operand true, c :: calls, some .closing => .ok (calls, .complete c.expression)
    | .operand _, _, _ => mismatch l Token.name.text
    | .complete e, c :: calls, some .comma => .ok (c.add e :: calls, .operand false)
    | .complete e, c :: calls, some .closing => .ok (calls, .complete (c.add e).expression)
    | .complete _, _ :: _, _ => mismatch l Token.closing.text
    | _, _, _ => mismatch l Token.close.text

/-- The expression of the given lexemes, which `close` ends. -/
def ofLexemes (close : Lexeme Token) :
    List OpenCall → Stage → List (Lexeme Token) → Except SyntaxError Expression
  | calls, s, [] =>
    match s.settle, calls with
    | .complete e, [] => .ok e
    | .complete _, _ :: _ => mismatch close Token.closing.text
    | _, _ => mismatch close Token.name.text
  | calls, s, l :: ls => do
    let (calls, s) ← step calls s l
    ofLexemes close calls s ls

/-- Whether an expression cannot go on after a lexeme. -/
def isLast (l : Lexeme Token) : Bool := l.token.isNone || l.token = some .close

/-- Reads an expression up to its closing mark, from byte `offset` on of a text of `size` bytes.
Gives the expression and the number of characters read. -/
def read (size offset : Nat) (cs : List Char) : Except SyntaxError (Expression × Nat) :=
  let lexemes := Lexeme.readFrom scan isLast offset 0 cs
  match lexemes.getLast? with
  | some l =>
    match l.token with
    | none => .error (strayError [['"']] size l)
    | some .close => do
      let e ← ofLexemes l [] (.operand false)
        (lexemes.dropLast.filter fun l => l.token ≠ some .gap)
      return (e, (lexemes.flatMap Lexeme.chars).length)
    | some _ => .error ⟨.prematureEnd, size⟩
  | none => .error ⟨.prematureEnd, size⟩

end Expression

end GrammarTrees.Template
