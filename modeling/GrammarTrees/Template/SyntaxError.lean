import GrammarTrees.Template.Message
import GrammarTrees.Text.Lexeme

/-! Errors in the text of a template or a group file, each at a byte of that text. -/

namespace GrammarTrees.Template

inductive SyntaxFault where
  /-- The text ends inside a string, a comment or an expression. -/
  | prematureEnd
  | invalidCharacter (c : Char)
  | mismatched (found expecting : String)
  | missingImport (path : String)
  | redefinition (name : String)
deriving DecidableEq, Repr

namespace SyntaxFault

def shape : SyntaxFault → Shape
  | invalidCharacter _ => .lexer
  | _ => .structural

def text : SyntaxFault → String
  | prematureEnd => "premature EOF"
  | invalidCharacter c => "invalid character '" ++ String.singleton c ++ "'"
  | mismatched found expecting => "mismatched input '" ++ found ++ "' expecting " ++ expecting
  | missingImport path => "can't find imported group file " ++ path
  | redefinition name => "redefinition of template /" ++ name

end SyntaxFault

structure SyntaxError where
  fault : SyntaxFault
  offset : Nat
deriving DecidableEq, Repr

namespace SyntaxError

/-- The message about an error in the text `source`, which goes by the given name if it has one. -/
def message (e : SyntaxError) (name : Option String) (source : String) : Message :=
  ⟨.compile, e.fault.shape, name, some (.ofOffset source e.offset), e.fault.text, none⟩

end SyntaxError

variable {τ α : Type}

/-- The lexeme `l` stands where `expecting` was needed. -/
def mismatch (l : Lexeme τ) (expecting : String) : Except SyntaxError α :=
  .error ⟨.mismatched l.text expecting, l.offset⟩

/-- The error of a lexeme without a token: those that start with one of the given `openers` run up
to the end of a text of `size` bytes, in others the first character is wrong. -/
def strayError (openers : List (List Char)) (size : Nat) (l : Lexeme τ) : SyntaxError :=
  if openers.any (·.isPrefixOf l.chars) then ⟨.prematureEnd, size⟩
  else ⟨.invalidCharacter (l.chars.head?.getD ' '), l.offset⟩

end GrammarTrees.Template
