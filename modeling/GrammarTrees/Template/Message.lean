import GrammarTrees.Text.Position

/-! What a template engine has to say about templates and group files. -/

namespace GrammarTrees.Template

/-- On which occasion a message arises. -/
inductive Channel where
  /-- A template or a group file is read. -/
  | compile
  /-- A template is rendered. -/
  | runtime
  /-- A file cannot be had. -/
  | io
  | internal
deriving DecidableEq, Repr

inductive Shape where
  | structural
  /-- A character that starts no token. -/
  | lexer
  | plain
deriving DecidableEq, Repr

structure Message where
  channel : Channel
  shape : Shape
  /-- The group file or template that the message names. -/
  source : Option String
  /-- The place in the source, or in the inline template. -/
  position : Option Position
  text : String
  cause : Option String
deriving DecidableEq, Repr

namespace Message

/-- The source and the place in it, as far as they are given, and the text. The cause is left
out. -/
def display (m : Message) : String :=
  match m.source, m.position with
  | some source, some p => source ++ " " ++ p.text ++ ": " ++ m.text
  | some source, none => source ++ ": " ++ m.text
  | none, some p => p.text ++ ": " ++ m.text
  | none, none => m.text

end Message

end GrammarTrees.Template
