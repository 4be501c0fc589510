import GrammarTrees.Diagnostic.Basic
import GrammarTrees.Template.Message

/-! How the messages of a template engine become diagnostics: those about a group file name the
file, those about an action are placed at the action. -/

namespace GrammarTrees.Template

/-- Messages about files and about the engine concern no place in a grammar. -/
def internalDiagnostic (m : Message) : Diagnostic :=
  let d := (Diagnostic.of .internalError).withDetail m.display
  match m.cause with
  | some cause => d.withCause cause
  | none => d

/-- A message that arises while the group file `file` is loaded. -/
def groupDiagnostic (file : String) (m : Message) : Diagnostic :=
  let about (problem : Problem) : Diagnostic :=
    (Diagnostic.of problem).withDetail (file ++ ": " ++ m.display)
  match m.channel with
  | .compile => about .groupFileCompileError
  | .runtime => about .groupFileRenderError
  | .io | .internal => internalDiagnostic m

/-- Where an action stands: its grammar file, its first character and its range. -/
structure ActionSite where
  file : String
  position : Position
  range : Option ByteRange

namespace ActionSite

/-- The text of a message after the place in the grammar that it concerns. A template starts at the
opening brace of its action. -/
def locatedText (site : ActionSite) (m : Message) : String :=
  match m.position with
  | some p => (site.position.within p).text ++ ": " ++ m.text
  | none => m.text

def diagnostic (site : ActionSite) (problem : Problem) (detail : String) : Diagnostic :=
  (((Diagnostic.of problem).inFile site.file).located site.position site.range).withDetail detail

end ActionSite

/-- A message that arises while the action at `site` is expanded. -/
def actionDiagnostic (site : ActionSite) (m : Message) : Diagnostic :=
  match m.channel with
  | .compile =>
    let detail :=
      match m.shape with
      | .structural | .lexer => site.locatedText m
      | .plain => m.display
    site.diagnostic .actionTemplateCompileError detail
  | .runtime =>
    let detail :=
      match m.cause with
      | some cause => site.locatedText m ++ "\nCaused by: " ++ cause
      | none => site.locatedText m
    site.diagnostic .actionTemplateRenderError detail
  | .io | .internal => internalDiagnostic m

end GrammarTrees.Template
