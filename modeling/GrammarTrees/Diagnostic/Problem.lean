/-! The problems that are reported to the author of a grammar, each with a stable number, a severity
and its wording. -/

namespace GrammarTrees

inductive Severity where
  | error
  | warning
deriving DecidableEq, Repr

def Severity.name : Severity → String
  | error => "error"
  | warning => "warning"

inductive Problem where
  | internalError
  | actionRedefinition
  | optionsInDelegate
  | groupFileNotFoundOnCmdline
  | groupFileNotFoundInGrammar
  | groupFileWrongExtension
  | groupFileReadError
  | groupFileCompileError
  | groupFileRenderError
  | actionTemplateCompileError
  | actionTemplateRenderError
deriving DecidableEq, Repr

namespace Problem

def all : List Problem :=
  [internalError, actionRedefinition, optionsInDelegate, groupFileNotFoundOnCmdline,
   groupFileNotFoundInGrammar, groupFileWrongExtension, groupFileReadError, groupFileCompileError,
   groupFileRenderError, actionTemplateCompileError, actionTemplateRenderError]

def name : Problem → String
  | internalError => "INTERNAL_ERROR"
  | actionRedefinition => "ACTION_REDEFINITION"
  | optionsInDelegate => "OPTIONS_IN_DELEGATE"
  | groupFileNotFoundOnCmdline => "GROUP_FILE_NOT_FOUND_ON_CMDLINE"
  | groupFileNotFoundInGrammar => "GROUP_FILE_NOT_FOUND_IN_GRAMMAR"
  | groupFileWrongExtension => "GROUP_FILE_WRONG_EXTENSION"
  | groupFileReadError => "GROUP_FILE_READ_ERROR"
  | groupFileCompileError => "GROUP_FILE_COMPILE_ERROR"
  | groupFileRenderError => "GROUP_FILE_RENDER_ERROR"
  | actionTemplateCompileError => "ACTION_TEMPLATE_COMPILE_ERROR"
  | actionTemplateRenderError => "ACTION_TEMPLATE_RENDER_ERROR"

def ofName? (name : String) : Option Problem := all.find? (·.name = name)

def code : Problem → Nat
  | internalError => 20
  | actionRedefinition => 94
  | optionsInDelegate => 109
  | groupFileNotFoundOnCmdline => 206
  | groupFileNotFoundInGrammar => 207
  | groupFileWrongExtension | groupFileReadError => 208
  | groupFileCompileError => 209
  | groupFileRenderError => 210
  | actionTemplateCompileError => 211
  | actionTemplateRenderError => 212

def severity : Problem → Severity
  | optionsInDelegate => .warning
  | _ => .error

def summary : Problem → String
  | internalError => "internal error"
  | actionRedefinition => "action redefinition"
  | optionsInDelegate => "options ignored in imported grammar"
  | groupFileNotFoundOnCmdline | groupFileNotFoundInGrammar => "cannot find action templates file"
  | groupFileWrongExtension | groupFileReadError => "error reading action templates file"
  | groupFileCompileError => "error compiling action templates file"
  | groupFileRenderError => "error rendering action templates file"
  | actionTemplateCompileError => "error compiling action template"
  | actionTemplateRenderError => "error rendering action template"

/-- What stands before and after the detail. A name or a path follows the summary after a space,
any other detail after a colon. -/
def frame : Problem → String × String
  | actionRedefinition => ("redefinition of `", "` action")
  | p@internalError | p@actionTemplateCompileError | p@actionTemplateRenderError =>
    (p.summary ++ ": ", "")
  | p => (p.summary ++ " ", "")

/-- The wording for a given detail, if there is one. -/
def message (p : Problem) : (detail : Option String) → String
  | none => p.summary
  | some detail => p.frame.1 ++ detail ++ p.frame.2

/-- The wording with an empty pair of braces in place of the detail. -/
def template (p : Problem) : String := p.message (some "\x7b\x7d")

end Problem

end GrammarTrees
