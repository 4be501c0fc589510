import GrammarTrees.Diagnostic.Problem
import GrammarTrees.Forest.Basic

/-! Diagnostics: a problem with its message, and the place it concerns as far as it is known. They
are collected in a report, in the order in which they were found. -/

namespace GrammarTrees

structure Diagnostic where
  problem : Problem
  file : Option String
  position : Option Position
  range : Option ByteRange
  message : String
  cause : Option String
deriving DecidableEq, Repr

namespace Diagnostic

/-- A problem of which nothing more is known. -/
def of (problem : Problem) : Diagnostic := ⟨problem, none, none, none, problem.message none, none⟩

/-- Words the message for `detail`. -/
def withDetail (d : Diagnostic) (detail : String) : Diagnostic :=
  { d with message := d.problem.message (some detail) }

def inFile (d : Diagnostic) (file : String) : Diagnostic := { d with file := some file }

/-- Places a diagnostic. Position and range are those of the same piece of source; a position that
is not known changes nothing. -/
def located (d : Diagnostic) (position : Position) (range : Option ByteRange) : Diagnostic :=
  { d with
    position := if position.isKnown then some position else d.position
    range := range }

def withCause (d : Diagnostic) (cause : String) : Diagnostic := { d with cause := some cause }

def severity (d : Diagnostic) : Severity := d.problem.severity

def isError (d : Diagnostic) : Bool := d.severity = .error

def isWarning (d : Diagnostic) : Bool := d.severity = .warning

/-- File and position, as far as they are known, in front of a message. -/
def location (d : Diagnostic) : String :=
  match d.file, d.position with
  | some file, some p => file ++ ":" ++ p.text ++ ": "
  | some file, none => file ++ ": "
  | none, some p => p.text ++ ": "
  | none, none => ""

/-- A diagnostic as plain text: one line, and another one for the cause. -/
def text (d : Diagnostic) : String :=
  d.severity.name ++ "(" ++ toString d.problem.code ++ "): " ++ d.location ++ d.message ++
    match d.cause with
    | some cause => "\nCaused by: " ++ cause
    | none => ""

end Diagnostic

abbrev Report := List Diagnostic

namespace Report

def errors (r : Report) : List Diagnostic := r.filter Diagnostic.isError

def warnings (r : Report) : List Diagnostic := r.filter Diagnostic.isWarning

def problems (r : Report) : List Problem := r.map Diagnostic.problem

def text (r : Report) : String := "\n".intercalate (r.map Diagnostic.text)

end Report

end GrammarTrees
