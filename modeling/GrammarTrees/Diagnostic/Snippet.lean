import GrammarTrees.Diagnostic.Basic
import GrammarTrees.Text.Split

/-! Diagnostics shown at the source line they concern: a title, the place, and the line with carets
below the characters in question. The same text is written plain or in the colors of a terminal. -/

namespace GrammarTrees

inductive Style where
  | plain
  | title
  | margin
  | level (severity : Severity)

namespace Style

/-- The control sequences that switch a style on. -/
def opening : Style → String
  | plain => ""
  | title => "\x1b[1m"
  | margin => "\x1b[1m\x1b[94m"
  | level .error => "\x1b[1m\x1b[91m"
  | level .warning => "\x1b[1m\x1b[33m"

def paint (colored : Bool) (s : Style) (text : String) : String :=
  match s with
  | plain => text
  | _ => if colored then s.opening ++ text ++ "\x1b[0m" else text

end Style

abbrev StyledLine := List (Style × String)

def StyledLine.text (colored : Bool) (line : StyledLine) : String :=
  String.join (line.map fun piece => piece.1.paint colored piece.2)

namespace Snippet

def blanks (n : Nat) : String := String.ofList (List.replicate n ' ')

/-- A character as it is shown: a tab takes four columns, and other control characters have a sign
of their own. -/
def shownChar (c : Char) : List Char :=
  if c = '\t' then [' ', ' ', ' ', ' ']
  else if c.toNat < 32 then [Char.ofNat (0x2400 + c.toNat)]
  else if c.toNat = 127 then ['␡']
  else [c]

def shown (cs : List Char) : List Char := cs.flatMap shownChar

/-- Line number `n` of a text, counted from 0, without the line end. -/
def lineOf : (n : Nat) → List Char → List Char
  | 0, cs =>
    let line := cs.takeWhile (· ≠ '\n')
    if line.getLast? = some '\r' then line.dropLast else line
  | n + 1, cs => lineOf n ((cs.dropWhile (· ≠ '\n')).drop 1)

/-- Severity and message. Further lines of the message start below its first character. -/
def titleLines (d : Diagnostic) : List StyledLine :=
  let level := d.severity.name
  match (splitAtChar '\n' d.message.toList).map fun line => String.ofList (shown line) with
  | [] => []
  | first :: more =>
    [(.level d.severity, level), (.title, ": " ++ first)] ::
      more.map fun line => [(.plain, blanks (level.length + 2)), (.title, line)]

/-- The source line of a range and the carets below it. A range of no characters marks the one after
it, and there is always a caret. -/
def sourceLines (severity : Severity) (file : Option String) (source : String)
    (range : ByteRange) : List StyledLine :=
  let cs := source.toList
  let start := Position.ofOffset source range.start
  let line := lineOf (start.line - 1) cs
  let number := toString start.line
  let margin := blanks (number.length + 1)
  let before := shown (line.take start.column)
  let stop := max range.stop (range.start + 1)
  let count := (takeBytes cs stop).length - (takeBytes cs range.start).length
  let marked := shown ((line.drop start.column).take count)
  let carets := String.ofList (List.replicate (max 1 marked.length) '^')
  let place : List StyledLine :=
    match file with
    | some file =>
      [[(.plain, blanks number.length), (.margin, "--> "),
        (.plain, file ++ ":" ++ number ++ ":" ++ toString (start.column + 1))]]
    | none => []
  place ++
    [[(.plain, margin), (.margin, "|")],
     [(.margin, number), (.plain, " "), (.margin, "|"),
      (.plain, if line.isEmpty then "" else " " ++ String.ofList (shown line))],
     [(.plain, margin), (.margin, "|"), (.plain, blanks (before.length + 1)),
      (.level severity, carets)]]

/-- A diagnostic at its range in `source`. The given path stands for its file. -/
def lines (source : String) (path : Option String) (d : Diagnostic) (range : ByteRange) :
    List StyledLine :=
  titleLines d ++ sourceLines d.severity (path.or d.file) source range

end Snippet

/-- How a report is printed: with or without a source, a path in place of the files, and colors. -/
structure Printer where
  source : Option String
  path : Option String
  colored : Bool

namespace Printer

/-- One diagnostic: at its source line where source and range are known, else as plain text. -/
def diagnosticText (p : Printer) (d : Diagnostic) : String :=
  match p.source, d.range with
  | some source, some range =>
    "\n".intercalate ((Snippet.lines source p.path d range).map (·.text p.colored))
  | _, _ => d.text

/-- A whole report, its entries separated by line feeds. -/
def text (p : Printer) (r : Report) : String := "\n".intercalate (r.map p.diagnosticText)

end Printer

end GrammarTrees
