import Lox.Text.Blank
import Lox.Text.Lines
import Lox.Text.Span
import Lox.Text.Width

/-!
# Annotated reports

A diagnostic is shown above the lines of the text that its span touches. A span within one line is
underlined, and the label hangs from the middle of it; a span over several lines is bracketed at the
left, and the label hangs below its last line. Every piece is painted on its own.
-/

namespace Lox

structure Source where
  name : String
  text : String

structure Diagnostic where
  code : String
  message : String
  label : String
  span : Span

namespace Diagnostic

open Text

/-- A span cut to the text. An empty one is stretched over the character before it, so that the
end of a text can be pointed at. -/
def range (span : Span) (characters : List Char) : Nat × Nat :=
  let stop := min span.stop (byteSize characters)
  let start := min span.start stop
  if start = stop then
    match (characters.take (charactersBefore characters start)).getLast? with
    | some previous => (start - previous.utf8Size, stop)
    | none => (start, stop)
  else (start, stop)

private def escapeSequence (code text : String) : String :=
  "\x1b[" ++ code ++ "m" ++ text ++ "\x1b[0m"

/-- One piece in a colour of the palette. -/
private def paint (colour : Nat) (text : String) : String :=
  escapeSequence ("38;5;" ++ toString colour) text

private def mark (text : String) : String :=
  escapeSequence "91" text

private def spaces (count : Nat) : String :=
  String.ofList (List.replicate count ' ')

private def repeated (count : Nat) (piece : String) : String :=
  String.join (List.replicate count piece)

/-- The columns to the next stop of a tab, stops lying at every fourth character. -/
private def tabWidth (column : Nat) : Nat :=
  4 - column % 4

/-- How many columns the character with this index takes in a line without its trailing blanks.
Behind the end every index takes one. -/
private def columnWidth (shown : Array Char) (column : Nat) : Nat :=
  match shown[column]? with
  | none => 1
  | some c => if c = '\t' then tabWidth column else if isBlank c then 1 else width c

/-- A line of the text without trailing blanks, the characters of the span marked. -/
private def quotation (line : Line) (start stop : Nat) : String :=
  let painted (column : Nat) (c : Char) : String :=
    let offset := line.offset + column
    let piece := if start ≤ offset && offset < stop then mark else paint 249
    if c = '\t' then repeated (tabWidth column) (piece " ")
    else if isBlank c then piece " "
    else piece (String.singleton c)
  String.join ((trimEnd line.characters).mapIdx painted)

/-- The layout of one report: the text in lines, the span in characters, and the width of the
column of line numbers. -/
structure Layout where
  lines : List Line
  start : Nat
  stop : Nat
  first : Nat
  last : Nat
  numberWidth : Nat

namespace Layout

def ofRange (characters : List Char) (startByte stopByte : Nat) : Layout :=
  let lines := Text.lines characters
  let start := charactersBefore characters startByte
  let stop := charactersBefore characters stopByte
  let last := lineIndex lines (max (stop - 1) start)
  { lines, start, stop, last
    first := lineIndex lines start
    numberWidth := (toString (last + 1)).length }

def line (layout : Layout) (index : Nat) : Line :=
  layout.lines.getD index ⟨0, []⟩

/-- The margin of a quoted line, with its number. -/
private def numberMargin (layout : Layout) (index : Nat) : String :=
  let number := toString (index + 1)
  " " ++ paint 246 (spaces (layout.numberWidth - number.length) ++ number ++ " │") ++ " "

/-- The margin of a line that is not part of the text. -/
private def blankMargin (layout : Layout) (rule : String) : String :=
  " " ++ paint 240 (spaces (layout.numberWidth + 1) ++ rule) ++ " "

private def quoted (layout : Layout) (index : Nat) : String :=
  quotation (layout.line index) layout.start layout.stop

/-- The quoted line, the underline, and the label on an arm that starts below its middle. -/
private def singleLine (layout : Layout) (label : String) : List String :=
  let line := layout.line layout.first
  let shown := (trimEnd line.characters).toArray
  let anchor := (layout.start + layout.stop) / 2 - line.offset
  let columns := List.range (layout.stop - line.offset + 2)
  let inside (column : Nat) : Bool :=
    layout.start ≤ line.offset + column && line.offset + column < layout.stop
  let pieces (column : Nat) (first rest : String) : String :=
    match columnWidth shown column with
    | 0 => ""
    | columns + 1 => first ++ repeated columns rest
  let underline (column : Nat) : String :=
    if column = anchor then
      if inside column then pieces column (mark "┬") (mark "─")
      else pieces column (mark "│") (mark " ")
    else if inside column then pieces column (mark "─") (mark "─")
    else pieces column " " " "
  let arm (column : Nat) : String :=
    if column = anchor then pieces column (mark "╰") (mark "─")
    else if anchor < column then pieces column (mark "─") (mark "─")
    else pieces column " " " "
  [layout.numberMargin layout.first ++ layout.quoted layout.first,
    layout.blankMargin "│" ++ String.join (columns.map underline),
    layout.blankMargin "│" ++ String.join (columns.map arm) ++ " " ++ label]

/-- The first and the last line of the span, bracketed, and the label below them. -/
private def severalLines (layout : Layout) (label : String) : List String :=
  let bracketed (corner : String) (index : Nat) : String :=
    layout.numberMargin index ++ mark corner ++ mark "─" ++ mark "▶" ++ mark " "
      ++ layout.quoted index
  let line := layout.line layout.last
  let shown := (trimEnd line.characters).toArray
  let reach := (List.range (line.characters.length + 2)).foldl
    (fun sum column => sum + columnWidth shown column) 0
  let gap := if layout.first + 1 < layout.last then
      [layout.blankMargin "┆" ++ mark "┆" ++ spaces 3]
    else []
  [bracketed "╭" layout.first] ++ gap ++
    [bracketed "├" layout.last,
      layout.blankMargin "│" ++ mark "│" ++ spaces (3 + reach),
      layout.blankMargin "│" ++ mark "╰" ++ repeated (3 + reach) (mark "─") ++ " " ++ label]

private def body (layout : Layout) (label : String) : List String :=
  if layout.first = layout.last then layout.singleLine label else layout.severalLines label

end Layout

/-- The report of a diagnostic over its text, every line ended. -/
def render (diagnostic : Diagnostic) (source : Source) : String :=
  let characters := source.text.toList
  let (startByte, stopByte) := range diagnostic.span characters
  let layout := Layout.ofRange characters startByte stopByte
  let column := layout.start - (layout.line layout.first).offset
  let place := " " ++ source.name ++ ":" ++ toString (layout.first + 1) ++ ":"
    ++ toString (column + 1) ++ " "
  let indent := spaces (layout.numberWidth + 2)
  let head := [
    escapeSequence "31" ("[" ++ diagnostic.code ++ "] Error:") ++ " " ++ diagnostic.message,
    indent ++ paint 246 "╭" ++ paint 246 "─" ++ paint 246 "[" ++ place ++ paint 246 "]",
    indent ++ paint 246 "│"]
  let foot := [paint 246 (repeated (layout.numberWidth + 2) "─" ++ "╯")]
  String.join ((head ++ layout.body diagnostic.label ++ foot).map (· ++ "\n"))

end Diagnostic

end Lox
