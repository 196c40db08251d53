import Lox.Text.Span

/-!
# Lines of a text

A report divides a text into lines at every line terminator of Unicode; each line keeps its
terminator, nothing follows a final one, and an empty text is one empty line. Offsets here count
characters. `charactersBefore` takes offsets in bytes to these.

The lines that tokens and runtime errors are numbered by end at line feeds alone. `Span.ofLine`
finds them.
-/

namespace Lox.Text

def byteSize (characters : List Char) : Nat :=
  characters.foldr (fun c size => c.utf8Size + size) 0

/-- The number of characters that start before an offset in bytes. -/
def charactersBefore : List Char → (offset : Nat) → Nat
  | [], _ => 0
  | c :: rest, offset => if offset = 0 then 0 else charactersBefore rest (offset - c.utf8Size) + 1

/-- The characters that end a line alone, the carriage return aside. -/
def isTerminator (c : Char) : Bool :=
  ['\n', '\x0b', '\x0c', '\u0085', '\u2028', '\u2029'].contains c

/-- A line with its terminator, and the number of characters before it. -/
structure Line where
  offset : Nat
  characters : List Char

/-- Divides a text into lines. A carriage return with a line feed behind it is one terminator. -/
def splitLines : List Char → (current : List Char) → List (List Char)
  | [], current => if current.isEmpty then [] else [current.reverse]
  | '\r' :: '\n' :: rest, current => ('\n' :: '\r' :: current).reverse :: splitLines rest []
  | c :: rest, current =>
    if c = '\r' || isTerminator c then (c :: current).reverse :: splitLines rest []
    else splitLines rest (c :: current)

def place : (offset : Nat) → List (List Char) → List Line
  | _, [] => []
  | offset, characters :: rest =>
    ⟨offset, characters⟩ :: place (offset + characters.length) rest

def lines (characters : List Char) : List Line :=
  match place 0 (splitLines characters []) with
  | [] => [⟨0, []⟩]
  | placed => placed

/-- The index of the line that holds a character, the last line for offsets behind the text. -/
def lineIndex : List Line → (offset : Nat) → Nat
  | [], _ => 0
  | [_], _ => 0
  | line :: rest, offset =>
    if offset < line.offset + line.characters.length then 0 else lineIndex rest offset + 1

def splitFeeds : List Char → (current : List Char) → List (List Char)
  | [], current => if current.isEmpty then [] else [current.reverse]
  | c :: rest, current =>
    if c = '\n' then (c :: current).reverse :: splitFeeds rest []
    else splitFeeds rest (c :: current)

def withoutEnding (line : List Char) : List Char :=
  (line.reverse.dropWhile fun c => c = '\n' || c = '\r').reverse

end Lox.Text

namespace Lox

open Text

/-- The stretch of a line without its ending, lines being counted from one, or the end of the text
if it has no such line. -/
def Span.ofLine (characters : List Char) (line : Nat) : Span :=
  let lines := splitFeeds characters []
  match line with
  | 0 => ⟨byteSize characters, 0⟩
  | index + 1 =>
    match lines[index]? with
    | some content => ⟨byteSize (lines.take index).flatten, byteSize (withoutEnding content)⟩
    | none => ⟨byteSize characters, 0⟩

end Lox
