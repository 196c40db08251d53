import Lox.Text.CharacterSet

/-!
# Blanks

The characters with the Unicode property White_Space. Trimming removes them at the ends of a text;
a report drops them at the end of a quoted line. The scanner has a narrower notion of its own.
-/

namespace Lox.Text

/-- The characters with the property White_Space. -/
def blanks : CharacterSet where
  edges := #[
    9, 14, 32, 33, 133, 134, 160, 161, 5760, 5761, 8192, 8203, 8232, 8234, 8239, 8240, 8287, 8288,
    12288, 12289]

def isBlank (c : Char) : Bool :=
  blanks.contains c

def trimEnd (characters : List Char) : List Char :=
  (characters.reverse.dropWhile isBlank).reverse

def trim (characters : List Char) : List Char :=
  trimEnd (characters.dropWhile isBlank)

end Lox.Text
