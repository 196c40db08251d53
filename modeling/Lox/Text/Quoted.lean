import Lox.Text.Escaped

/-!
# Quoted text

Text between quotes is written so that each character can be seen: tab, the two line ends, the
zero character, the backslash and the quote itself have an escape of two characters, and any other
character without a visible form of its own is written as its hexadecimal code point.
-/

namespace Lox.Text

/-- Holds for characters that may stand between quotes as they are. -/
def isPlain (c : Char) : Bool :=
  if c.toNat < 0x7F then c.toNat ≥ 0x20 else !escaped.contains c

/-- The code point of a character in lower-case hexadecimal digits, as an escape. -/
def escapeCode (c : Char) : String :=
  "\\u\x7b" ++ String.ofList (Nat.toDigits 16 c.toNat) ++ "\x7d"

/-- One character as it is written between two of the given quotes. -/
def escape (quote c : Char) : String :=
  if c = '\t' then "\\t"
  else if c = '\r' then "\\r"
  else if c = '\n' then "\\n"
  else if c = '\x00' then "\\0"
  else if c = '\\' || c = quote then String.ofList ['\\', c]
  else if isPlain c then String.singleton c
  else escapeCode c

def quoted (text : String) : String :=
  text.foldl (fun written c => written ++ escape '"' c) "\"" ++ "\""

def quotedChar (c : Char) : String :=
  "'" ++ escape '\'' c ++ "'"

end Lox.Text
