import Lox.Text.CharacterSet
import Lox.Text.Combining

/-!
# Display width

How many terminal columns one character takes: none for characters that attach to their
neighbours or are ignored by default, two for the wide characters of East Asian scripts and for
emoji, one for all others, controls included; a few signs go their own way. The properties are
those of edition 15.1 of the Unicode standard.
-/

namespace Lox.Text

/-- The characters with the property Default_Ignorable_Code_Point. -/
def ignorable : CharacterSet where
  edges := #[
    173, 174, 847, 848, 1564, 1565, 4447, 4449, 6068, 6070, 6155, 6160, 8203, 8208, 8234, 8239,
    8288, 8304, 12644, 12645, 65024, 65040, 65279, 65280, 65440, 65441, 65520, 65529, 113824,
    113828, 119155, 119163, 917504, 921600]

/-- The characters whose East Asian width is wide or full. -/
def wide : CharacterSet where
  edges := #[
    4352, 4448, 8986, 8988, 9001, 9003, 9193, 9197, 9200, 9201, 9203, 9204, 9725, 9727, 9748, 9750,
    9800, 9812, 9855, 9856, 9875, 9876, 9889, 9890, 9898, 9900, 9917, 9919, 9924, 9926, 9934, 9935,
    9940, 9941, 9962, 9963, 9970, 9972, 9973, 9974, 9978, 9979, 9981, 9982, 9989, 9990, 9994, 9996,
    10024, 10025, 10060, 10061, 10062, 10063, 10067, 10070, 10071, 10072, 10133, 10136, 10160,
    10161, 10175, 10176, 11035, 11037, 11088, 11089, 11093, 11094, 11904, 11930, 11931, 12020,
    12032, 12246, 12272, 12351, 12353, 12439, 12441, 12544, 12549, 12592, 12593, 12687, 12688,
    12772, 12783, 12831, 12832, 12872, 12880, 19904, 19968, 42125, 42128, 42183, 43360, 43389,
    44032, 55204, 63744, 64256, 65040, 65050, 65072, 65107, 65108, 65127, 65128, 65132, 65281,
    65377, 65504, 65511, 94176, 94181, 94192, 94194, 94208, 100344, 100352, 101590, 101632, 101641,
    110576, 110580, 110581, 110588, 110589, 110591, 110592, 110883, 110898, 110899, 110928, 110931,
    110933, 110934, 110948, 110952, 110960, 111356, 126980, 126981, 127183, 127184, 127374, 127375,
    127377, 127387, 127488, 127491, 127504, 127548, 127552, 127561, 127568, 127570, 127584, 127590,
    127744, 127777, 127789, 127798, 127799, 127869, 127870, 127892, 127904, 127947, 127951, 127956,
    127968, 127985, 127988, 127989, 127992, 128063, 128064, 128065, 128066, 128253, 128255, 128318,
    128331, 128335, 128336, 128360, 128378, 128379, 128405, 128407, 128420, 128421, 128507, 128592,
    128640, 128710, 128716, 128717, 128720, 128723, 128725, 128728, 128732, 128736, 128747, 128749,
    128756, 128765, 128992, 129004, 129008, 129009, 129292, 129339, 129340, 129350, 129351, 129536,
    129648, 129661, 129664, 129673, 129680, 129726, 129727, 129734, 129742, 129756, 129760, 129769,
    129776, 129785, 131072, 196606, 196608, 262142]

/-- Vowels and final consonants of Hangul, which join the syllable before them. -/
def joiningJamo : CharacterSet where
  edges := #[4448, 4608, 55216, 55239, 55243, 55292]

/-- Signs that take no column although no property of width says so: vowel signs that are equivalent
to combining sequences, marks over the digits that follow them, consonants that are written onto
the next one, and a caret. -/
def columnless : CharacterSet where
  edges := #[
    1541, 1542, 1807, 1808, 2192, 2194, 2274, 2275, 3264, 3265, 3271, 3273, 3274, 3276, 3406, 3407,
    6971, 6972, 6973, 6974, 6979, 6980, 43258, 43259, 70082, 70084, 71999, 72000, 72001, 72002,
    72250, 72251, 72324, 72330, 73030, 73031, 73474, 73475]

/-- Characters with a width that no property tells. The initial filler of Hangul holds the place of
a wide consonant, and the joiner of Tifinagh shows when it joins nothing; two signs of Khmer are
drawn as the letters that they abbreviate. -/
def exceptionalWidth? (c : Char) : Option Nat :=
  if c = '\u115f' then some 2
  else if c = '\u17a4' then some 2
  else if c = '\u17d8' then some 3
  else if c = '\u2d7f' then some 1
  else none

def isColumnless (c : Char) : Bool :=
  ignorable.contains c || combining.contains c || joiningJamo.contains c || columnless.contains c

def width (c : Char) : Nat :=
  if c.toNat < 0xA0 then 1
  else match exceptionalWidth? c with
    | some columns => columns
    | none => if isColumnless c then 0 else if wide.contains c then 2 else 1

end Lox.Text
