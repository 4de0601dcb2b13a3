import MatrixScript.Text.Digit

/-! White space of every script, and removing it from the ends of a text. -/
namespace MatrixScript.Text

/-- White space, the four information separators included. -/
def blankRanges : List (Nat × Nat) := [
  (0x9, 5), (0x1C, 5), (0x85, 1), (0xA0, 1), (0x1680, 1), (0x2000, 11), (0x2028, 2), (0x202F, 1),
  (0x205F, 1), (0x3000, 1)]

def isBlank (c : Char) : Bool :=
  inRanges blankRanges c

/-- Drops characters from both ends for as long as they satisfy `p`. -/
def trimWhile (p : Char → Bool) (cs : List Char) : List Char :=
  ((cs.dropWhile p).reverse.dropWhile p).reverse

/-- Drops white space from both ends. -/
def trim (cs : List Char) : List Char :=
  trimWhile isBlank cs

end MatrixScript.Text
