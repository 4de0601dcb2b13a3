import MatrixScript.Position
import MatrixScript.Text.Alphanumeric
import MatrixScript.Text.Line

/-! The name under a cursor. -/
namespace MatrixScript

/-- A name in a text and its place. -/
structure Word where
  text : String
  span : Span
deriving DecidableEq, Repr

namespace Word

/-- Goes on to the left over further segments of a dotted path. The reversed text before the path
is split into the segments that belong to it, as one reversed piece, and what comes before. -/
def extendLeft : Nat → List Char → List Char
  | 0, _ => []
  | n + 1, before =>
    match before with
    | '.' :: rest =>
      let segment := rest.takeWhile Text.isWordChar
      match segment.getLast? with
      | none => []
      | some first =>
        if Text.isDigit first then []
        else '.' :: segment ++ extendLeft n (rest.drop segment.length)
    | _ => []

/-- The name around column `column` of a line: the segment that the cursor touches and the dotted
path before it. No segment starts with a digit. -/
def inLine? (line : List Char) (lineNumber column : Nat) : Option Word :=
  let before := (line.take column).reverse
  let left := before.takeWhile Text.isWordChar
  let right := (line.drop column).takeWhile Text.isWordChar
  match left.reverse ++ right with
  | [] => none
  | first :: segment =>
    if Text.isDigit first then none
    else
      let path := extendLeft line.length (before.drop left.length)
      let start := column - left.length - path.length
      some ⟨String.ofList (path.reverse ++ first :: segment),
        .ofNats lineNumber start lineNumber (column + right.length)⟩

/-- The name at a place given by line and column, both from zero; there is none outside the text. -/
def at? (text : String) (line column : Int) : Option Word :=
  if line < 0 || column < 0 then none
  else do
    let chars ← (Text.lines text.toList)[line.toNat]?
    if chars.length < column.toNat then none
    else inLine? chars line.toNat column.toNat

end Word

end MatrixScript
