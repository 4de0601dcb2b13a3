import MatrixScript.Number.Double
import MatrixScript.Text.Blank

/-! Numbers written by people: blanks around them, a plus or minus, digits of any script, and single
underscores between digits. -/
namespace MatrixScript.Number

/-- Blanks of the first 128 characters that may surround a number. -/
def isOuterBlank (c : Char) : Bool :=
  c == ' ' || (9 ≤ c.toNat && c.toNat ≤ 13)

/-- Digits and blanks of other scripts become plain ones; no other foreign character occurs in a
number. -/
def plainChar? (c : Char) : Option Char :=
  if c.toNat < 127 then some c
  else if Text.isBlank c then some ' '
  else (Text.decimalValue? c).map fun d => Char.ofNat ('0'.toNat + d)

/-- A text in plain characters without the blanks around it. -/
def plain? (text : String) : Option (List Char) :=
  (text.toList.mapM plainChar?).map (Text.trimWhile isOuterBlank)

/-- Removes underscores, which have to stand between digits; `previous` is the character before. -/
def dropUnderscores (previous : Char) : List Char → Option (List Char)
  | [] => some []
  | '_' :: cs =>
    if previous.isDigit && cs.head?.any Char.isDigit then dropUnderscores '_' cs else none
  | c :: cs => (dropUnderscores c cs).map (c :: ·)

/-- Splits off a plus or minus. -/
def splitSign : List Char → Bool × List Char
  | '-' :: cs => (true, cs)
  | '+' :: cs => (false, cs)
  | cs => (false, cs)

def digitsValue (digits : List Char) : Nat :=
  digits.foldl (fun n c => 10 * n + (c.toNat - '0'.toNat)) 0

/-- Whole numbers have at most this many digits. -/
def maxDigits : Nat := 4300

def readInt? (text : String) : Option Int := do
  let chars ← plain? text
  let (negative, digits) := splitSign (← dropUnderscores ' ' chars)
  if digits.isEmpty || !digits.all Char.isDigit || maxDigits < digits.length then none
  else
    let n : Int := digitsValue digits
    some (if negative then -n else n)

/-- The exponent at the end of a decimal: nothing, or a mark, a plus or minus, and digits. -/
def readExponent? : List Char → Option Int
  | [] => some 0
  | c :: cs =>
    let (negative, digits) := splitSign cs
    if (c == 'e' || c == 'E') && !digits.isEmpty && digits.all Char.isDigit then
      let n : Int := digitsValue digits
      some (if negative then -n else n)
    else none

/-- The digits behind the point, if there is one, and what follows them. -/
def splitFraction : List Char → List Char × List Char
  | '.' :: cs => cs.span Char.isDigit
  | cs => ([], cs)

/-- A decimal without its leading plus or minus. -/
def readDecimal? (negative : Bool) (cs : List Char) : Option Float := do
  let (whole, rest) := cs.span Char.isDigit
  let (fraction, rest) := splitFraction rest
  if whole.isEmpty && fraction.isEmpty then none
  else
    let exponent ← readExponent? rest
    some (ofDecimal negative (digitsValue (whole ++ fraction)) (exponent - fraction.length))

/-- A decimal, or in any case of letters one of the words for infinity and for no number. -/
def readFloat? (text : String) : Option Float := do
  let chars ← plain? text
  let (negative, rest) := splitSign (← dropUnderscores ' ' chars)
  match String.ofList (rest.map Char.toLower) with
  | "inf" | "infinity" => some (infinity negative)
  | "nan" => some notANumber
  | _ => readDecimal? negative rest

end MatrixScript.Number
