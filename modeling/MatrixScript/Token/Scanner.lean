import MatrixScript.Text.Digit
import MatrixScript.Token

/-! Reading tokens off a text. Newlines and comments are tokens, other blanks separate tokens.

A scanner remembers what it has read, because `%` and `'` mean different things after an operand. -/
namespace MatrixScript

/-- A token's class and characters, and the text that follows it. -/
structure Lexeme where
  kind : Token.Kind
  chars : List Char
  rest : List Char

namespace Lexeme

/-- The sign of a transpose, and one of the two string quotes. -/
def quoteMark : Char := '\x27'

def doubleQuoteMark : Char := '\x22'

def isNameStart (c : Char) : Bool := c.isAlpha || c == '_'

def isNameChar (c : Char) : Bool := c.isAlphanum || c == '_'

/-- Blanks between tokens. A newline is not one of them. -/
def isSkipped (c : Char) : Bool :=
  c == ' ' || c == '\t' || c == '\r' || c == '\x0c'

/-- After a plain name or a number, `%` is the modulus operator. -/
def beforeModulus : Token.Kind → Bool
  | .identifier | .number => true
  | _ => false

/-- After an operand, a quote without a blank before it is a transpose. -/
def beforeTranspose : Token.Kind → Bool
  | .identifier | .native | .number | .transpose => true
  | .sign .closeParen | .sign .closeBracket | .sign .closeBrace | .sign .period => true
  | _ => false

/-- A fraction is a point with at least one digit behind it. -/
def splitFraction : List Char → List Char × List Char
  | '.' :: d :: cs =>
    if Text.isDigit d then
      let (digits, rest) := (d :: cs).span Text.isDigit
      ('.' :: digits, rest)
    else ([], '.' :: d :: cs)
  | cs => ([], cs)

def isExponentMark (c : Char) : Bool := c == 'e' || c == 'E'

def isPlusMinus (c : Char) : Bool := c == '+' || c == '-'

/-- An exponent is a mark, possibly a plus or minus, and at least one digit. -/
def splitExponent : List Char → List Char × List Char
  | e :: s :: d :: cs =>
    if isExponentMark e && Text.isDigit s then
      let (digits, rest) := (s :: d :: cs).span Text.isDigit
      (e :: digits, rest)
    else if isExponentMark e && isPlusMinus s && Text.isDigit d then
      let (digits, rest) := (d :: cs).span Text.isDigit
      (e :: s :: digits, rest)
    else ([], e :: s :: d :: cs)
  | [e, d] => if isExponentMark e && Text.isDigit d then ([e, d], []) else ([], [e, d])
  | cs => ([], cs)

/-- The longest number at the beginning of a text. -/
def splitNumber (cs : List Char) : List Char × List Char :=
  let (whole, rest) := cs.span Text.isDigit
  let (fraction, rest) := splitFraction rest
  let (exponent, rest) := splitExponent rest
  (whole ++ fraction ++ exponent, rest)

/-- The rest of a string behind its opening quote. A doubled quote stands for itself, a single one
closes the string, and an open string ends with its line. -/
def splitString (quote : Char) : List Char → List Char × List Char
  | [] => ([], [])
  | [c] => if c = '\n' then ([], [c]) else ([c], [])
  | c :: d :: cs =>
    if c = '\n' then ([], c :: d :: cs)
    else if c = quote then
      if d = quote then
        let (body, rest) := splitString quote cs
        (c :: d :: body, rest)
      else ([c], d :: cs)
    else
      let (body, rest) := splitString quote (d :: cs)
      (c :: body, rest)

/-- A comment reaches to the end of its line; with its first sign doubled it separates cells. -/
def readComment (c : Char) (cs : List Char) : Lexeme :=
  let (body, rest) := cs.span (· != '\n')
  ⟨if cs.head? = some c then .codeBreak else .comment, c :: body, rest⟩

def nameKind (word : String) : Token.Kind :=
  match Keyword.ofSpelling? word with
  | some keyword => .keyword keyword
  | none => if nativeFunctions.contains word then .native else .identifier

def readName (c : Char) (cs : List Char) : Lexeme :=
  let (body, rest) := cs.span isNameChar
  ⟨nameKind (String.ofList (c :: body)), c :: body, rest⟩

def readNumber (c : Char) (cs : List Char) : Lexeme :=
  let (chars, rest) := splitNumber (c :: cs)
  ⟨.number, chars, rest⟩

def readString (quote : Char) (cs : List Char) : Lexeme :=
  let (body, rest) := splitString quote cs
  ⟨.string, quote :: body, rest⟩

/-- The lexeme at the beginning of a text that starts with no blank. `previous` is the class of the
token before, and `touches` says that no blank stands in between. -/
def read (previous : Option Token.Kind) (touches : Bool) : List Char → Lexeme
  | [] => ⟨.eof, [], []⟩
  | c :: cs =>
    if c = '\n' then ⟨.newline, [c], cs⟩
    else if c = '%' && previous.any beforeModulus then ⟨.sign .percent, [c], cs⟩
    else if c = '%' || c = '#' then readComment c cs
    else match Sign.ofChar? c with
      | some sign => ⟨.sign sign, [c], cs⟩
      | none =>
        if isNameStart c then readName c cs
        else if Text.isDigit c then readNumber c cs
        else if c = quoteMark && touches && previous.any beforeTranspose then
          ⟨.transpose, [c], cs⟩
        else if c = quoteMark || c = doubleQuoteMark then readString c cs
        else ⟨.illegal, [c], cs⟩

end Lexeme

/-- More tokens were read than the limit allows; the first one too many starts at `position`. -/
structure TokenLimitError where
  limit : Int
  position : Position
deriving DecidableEq, Repr

def TokenLimitError.message (e : TokenLimitError) : String :=
  "Token limit of " ++ toString e.limit ++ " exceeded"

/-- A text being read: what is left of it, where that starts, and the tokens read so far. -/
structure Scanner where
  text : String
  rest : List Char
  offset : Nat
  position : Position
  history : Array Token

namespace Scanner

def ofText (text : String) : Scanner :=
  ⟨text, text.toList, 0, .start, #[]⟩

/-- Reads one token. At the end of the text this is an empty end token, again and again. -/
def next (s : Scanner) : Token × Scanner :=
  let (blanks, body) := s.rest.span Lexeme.isSkipped
  let lexeme := Lexeme.read (s.history.back?.map (·.kind)) blanks.isEmpty body
  let start := s.position.advance blanks
  let stop := start.advance lexeme.chars
  let token : Token := ⟨lexeme.kind, String.ofList lexeme.chars, ⟨start, stop⟩⟩
  (token, { s with
    rest := lexeme.rest
    offset := s.offset + blanks.length + lexeme.chars.length
    position := stop
    history := s.history.push token })

/-- Reads at most `n` tokens through the end token, and stops at the first one beyond the limit. -/
def drainUpTo (limit : Int) :
    Nat → Array Token → Scanner → Except TokenLimitError (Array Token) × Scanner
  | 0, read, s => (.ok read, s)
  | n + 1, read, s =>
    let (token, s) := s.next
    let read := read.push token
    if limit < read.size then (.error ⟨limit, token.span.start⟩, s)
    else if token.kind = .eof then (.ok read, s)
    else drainUpTo limit n read s

/-- Reads all tokens that are left. Each but the last takes a character, so the length of the rest
bounds their number. -/
def drain (limit : Int) (s : Scanner) : Except TokenLimitError (Array Token) × Scanner :=
  drainUpTo limit (s.rest.length + 1) #[] s

end Scanner

/-- The number of tokens a text may have unless another limit is given. -/
def defaultTokenLimit : Int := 1000000

/-- All tokens of a text, the last one its end token. -/
def tokenize (limit : Int) (text : String) : Except TokenLimitError (List Token) :=
  ((Scanner.ofText text).drain limit).1.map Array.toList

end MatrixScript
