import MatrixScript.Token.Scanner

/-! Token streams on demand. All streams of one scanner share its place in the text. -/
namespace MatrixScript

/-- A stream of tokens that asks the scanner for one token at a time. -/
inductive TokenStream where
  /-- Nothing was asked for yet; the scanner turns to `text?` first, if there is one. -/
  | fresh (text? : Option String)
  | running
  /-- The end token was given out. -/
  | ended
deriving DecidableEq, Repr

namespace TokenStream

def advance (s : Scanner) : Option Token × TokenStream × Scanner :=
  let (token, s) := s.next
  (some token, if token.kind = .eof then .ended else .running, s)

/-- The next token of the stream, if it has not ended. -/
def next : TokenStream → Scanner → Option Token × TokenStream × Scanner
  | .fresh none, s => advance s
  | .fresh (some text), _ => advance (.ofText text)
  | .running, s => advance s
  | .ended, s => (none, .ended, s)

/-- The next `n` tokens, with gaps where the stream has ended. -/
def take : Nat → TokenStream → Scanner → List (Option Token) × TokenStream × Scanner
  | 0, stream, s => ([], stream, s)
  | n + 1, stream, s =>
    let (token, stream, s) := stream.next s
    let (tokens, stream, s) := take n stream s
    (token :: tokens, stream, s)

end TokenStream

/-- What can be done with a scanner that several streams share. -/
inductive ScannerRequest where
  | reset (text : String)
  | openStream (text? : Option String)
  /-- A stream over the text that the scanner has now, from its beginning. -/
  | reopen
  /-- Asks the stream that was opened last. -/
  | take (n : Nat)
  /-- Asks any stream. They are numbered in the order in which they were opened. -/
  | takeFrom (stream n : Nat)
  | drain (text? : Option String)
  | limit (n : Int)

inductive ScannerAnswer where
  | done
  | taken (tokens : List (Option Token))
  | drained (tokens : List Token)
  | failed (error : TokenLimitError)

/-- A scanner with its token limit and all streams that were opened. -/
structure SharedScanner where
  scanner : Scanner
  limit : Int
  streams : List TokenStream

namespace SharedScanner

def ofText (limit : Int) (text : String) : SharedScanner :=
  ⟨.ofText text, limit, []⟩

/-- Adds a stream, from which nothing is taken yet. -/
def addStream (s : SharedScanner) (text? : Option String) : SharedScanner :=
  { s with streams := s.streams ++ [.fresh text?] }

/-- The next `n` tokens of a stream. There is nothing to take from one that was never opened. -/
def takeFrom (s : SharedScanner) (stream n : Nat) : ScannerAnswer × SharedScanner :=
  let (tokens, left, scanner) := (s.streams.getD stream .ended).take n s.scanner
  (.taken tokens, { s with streams := s.streams.set stream left, scanner })

def step (s : SharedScanner) : ScannerRequest → ScannerAnswer × SharedScanner
  | .reset text => (.done, { s with scanner := .ofText text })
  | .openStream text? => (.done, s.addStream text?)
  | .reopen => (.done, s.addStream (some s.scanner.text))
  | .take n => s.takeFrom (s.streams.length - 1) n
  | .takeFrom stream n => s.takeFrom stream n
  | .drain text? =>
    let scanner := text?.elim s.scanner Scanner.ofText
    match scanner.drain s.limit with
    | (.ok tokens, scanner) => (.drained tokens.toList, { s with scanner })
    | (.error e, scanner) => (.failed e, { s with scanner })
  | .limit n => (.done, { s with limit := n })

end SharedScanner

end MatrixScript
