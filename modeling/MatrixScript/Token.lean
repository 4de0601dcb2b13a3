import MatrixScript.Position
import MatrixScript.Token.Vocabulary

/-! Tokens: pieces of source text with their class and place. -/
namespace MatrixScript

/-- The class of a token. -/
inductive Token.Kind where
  | eof
  | newline
  | number
  | string
  | identifier
  | keyword (word : Keyword)
  | native
  | comment
  | codeBreak
  | sign (sign : Sign)
  | transpose
  | illegal
deriving DecidableEq, Repr

/-- A piece of source text; strings keep their quotes. -/
structure Token where
  kind : Token.Kind
  text : String
  span : Span
deriving DecidableEq, Repr

namespace Token

def Kind.isComment : Kind → Bool
  | .comment | .codeBreak => true
  | _ => false

/-- The classes that can name a variable or a function. -/
def Kind.isName : Kind → Bool
  | .identifier | .native => true
  | _ => false

def Kind.isKeyword : Kind → Bool
  | .keyword _ => true
  | _ => false

def isName (t : Token) : Bool := t.kind.isName

def is (t : Token) (s : Sign) : Bool := t.kind == .sign s

def isWord (t : Token) (words : List Keyword) : Bool :=
  match t.kind with
  | .keyword w => words.contains w
  | _ => false

/-- No blank stands between the two tokens. -/
def adjacent (first second : Token) : Bool :=
  first.span.stop == second.span.start

end Token

end MatrixScript
