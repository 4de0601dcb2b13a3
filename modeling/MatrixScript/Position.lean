/-! Places in a text and the spans between them. -/
namespace MatrixScript

/-- A place between two characters, by line and column, both counted from zero. Places that a client
names may lie before the text. -/
structure Position where
  line : Int
  column : Int
deriving DecidableEq, Repr, Inhabited

namespace Position

/-- The place before the first character. -/
def start : Position := ⟨0, 0⟩

/-- Positions are ordered as they follow each other in a text. -/
instance : LE Position :=
  ⟨fun p q => p.line < q.line ∨ (p.line = q.line ∧ p.column ≤ q.column)⟩

instance (p q : Position) : Decidable (p ≤ q) :=
  inferInstanceAs (Decidable (p.line < q.line ∨ (p.line = q.line ∧ p.column ≤ q.column)))

/-- The place after one more character: a newline opens the next line. -/
def next (p : Position) (c : Char) : Position :=
  if c = '\n' then ⟨p.line + 1, 0⟩ else ⟨p.line, p.column + 1⟩

/-- The place after reading all of `cs` from `p`. -/
def advance (p : Position) (cs : List Char) : Position :=
  cs.foldl next p

/-- The place `n` columns further on the same line. -/
def right (p : Position) (n : Nat) : Position :=
  ⟨p.line, p.column + n⟩

def min (p q : Position) : Position := if q ≤ p then q else p

def max (p q : Position) : Position := if p ≤ q then q else p

/-- People count lines and columns from one. -/
def text (p : Position) : String :=
  toString (p.line + 1) ++ ":" ++ toString (p.column + 1)

@[simp] theorem advance_nil (p : Position) : p.advance [] = p := rfl

@[simp] theorem advance_cons (p : Position) (c : Char) (cs : List Char) :
    p.advance (c :: cs) = (p.next c).advance cs := rfl

theorem advance_append (p : Position) (as bs : List Char) :
    p.advance (as ++ bs) = (p.advance as).advance bs :=
  List.foldl_append

end Position

/-- The text from `start` up to, but not including, `stop`. -/
structure Span where
  start : Position
  stop : Position
deriving DecidableEq, Repr, Inhabited

namespace Span

/-- The empty span before the first character. -/
def zero : Span := ⟨.start, .start⟩

def ofNats (startLine startColumn stopLine stopColumn : Nat) : Span :=
  ⟨⟨startLine, startColumn⟩, ⟨stopLine, stopColumn⟩⟩

/-- A cursor right behind the last character still counts as inside. -/
def contains (s : Span) (p : Position) : Bool :=
  s.start ≤ p && p ≤ s.stop

/-- The smallest span that covers both. -/
def merge (s t : Span) : Span :=
  ⟨s.start.min t.start, s.stop.max t.stop⟩

def text (s : Span) : String :=
  s.start.text ++ "-" ++ s.stop.text

end Span

end MatrixScript
