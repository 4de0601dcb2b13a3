import MatrixScript.Parser.Code
import MatrixScript.Parser.Problem

/-! The parser's place in the code, and the steps that move it.

There is no limit to the depth of the calls, so blocks and expressions may be nested as deep as one likes. Texts
are without unpaired surrogates. -/
namespace MatrixScript

namespace Parser

/-- What a parser must never run into: a loop without gas, and a bracket that is not open. -/
inductive Fault where
  | outOfGas
  | noOpenGroup
deriving DecidableEq, Repr

/-- What is still to be parsed, the brackets that are open around it, innermost first, the problems
found so far, and the faults of the parser itself. `pos` counts the tokens that were consumed. `words`
are the places of those that were taken as words of a command, and `strings` of those that were taken as
strings, the last one first. -/
structure State where
  code : Code
  pos : Nat
  previous : Token
  rest : List Token
  groups : List Group
  diagnostics : Array Diagnostic
  faults : List Fault
  words : List Nat
  strings : List Nat
  pos_le : pos ≤ code.tokens.length
  rest_eq : rest = code.tokens.drop pos
  /-- Before a token is consumed, the first one counts as the previous one. -/
  previous_eq : (code.tokens ++ [code.eof])[pos - 1]? = some previous

namespace State

def ofCode (code : Code) : State where
  code
  pos := 0
  previous := code.tokens.headD code.eof
  rest := code.tokens
  groups := []
  diagnostics := #[]
  faults := []
  words := []
  strings := []
  pos_le := Nat.zero_le _
  rest_eq := rfl
  previous_eq := by cases code.tokens <;> rfl

/-- The state behind the next `n` tokens. -/
def skip (s : State) (n : Nat) (h : n ≤ s.rest.length) : State :=
  { s with
    pos := s.pos + n
    previous := (s.rest.take n).getLast?.getD s.previous
    rest := s.rest.drop n
    pos_le := by
      have hle := s.pos_le
      rw [s.rest_eq, List.length_drop] at h
      omega
    rest_eq := by rw [s.rest_eq, List.drop_drop]
    previous_eq := by
      cases n with
      | zero => exact s.previous_eq
      | succ n =>
        have hlt : s.pos + n < s.code.tokens.length := by
          rw [s.rest_eq, List.length_drop] at h
          omega
        have hnext : s.rest[n]? = some s.code.tokens[s.pos + n] := by
          rw [s.rest_eq, List.getElem?_drop, List.getElem?_eq_getElem hlt]
        rw [List.getLast?_take, if_neg (Nat.succ_ne_zero n), Nat.add_sub_cancel, hnext]
        exact List.getElem?_append_left hlt |>.trans (List.getElem?_eq_getElem hlt) }

/-- The token `n` places ahead; behind the code there is only its end token. -/
def ahead (s : State) (n : Nat) : Token := s.rest[n]?.getD s.code.eof

def current (s : State) : Token := s.rest.headD s.code.eof

end State

end Parser

/-- A parser always succeeds: what it cannot make sense of becomes a diagnostic. -/
abbrev Parser := StateM Parser.State

namespace Parser

def peek (n : Nat) : Parser Token := fun s => (s.ahead n, s)

def current : Parser Token := fun s => (s.current, s)

def previous : Parser Token := fun s => (s.previous, s)

def position : Parser Nat := fun s => (s.pos, s)

/-- Consumes the current token. The end token stays. -/
def advance : Parser Token := fun s =>
  match h : s.rest with
  | [] => (s.code.eof, s)
  | t :: _ => (t, s.skip 1 (h ▸ Nat.le_add_left 1 _))

/-- Consumes the current token as a word of a command. -/
def takeWord : Parser Token := do
  modify fun s => { s with words := s.pos :: s.words }
  advance

/-- Consumes the current token as a string. -/
def takeString : Parser Token := do
  modify fun s => { s with strings := s.pos :: s.strings }
  advance

/-- Whether the current token is of a class that satisfies `p`. -/
def check (p : Token.Kind → Bool) : Parser Bool := do
  return p (← current).kind

/-- Consumes the current token if its class satisfies `p`. -/
def accept (p : Token.Kind → Bool) : Parser Bool := do
  if p (← current).kind then
    let _ ← advance
    return true
  else return false

def checkSign (sign : Sign) : Parser Bool := check (· == .sign sign)

def acceptSign (sign : Sign) : Parser Bool := accept (· == .sign sign)

def checkWord (words : List Keyword) : Parser Bool := do
  return (← current).isWord words

/-- Consumes tokens up to the first one whose class satisfies `p`. -/
def skipUntil (p : Token.Kind → Bool) : Parser Unit := fun s =>
  ((), s.skip _ (List.takeWhile_sublist fun t => !p t.kind).length_le)

/-- Leaves a note of something that must not happen. -/
def fault (f : Fault) : Parser Unit :=
  modify fun s => { s with faults := f :: s.faults }

/-- The loop has to end before it is finished. -/
def outOfGas {α : Type} (result : α) : Parser α := do
  fault .outOfGas
  return result

def report (problem : Problem) (span : Span) : Parser Unit :=
  modify fun s => { s with diagnostics := s.diagnostics.push (problem.toDiagnostic span) }

def reportHere (problem : Problem) : Parser Unit := do
  report problem (← current).span

/-- Consumes a sign, or reports that it is missing. -/
def expectSign (sign : Sign) (problem : Problem) (span : Span) : Parser Unit := do
  if !(← acceptSign sign) then report problem span

/-- Reports a value that is missing. -/
def expectValue (value : Option Expr) (problem : Problem) (span : Span) : Parser Unit := do
  if value.isNone then report problem span

def openGroup (group : Group) : Parser Unit :=
  modify fun s => { s with groups := group :: s.groups }

def closeGroup : Parser Unit := do
  match (← get).groups with
  | [] => fault .noOpenGroup
  | _ :: groups => modify fun s => { s with groups }

/-- Runs `p` with one more bracket open. -/
def inside {α : Type} (group : Group) (p : Parser α) : Parser α := do
  openGroup group
  let result ← p
  closeGroup
  return result

def inMatrix : Parser Bool := fun s => (s.groups.head?.any Group.isMatrix, s)

def inGroup : Parser Bool := fun s => (!s.groups.isEmpty, s)

def isNewlineOrEnd : Token.Kind → Bool
  | .newline | .eof => true
  | _ => false

/-- Newlines, commas and semicolons separate statements. -/
def isSeparator : Token.Kind → Bool
  | .newline | .sign .semicolon | .sign .comma => true
  | _ => false

def isCommaOrSemicolon : Token.Kind → Bool
  | .sign .semicolon | .sign .comma => true
  | _ => false

def endsStatement (kind : Token.Kind) : Bool :=
  isSeparator kind || kind == .eof

def closesBlock : Token.Kind → Bool
  | .keyword word => word.closesBlock
  | _ => false

def atStatementEnd : Parser Bool :=
  check fun kind => endsStatement kind || closesBlock kind

/-- Goes on to the end of the statement after a problem, out of all brackets. -/
def synchronize : Parser Unit := do
  modify fun s => { s with groups := [] }
  skipUntil fun kind => endsStatement kind || closesBlock kind

/-- Consumes the end of a statement; the answer is whether a semicolon suppresses its output. -/
def finishStatement : Parser Bool := do
  if ← acceptSign .semicolon then return true
  if ← acceptSign .comma then return false
  if ← check (fun kind => isNewlineOrEnd kind || closesBlock kind) then return false
  reportHere (.ofToken (← current))
  synchronize
  acceptSign .semicolon

/-- An operand is missing behind `after`. -/
def expectedExpression (after : Token) : Parser Unit := do
  if ← check endsStatement then report (.endsAfter after.text) after.span
  else reportHere (.inExpression (← current).text)

/-- An equals sign assigns unless it is part of a comparison with the token before or behind it. -/
def assigns (before equals following : Token) : Bool :=
  !(following.is .equals && equals.adjacent following) &&
    !((before.is .equals || before.is .less || before.is .greater ||
      before.is .tilde || before.is .bang) && before.adjacent equals)

end Parser

end MatrixScript
