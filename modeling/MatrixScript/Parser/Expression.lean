import MatrixScript.Parser.State

/-! Parsing expressions by precedence climbing.

The parsers for the parts of an expression take the parser `sub` for the expressions inside them,
which gets the least precedence that may not be consumed. Every loop consumes a token in each round,
so `gas` rounds are enough when there are fewer tokens left than that. -/
namespace MatrixScript.Parser

abbrev SubParser := Nat → Parser (Option Expr)

/-- The operator that two signs without a blank between them spell. -/
def doubleOperatorAt (first : Sign) (current following : Token) : Option BinaryOp :=
  match following.kind with
  | .sign second => if current.adjacent following then BinaryOp.ofSigns? first second else none
  | _ => none

/-- The operator at the current place, with the number of tokens that spell it. -/
def operatorAt (current following : Token) : Option (BinaryOp × Nat) :=
  match current.kind with
  | .sign first =>
    match doubleOperatorAt first current following with
    | some op => some (op, 2)
    | none => (BinaryOp.ofSign? first).map (·, 1)
  | _ => none

def peekOperator : Parser (Option (BinaryOp × Nat)) := do
  return operatorAt (← current) (← peek 1)

/-- In a matrix, a plus or minus with a blank before it and none behind it starts a new element. -/
def atElementSeparator : Parser Bool := do
  let token ← current
  return (← inMatrix) && (token.is .plus || token.is .minus) &&
    !(← previous).adjacent token && token.adjacent (← peek 1)

/-- `name = value` in an argument list. -/
def parseNamedValue (sub : SubParser) : Parser (NamedValue Expr) := do
  let name ← advance
  let equals ← advance
  let value ← sub 0
  expectValue value (.invalidDefault name.text) equals.span
  let stop := (value.elim equals.span Expr.span).stop
  return ⟨name.text, name.span, value, ⟨name.span.start, stop⟩⟩

def skipArgument (group : Group) : Parser Unit :=
  skipUntil fun kind => kind == .sign .comma || kind == .sign group.closing || isNewlineOrEnd kind

/-- A name with an equals sign that assigns to it. -/
def isNamedValue (name equals following : Token) : Bool :=
  name.isName && equals.is .equals && assigns name equals following

/-- One argument, if there is a sensible one, and where the list now ends. -/
def parseArgument (sub : SubParser) (group : Group) (stop : Position) :
    Parser (Option Expr × Position) := do
  if isNamedValue (← current) (← peek 1) (← peek 2) then
    return (some (.named (← parseNamedValue sub)), stop)
  let start ← position
  match ← sub 0 with
  | some arg => return (some arg, arg.span.stop)
  | none =>
    if (← position) != start then
      skipArgument group
    else if ← check (fun kind => kind == .sign .comma || kind == .sign group.closing) then
      reportHere .argumentMissing
    else
      let token ← advance
      report (.invalidArgument token.text) token.span
      skipArgument group
    return (none, stop)

/-- The arguments behind those in `args`, which are in reverse order, through the closing bracket. -/
def parseArgumentsFrom (sub : SubParser) (group : Group) (openSpan : Span) :
    Nat → List Expr → Position → Parser (List Expr × Position)
  | 0, args, stop => outOfGas (args.reverse, stop)
  | gas + 1, args, stop => do
    if ← checkSign group.closing then
      return (args.reverse, (← advance).span.stop)
    if ← check isNewlineOrEnd then
      report (.groupOpen group) openSpan
      return (args.reverse, stop)
    let (arg, stop) ← parseArgument sub group stop
    let args := arg.toList ++ args
    if ← acceptSign .comma then
      parseArgumentsFrom sub group openSpan gas args stop
    else if ← check (fun kind => kind == .sign group.closing || isNewlineOrEnd kind) then
      parseArgumentsFrom sub group openSpan gas args stop
    else
      reportHere (.expectedComma group)
      skipArgument group
      let _ ← acceptSign .comma
      parseArgumentsFrom sub group openSpan gas args stop

/-- An argument or index list in parentheses or braces, and where it ends. -/
def parseArguments (gas : Nat) (sub : SubParser) (group : Group) :
    Parser (List Expr × Position) := do
  let opening ← advance
  inside group (parseArgumentsFrom sub group opening.span gas [] opening.span.stop)

/-- The bracket that opens an argument list. -/
def argumentGroup? : Token.Kind → Option Group
  | .sign .openParen => some .paren
  | .sign .openBrace => some .brace
  | _ => none

/-- A point with a name behind it, and no blank around the point. -/
def isField (before point name : Token) : Bool :=
  point.is .period && before.adjacent point && name.isName && point.adjacent name

/-- The fields and argument lists that follow `use`. -/
def parseNameFrom (listGas : Nat) (sub : SubParser) :
    Nat → NameUse Expr → Parser (NameUse Expr)
  | 0, use => outOfGas use
  | gas + 1, use => do
    let before ← previous
    let token ← current
    if isField before token (← peek 1) then
      let _ ← advance
      let field ← advance
      parseNameFrom listGas sub gas { use with
        fields := use.fields ++ [field.text]
        span := ⟨use.span.start, field.span.stop⟩ }
    else match argumentGroup? token.kind with
      | none => return use
      | some group =>
        if (← inMatrix) && !before.adjacent token then return use
        let (args, stop) ← parseArguments listGas sub group
        parseNameFrom listGas sub gas { use with
          args := some (use.args.getD [] ++ args)
          span := ⟨use.span.start, stop⟩ }

/-- A name with its fields and arguments: `x`, `s.a.b`, `f(a, b)`, `c{1}`, `s(2).field`. -/
def parseName (gas : Nat) (sub : SubParser) : Parser (NameUse Expr) := do
  let token ← advance
  parseNameFrom gas sub gas ⟨token.text, [], token.span, none, token.kind == .native, false⟩

def parseGrouping (sub : SubParser) : Parser (Option Expr) := do
  let opening ← advance
  match ← inside .paren (sub 0) with
  | none =>
    expectedExpression opening
    return none
  | some inner =>
    expectSign .closeParen .parenOpenInExpression opening.span
    return some inner

/-- The line after this newline, blank lines apart, starts with a keyword. -/
def keywordOnNextLine (s : State) : Bool :=
  match s.rest with
  | [] => false
  | t :: ts =>
    t.kind == .newline &&
      ((ts.dropWhile fun t => t.kind == .newline || t.is .semicolon).head?.any (·.kind.isKeyword))

/-- An open literal ends before a keyword, which belongs to the block around it. -/
def atMatrixEnd : Parser Bool := fun s =>
  let kind := s.current.kind
  (kind == .eof || kind.isKeyword || keywordOnNextLine s, s)

/-- The rows of a literal so far, in reverse order, and its present row, also in reverse order. -/
structure MatrixRows where
  rows : List (List Expr)
  row : List Expr
  stop : Position
  /-- A comma makes sense only behind an element. -/
  expectsElement : Bool

namespace MatrixRows

def endRow (m : MatrixRows) : MatrixRows :=
  { m with
    rows := if m.row.isEmpty then m.rows else m.row.reverse :: m.rows
    row := []
    expectsElement := true }

def push (m : MatrixRows) (e : Expr) : MatrixRows :=
  { m with row := e :: m.row, stop := e.span.stop, expectsElement := false }

def toRows (m : MatrixRows) : List (List Expr) := m.endRow.rows.reverse

theorem flatten_toRows (m : MatrixRows) : m.toRows.flatten = m.rows.reverse.flatten ++ m.row.reverse := by
  by_cases hrow : m.row = []
  · simp [toRows, endRow, hrow]
  · simp [toRows, endRow, hrow]

theorem flatten_endRow (m : MatrixRows) : m.endRow.toRows.flatten = m.toRows.flatten := by
  rw [flatten_toRows, toRows]
  simp [endRow]

theorem flatten_push (m : MatrixRows) (e : Expr) : (m.push e).toRows.flatten = m.toRows.flatten ++ [e] := by
  rw [flatten_toRows, flatten_toRows]
  simp [push]

end MatrixRows

/-- The elements of a literal behind those in `m`, through its closing bracket. -/
def parseMatrixFrom (sub : SubParser) (kind : MatrixKind) (openSpan : Span) :
    Nat → MatrixRows → Parser MatrixRows
  | 0, m => outOfGas m
  | gas + 1, m => do
    if ← checkSign (Group.ofMatrix kind).closing then
      return { m with stop := (← advance).span.stop }
    if ← atMatrixEnd then
      report (.matrixOpen kind) openSpan
      return m
    if ← accept (fun k => k == .sign .semicolon || k == .newline) then
      return ← parseMatrixFrom sub kind openSpan gas m.endRow
    if ← checkSign .comma then
      let comma ← advance
      if m.expectsElement then report (.extraComma kind) comma.span
      return ← parseMatrixFrom sub kind openSpan gas { m with expectsElement := true }
    let start ← position
    match ← sub 0 with
    | some element => parseMatrixFrom sub kind openSpan gas (m.push element)
    | none =>
      if (← position) == start then
        let token ← advance
        report (.inMatrix kind token.text) token.span
      parseMatrixFrom sub kind openSpan gas m

/-- A literal in brackets or braces. Rows end at semicolons and newlines, elements at commas and
blanks. -/
def parseMatrix (gas : Nat) (sub : SubParser) (kind : MatrixKind) : Parser Expr := do
  let opening ← advance
  let m ← inside (Group.ofMatrix kind)
    (parseMatrixFrom sub kind opening.span gas ⟨[], [], opening.span.stop, true⟩)
  return .matrix kind m.toRows ⟨opening.span.start, m.stop⟩

def isCommaOrNot : Token.Kind → Bool
  | .sign .comma => true
  | .sign sign => sign.negates
  | _ => false

/-- The parameters of an anonymous function behind those in `params`, which are in reverse order. -/
def parseAnonymousParams (openSpan : Span) : Nat → List String → Parser (List String)
  | 0, params => outOfGas params.reverse
  | gas + 1, params => do
    if ← acceptSign .closeParen then return params.reverse
    if ← check isNewlineOrEnd then
      report (.groupOpen .paren) openSpan
      return params.reverse
    let token ← advance
    if token.isName then
      parseAnonymousParams openSpan gas (token.text :: params)
    else
      if !isCommaOrNot token.kind then report (.invalidArgument token.text) token.span
      parseAnonymousParams openSpan gas params

/-- What follows an at sign: `@(x, y) x + y` or `@name`. -/
def parseAt (gas : Nat) (sub : SubParser) : Parser (Option Expr) := do
  let sign ← advance
  if ← checkSign .openParen then
    let opening ← advance
    let params ← parseAnonymousParams opening.span gas []
    let body ← sub 0
    if body.isNone then expectedExpression (← previous)
    let stop := (body.elim (← previous).span Expr.span).stop
    return some (.anonymous params body ⟨sign.span.start, stop⟩)
  if (← current).isName then
    let name ← advance
    return some (.handle ⟨name.text, name.span⟩ (sign.span.merge name.span))
  report .handleName sign.span
  return none

/-- A string token is complete if it ends with the quote that it starts with. -/
def isClosedString (text : String) : Bool :=
  2 ≤ text.length && text.toList.head? == text.toList.getLast?

/-- A mark stands for a value inside brackets only. -/
def parseMark (mark : Mark) : Parser (Option Expr) := do
  if ← inGroup then
    let token ← advance
    return some (.mark mark token.span)
  else return none

/-- Literals, names, groupings and function handles. -/
def parsePrimary (gas : Nat) (sub : SubParser) : Parser (Option Expr) := do
  let token ← current
  match token.kind with
  | .number =>
    let _ ← advance
    return some (.number token.text token.span)
  | .string =>
    let _ ← takeString
    if !isClosedString token.text then report .stringOpen token.span
    return some (.string token.text token.span)
  | .identifier | .native => return some (.name (← parseName gas sub))
  | .sign .openParen => parseGrouping sub
  | .sign .openBracket => return some (← parseMatrix gas sub .vector)
  | .sign .openBrace => return some (← parseMatrix gas sub .cell)
  | .sign .atSign => parseAt gas sub
  | .keyword .endAny => parseMark .last
  | .sign .colon => parseMark .whole
  | _ => return none

/-- The two signs of a transpose that does not conjugate. -/
def isPlainTranspose (point quote : Token) : Bool :=
  point.is .period && quote.kind == .transpose && point.adjacent quote

/-- The transposes behind an operand. -/
def parseTransposes : Nat → Expr → Parser Expr
  | 0, operand => outOfGas operand
  | gas + 1, operand => do
    let token ← current
    let following ← peek 1
    if token.kind == .transpose then
      let _ ← advance
      parseTransposes gas (.transposed .conjugate operand (operand.span.merge token.span))
    else if isPlainTranspose token following then
      let _ ← advance
      let _ ← advance
      parseTransposes gas (.transposed .plain operand (operand.span.merge following.span))
    else return operand

def prefixAt (token : Token) : Option PrefixOp :=
  match token.kind with
  | .sign sign => PrefixOp.ofSign? sign
  | _ => none

/-- An operand with its prefix operators or its transposes. -/
def parseUnary (gas : Nat) (sub : SubParser) : Parser (Option Expr) := do
  match prefixAt (← current) with
  | some op =>
    let sign ← advance
    match ← sub PrefixOp.precedence with
    | none =>
      expectedExpression sign
      return none
    | some operand => return some (.prefixed op operand (sign.span.merge operand.span))
  | none =>
    match ← parsePrimary gas sub with
    | none => return none
    | some operand => return some (← parseTransposes gas operand)

def advanceBy : Nat → Parser Unit
  | 0 => return ()
  | n + 1 => do
    let _ ← advance
    advanceBy n

/-- The operators stronger than `least` behind `left`, with their right operands. -/
def parseOperators (sub : SubParser) (least : Nat) : Nat → Expr → Parser Expr
  | 0, left => outOfGas left
  | gas + 1, left => do
    match ← peekOperator with
    | none => return left
    | some (op, width) =>
      if op.precedence ≤ least then return left
      if ← atElementSeparator then return left
      let token ← current
      advanceBy width
      match ← sub op.precedence with
      | none =>
        expectedExpression token
        return left
      | some right =>
        parseOperators sub least gas (.binary op left right (left.span.merge right.span))

/-- An expression of operators stronger than `least`. Where none can start, nothing is consumed.
Expressions inside each other are less than `gas` deep when fewer tokens than that are left. -/
def parseExpression : Nat → SubParser
  | 0, _ => outOfGas none
  | gas + 1, least => do
    match ← parseUnary (gas + 1) (parseExpression gas) with
    | none => return none
    | some left => return some (← parseOperators (parseExpression gas) least (gas + 1) left)

end MatrixScript.Parser
