import MatrixScript.Parser.Expression

/-! Parsing statements and blocks.

`block` is the parser for the blocks inside a statement; it gets the keywords that end the block and
leaves them to be consumed. -/
namespace MatrixScript.Parser

abbrev BlockParser := List Keyword → Parser (List Stmt)

/-- Finds the equals sign that makes a statement an assignment: outside of all brackets and before
the end of the statement. A newline ends it inside parentheses, but not inside a matrix. -/
def findAssignment (groups : List Group) (before : Token) : List Token → Option Token
  | [] => none
  | t :: ts =>
    match t.kind with
    | .sign sign =>
      match Group.ofOpening? sign with
      | some group => findAssignment (group :: groups) t ts
      | none =>
        if (Group.ofClosing? sign).isSome then findAssignment groups.tail t ts
        else if !groups.isEmpty then findAssignment groups t ts
        else match sign with
          | .semicolon | .comma => none
          | .equals =>
            if assigns before t (ts.headD ⟨.eof, "", t.span⟩) then some t
            else findAssignment groups t ts
          | _ => findAssignment groups t ts
    | .newline =>
      if groups.head?.any Group.isMatrix then findAssignment groups t ts else none
    | .keyword _ => if groups.isEmpty then none else findAssignment groups t ts
    | .eof => none
    | _ => findAssignment groups t ts

/-- Finds the equals sign right behind the bracket that closes the outermost of `depth` brackets. -/
def findTargetsEnd (depth : Nat) : List Token → Option Token
  | [] => none
  | t :: ts =>
    match t.kind with
    | .sign sign =>
      if (Group.ofOpening? sign).isSome then findTargetsEnd (depth + 1) ts
      else if (Group.ofClosing? sign).isSome then
        if depth = 1 then
          match ts with
          | [] => none
          | equals :: more =>
            if equals.is .equals && assigns t equals (more.headD ⟨.eof, "", equals.span⟩) then
              some equals
            else none
        else findTargetsEnd (depth - 1) ts
      else findTargetsEnd depth ts
    | .eof => none
    | _ => findTargetsEnd depth ts

def atAssignment : Parser Bool := fun s =>
  ((findAssignment [] s.previous s.rest).isSome, s)

def atManyAssignment : Parser Bool := fun s =>
  ((findTargetsEnd 0 s.rest).isSome, s)

/-- The classes of tokens that can be a word behind a command. -/
def isCommandWord : Token.Kind → Bool
  | .identifier | .native | .number | .string => true
  | _ => false

/-- A call in the style of a command, such as `hold on`: the name is followed on its line, after a
blank, by a word that is itself neither assigned to nor called. -/
def isCommand (name following after : Token) : Bool :=
  following.span.start.line == name.span.start.line && !name.adjacent following &&
    isCommandWord following.kind &&
    !((after.is .equals || after.is .openParen) && following.adjacent after)

/-- Joins the tokens of a command without a blank between them to words. `words` is in reverse
order. -/
def joinWord (words : List Variable) (before token : Token) : List Variable :=
  match words with
  | [] => [⟨token.text, token.span⟩]
  | word :: more =>
    if before.adjacent token then ⟨word.name ++ token.text, word.span.merge token.span⟩ :: more
    else ⟨token.text, token.span⟩ :: word :: more

def parseCommandWords : Nat → List Variable → Token → Parser (List Variable)
  | 0, words, _ => outOfGas words
  | gas + 1, words, before => do
    if ← check endsStatement then return words
    let token ← takeWord
    parseCommandWords gas (joinWord words before token) token

/-- A call in the style of a command. Every word is a string argument. -/
def parseCommand (gas : Nat) : Parser Stmt := do
  let name ← advance
  let words ← parseCommandWords gas [] name
  let stop := (words.head?.elim name.span (·.span)).stop
  let args := words.reverse.map fun word => Expr.string word.name word.span
  let silent ← finishStatement
  return .call ⟨name.text, [], ⟨name.span.start, stop⟩, some args, name.kind == .native, true⟩ silent

/-- The value behind an equals sign, if there is one, and where the statement ends. -/
def parseAssigned (gas : Nat) (equals : Token) : Parser (Option Expr × Position) := do
  match ← parseExpression gas 0 with
  | some value => return (some value, value.span.stop)
  | none =>
    expectedExpression equals
    synchronize
    return (none, equals.span.stop)

/-- Ends an assignment. Without a semicolon it is reported to show its output. -/
def finishAssignment (span : Span) : Parser Bool := do
  let silent ← finishStatement
  if !silent then report .showsOutput span
  return silent

def parseAssignment (gas : Nat) : Parser (Option Stmt) := do
  let target ← parseName gas (parseExpression gas)
  if !(← checkSign .equals) then
    report .invalidTarget target.span
    synchronize
    let _ ← finishStatement
    return none
  let equals ← advance
  let (value, stop) ← parseAssigned gas equals
  let span : Span := ⟨target.span.start, stop⟩
  return some (.assign target value span (← finishAssignment span))

def isTargetsEnd : Token.Kind → Bool
  | .sign .closeBracket | .eof => true
  | _ => false

/-- The targets of a multiple assignment behind those in `targets`, which are in reverse order. -/
def parseTargets (nameGas : Nat) : Nat → List Target → Parser (List Target)
  | 0, targets => outOfGas targets.reverse
  | gas + 1, targets => do
    if ← check isTargetsEnd then return targets.reverse
    let token ← current
    match token.kind with
    | .identifier | .native =>
      let use ← parseName nameGas (parseExpression nameGas)
      parseTargets nameGas gas (.name use :: targets)
    | .sign .tilde | .sign .bang =>
      let _ ← advance
      parseTargets nameGas gas (.ignored token.span :: targets)
    | .sign .comma | .newline =>
      let _ ← advance
      parseTargets nameGas gas targets
    | _ =>
      let _ ← advance
      report (.inTargets token.text) token.span
      parseTargets nameGas gas targets

/-- `[a, b, ~] = value`. -/
def parseManyAssignment (gas : Nat) : Parser Stmt := do
  let opening ← advance
  let targets ← parseTargets gas gas []
  expectSign .closeBracket .targetsOpen opening.span
  let equals ← advance
  let (value, stop) ← parseAssigned gas equals
  let span : Span := ⟨opening.span.start, stop⟩
  return .assignMany targets value span (← finishAssignment span)

/-- An expression that stands alone; a name is a call. -/
def standAlone (silent : Bool) : Expr → Stmt
  | .name use => .call use silent
  | value => .expr value silent

/-- A call, a name or any other expression that stands alone. -/
def parseExpressionStatement (gas : Nat) : Parser (Option Stmt) := do
  let start ← position
  match ← parseExpression gas 0 with
  | none =>
    if (← position) == start && !(← atStatementEnd) then
      let token ← advance
      report (.ofToken token) token.span
    synchronize
    return none
  | some value => return some (standAlone (← finishStatement) value)

def parseJump (jump : Jump) : Parser Stmt := do
  let token ← advance
  let _ ← finishStatement
  return .jump jump token.span

/-- The names of a declaration behind those in `names`, which are in reverse order. Initial values
are read and dropped. -/
def parseDeclared (exprGas : Nat) : Nat → List Variable → Parser (List Variable)
  | 0, names => outOfGas names
  | gas + 1, names => do
    if !(← current).isName then return names
    let token ← advance
    if ← checkSign .equals then
      let equals ← advance
      if (← parseExpression exprGas 0).isNone then expectedExpression equals
    parseDeclared exprGas gas (⟨token.text, token.span⟩ :: names)

/-- `global a b` or `persistent n = 0`. -/
def parseDeclaration (gas : Nat) (storage : Storage) : Parser Stmt := do
  let keyword ← advance
  let names ← parseDeclared gas gas []
  let stop := (names.head?.elim keyword.span (·.span)).stop
  let _ ← finishStatement
  return .declare storage names.reverse ⟨keyword.span.start, stop⟩

/-- The condition behind a keyword. -/
def parseCondition (gas : Nat) (word : Keyword) (keyword : Token) : Parser (Option Expr) := do
  if ← atStatementEnd then
    report (.conditionMissing word) keyword.span
    let _ ← accept isCommaOrSemicolon
    return none
  let condition ← parseExpression gas 0
  if condition.isNone then
    reportHere (.conditionInvalid word)
    synchronize
  let _ ← accept isCommaOrSemicolon
  return condition

/-- Consumes the keyword that closes a block, or reports it missing. -/
def closeBlock (word : Keyword) (keyword : Token) : Parser Position := do
  if ← checkWord word.terminators then return (← advance).span.stop
  report (.blockOpen word) keyword.span
  return (← previous).span.stop

def ifBranchEnds : List Keyword := Keyword.ifBlock.terminators ++ [.elseifBranch, .elseBranch]

def switchBranchEnds : List Keyword :=
  Keyword.switchBlock.terminators ++ [.caseBranch, .otherwiseBranch]

def tryBodyEnds : List Keyword := Keyword.tryBlock.terminators ++ [.catchBranch]

/-- A function also ends where the next one starts, for files that do not close their functions. -/
def functionBodyEnds : List Keyword := Keyword.function.terminators ++ [.function]

def parseElseIfs (exprGas : Nat) (block : BlockParser) :
    Nat → List (Branch Stmt) → Parser (List (Branch Stmt))
  | 0, clauses => outOfGas clauses.reverse
  | gas + 1, clauses => do
    if !(← checkWord [.elseifBranch]) then return clauses.reverse
    let keyword ← advance
    let guard ← parseCondition exprGas .elseifBranch keyword
    let body ← block ifBranchEnds
    let clause : Branch Stmt := ⟨guard, body, ⟨keyword.span.start, (← previous).span.stop⟩⟩
    parseElseIfs exprGas block gas (clause :: clauses)

def parseElse (block : BlockParser) : Parser (Option (List Stmt)) := do
  if ← checkWord [.elseBranch] then
    let _ ← advance
    return some (← block Keyword.ifBlock.terminators)
  else return none

def parseIf (gas : Nat) (block : BlockParser) : Parser Stmt := do
  let keyword ← advance
  let condition ← parseCondition gas .ifBlock keyword
  let body ← block ifBranchEnds
  let clauses ← parseElseIfs gas block gas []
  let otherwise ← parseElse block
  let stop ← closeBlock .ifBlock keyword
  return .ifElse condition body clauses otherwise ⟨keyword.span.start, stop⟩

/-- The variable of a loop and what it runs over. -/
def parseLoopHeader (gas : Nat) (keyword : Token) : Parser (Option Variable × Option Expr) := do
  if !(← current).isName then
    report .loopVariableMissing keyword.span
    return (none, none)
  let token ← advance
  let loopVar : Variable := ⟨token.text, token.span⟩
  if !(← checkSign .equals) then
    reportHere .loopEqualsMissing
    return (some loopVar, none)
  let equals ← advance
  let iterable ← parseExpression gas 0
  expectValue iterable .iterableMissing equals.span
  return (some loopVar, iterable)

/-- The header of a loop may stand in parentheses. -/
def parseLoopHeaderOrGroup (gas : Nat) (keyword : Token) :
    Parser (Option Variable × Option Expr) := do
  if (← checkSign .openParen) && (← peek 1).isName && (← peek 2).is .equals then
    let opening ← advance
    let header ← inside .paren (parseLoopHeader gas keyword)
    expectSign .closeParen (.groupOpen .paren) opening.span
    return header
  else parseLoopHeader gas keyword

/-- The whole header, up to the body of the loop. -/
def parseForHeader (gas : Nat) (keyword : Token) : Parser (Option Variable × Option Expr) := do
  let header ← parseLoopHeaderOrGroup gas keyword
  if header.1.isNone || header.2.isNone then synchronize
  let _ ← accept isCommaOrSemicolon
  return header

def parseFor (gas : Nat) (block : BlockParser) : Parser Stmt := do
  let keyword ← advance
  let (loopVar, iterable) ← parseForHeader gas keyword
  let body ← block Keyword.forLoop.terminators
  let stop ← closeBlock .forLoop keyword
  return .forLoop loopVar iterable body ⟨keyword.span.start, stop⟩

def parseWhile (gas : Nat) (block : BlockParser) : Parser Stmt := do
  let keyword ← advance
  let condition ← parseCondition gas .whileLoop keyword
  let body ← block Keyword.whileLoop.terminators
  let stop ← closeBlock .whileLoop keyword
  return .whileLoop condition body ⟨keyword.span.start, stop⟩

def parseDoUntil (gas : Nat) (block : BlockParser) : Parser Stmt := do
  let keyword ← advance
  let body ← block Keyword.doBlock.terminators
  if ← checkWord [.untilTest] then
    let untilToken ← advance
    let condition ← parseCondition gas .untilTest untilToken
    let stop := (condition.elim untilToken.span Expr.span).stop
    return .doUntil body condition ⟨keyword.span.start, stop⟩
  report .untilMissing keyword.span
  return .doUntil body none ⟨keyword.span.start, (← previous).span.stop⟩

/-- The value behind `case`. -/
def parseGuard (gas : Nat) (keyword : Token) : Parser (Option Expr) := do
  let guard ← parseExpression gas 0
  if guard.isNone then
    report .caseValueMissing keyword.span
    synchronize
  let _ ← accept isCommaOrSemicolon
  return guard

/-- The branches of a switch behind those in `cases`, which are in reverse order, and the last
`otherwise` among them. -/
def parseBranches (exprGas : Nat) (block : BlockParser) :
    Nat → List (Branch Stmt) → Option (List Stmt) →
      Parser (List (Branch Stmt) × Option (List Stmt))
  | 0, cases, otherwise => outOfGas (cases.reverse, otherwise)
  | gas + 1, cases, otherwise => do
    skipUntil fun kind => !isSeparator kind
    let token ← current
    match token.kind with
    | .keyword .caseBranch =>
      let _ ← advance
      let guard ← parseGuard exprGas token
      let body ← block switchBranchEnds
      let branch : Branch Stmt := ⟨guard, body, ⟨token.span.start, (← previous).span.stop⟩⟩
      parseBranches exprGas block gas (branch :: cases) otherwise
    | .keyword .otherwiseBranch =>
      let _ ← advance
      let body ← block switchBranchEnds
      parseBranches exprGas block gas cases (some body)
    | .eof | .keyword .endAny | .keyword .endSwitch => return (cases.reverse, otherwise)
    | _ =>
      let _ ← advance
      report (.ofToken token) token.span
      synchronize
      parseBranches exprGas block gas cases otherwise

def parseSwitch (gas : Nat) (block : BlockParser) : Parser Stmt := do
  let keyword ← advance
  let subject ← parseCondition gas .switchBlock keyword
  let (cases, otherwise) ← parseBranches gas block gas [] none
  let stop ← closeBlock .switchBlock keyword
  return .switch subject cases otherwise ⟨keyword.span.start, stop⟩

def endsCatchVariable : Token.Kind → Bool
  | .newline | .eof | .sign .semicolon => true
  | _ => false

/-- A name alone behind `catch`, on the same line, holds the error. -/
def parseErrorVariable (keyword : Token) : Parser (Option Variable) := do
  let token ← current
  if token.isName && token.span.start.line == keyword.span.start.line &&
      endsCatchVariable (← peek 1).kind then
    let _ ← advance
    return some ⟨token.text, token.span⟩
  else return none

def parseCatch (block : BlockParser) : Parser (Option Variable × List Stmt) := do
  if ← checkWord [.catchBranch] then
    let errorVar ← parseErrorVariable (← advance)
    return (errorVar, ← block Keyword.tryBlock.terminators)
  else return (none, [])

def parseTry (block : BlockParser) : Parser Stmt := do
  let keyword ← advance
  let _ ← accept isCommaOrSemicolon
  let body ← block tryBodyEnds
  let (errorVar, handler) ← parseCatch block
  let stop ← closeBlock .tryBlock keyword
  return .tryCatch body errorVar handler ⟨keyword.span.start, stop⟩

def isOutputsEnd : Token.Kind → Bool
  | .sign .closeBracket | .sign .equals | .newline | .eof => true
  | _ => false

/-- The outputs of a header behind those in `outputs`, which are in reverse order. -/
def parseOutputsFrom : Nat → List Output → Parser (List Output)
  | 0, outputs => outOfGas outputs.reverse
  | gas + 1, outputs => do
    if ← check isOutputsEnd then return outputs.reverse
    let token ← advance
    match token.kind with
    | .identifier | .native =>
      parseOutputsFrom gas (.variable ⟨token.text, token.span⟩ :: outputs)
    | .sign .tilde | .sign .bang => parseOutputsFrom gas (.ignored token.span :: outputs)
    | .sign .comma => parseOutputsFrom gas outputs
    | _ =>
      report (.inOutputs token.text) token.span
      parseOutputsFrom gas outputs

/-- `[o1, o2] =` in a function header. -/
def parseOutputs (gas : Nat) : Parser (List Output) := do
  let opening ← advance
  let outputs ← parseOutputsFrom gas []
  expectSign .closeBracket .outputsOpen opening.span
  if !(← acceptSign .equals) then reportHere .outputsWithoutEquals
  return outputs

/-- The parameter `name`, possibly with a default value. -/
def parseNamedParam (gas : Nat) (name : Token) : Parser Param := do
  if ← checkSign .equals then
    let equals ← advance
    let value ← parseExpression gas 0
    expectValue value (.invalidDefault name.text) equals.span
    let stop := (value.elim equals.span Expr.span).stop
    return .optional ⟨name.text, name.span, value, ⟨name.span.start, stop⟩⟩
  else return .plain ⟨name.text, name.span⟩

/-- One parameter of a function header, if there is a sensible one. -/
def parseParam (gas : Nat) : Parser (Option Param) := do
  let token ← advance
  match token.kind with
  | .identifier | .native => some <$> parseNamedParam gas token
  | .sign .tilde | .sign .bang => return some (.ignored token.span)
  | _ =>
    report (.invalidParameter token.text) token.span
    return none

/-- Consumes the comma behind a parameter. The closing parenthesis is left. -/
def parseParamEnd : Parser Unit := do
  if ← acceptSign .comma then return
  if ← check (fun kind => kind == .sign .closeParen || isNewlineOrEnd kind) then return
  let token ← advance
  report (.expectedComma .paren) token.span

/-- The parameters of a header behind those in `params`, which are in reverse order. -/
def parseParamsFrom (exprGas : Nat) (openSpan : Span) : Nat → List Param → Parser (List Param)
  | 0, params => outOfGas params.reverse
  | gas + 1, params => do
    if ← acceptSign .closeParen then return params.reverse
    if ← check isNewlineOrEnd then
      report .headerOpen openSpan
      return params.reverse
    match ← parseParam exprGas with
    | none => parseParamsFrom exprGas openSpan gas params
    | some param =>
      parseParamEnd
      parseParamsFrom exprGas openSpan gas (param :: params)

/-- The parameters of a function header, if it has any. -/
def parseParams (gas : Nat) : Parser (List Param) := do
  if ← checkSign .openParen then
    let opening ← advance
    parseParamsFrom gas opening.span gas []
  else return []

/-- The outputs in front of a function's name. -/
def parseHeaderOutputs (gas : Nat) : Parser (List Output) := do
  if ← checkSign .openBracket then parseOutputs gas
  else if (← current).isName && (← peek 1).is .equals then
    let token ← advance
    let _ ← advance
    return [.variable ⟨token.text, token.span⟩]
  else return []

/-- A function without a name has the empty one, at the keyword. -/
def parseFunctionName (keyword : Token) : Parser Variable := do
  if (← current).isName then
    let token ← advance
    return ⟨token.text, token.span⟩
  else
    report .functionNameMissing keyword.span
    return ⟨"", keyword.span⟩

/-- `function out = name(a, b = 1)`, without the keyword. -/
def parseHeader (gas : Nat) (keyword : Token) : Parser FunctionHeader := do
  let outputs ← parseHeaderOutputs gas
  let name ← parseFunctionName keyword
  let params ← parseParams gas
  return ⟨name.name, name.span, outputs, params⟩

/-- Nothing else stands on the line of a header. -/
def finishHeader : Parser Unit := do
  if !(← check endsStatement) then
    reportHere (.ofToken (← current))
    synchronize

def parseFunction (layout : Layout) (gas : Nat) (block : BlockParser) : Parser Stmt := do
  let keyword ← advance
  let header ← parseHeader gas keyword
  let headerStop := (← previous).span.stop
  finishHeader
  let documentation := layout.documentation keyword.span.start.line.toNat headerStop.line.toNat
  let body ← block functionBodyEnds
  if ← checkWord Keyword.function.terminators then
    let stop := (← advance).span.stop
    return .function header body ⟨keyword.span.start, stop⟩ documentation true
  report (.functionOpen header.name) header.nameSpan
  let stop := (← previous).span.stop
  return .function header body ⟨keyword.span.start, stop⟩ documentation false

/-- A statement that starts with a keyword; a keyword that starts none is reported. -/
def parseKeywordStatement (layout : Layout) (gas : Nat) (block : BlockParser) (token : Token) :
    Keyword → Parser (Option Stmt)
  | .function => some <$> parseFunction layout gas block
  | .ifBlock => some <$> parseIf gas block
  | .forLoop => some <$> parseFor gas block
  | .whileLoop => some <$> parseWhile gas block
  | .doBlock => some <$> parseDoUntil gas block
  | .switchBlock => some <$> parseSwitch gas block
  | .tryBlock => some <$> parseTry block
  | .breakOut => some <$> parseJump .breakOut
  | .continueOn => some <$> parseJump .continueOn
  | .returnBack => some <$> parseJump .returnBack
  | .global => some <$> parseDeclaration gas .global
  | .persistent => some <$> parseDeclaration gas .persistent
  | _ => do
    let _ ← advance
    report (.ofToken token) token.span
    return none

/-- A statement that starts with a name. -/
def parseNameStatement (gas : Nat) (name : Token) : Parser (Option Stmt) := do
  if ← atAssignment then parseAssignment gas
  else if isCommand name (← peek 1) (← peek 2) then some <$> parseCommand gas
  else parseExpressionStatement gas

def parseStatement (layout : Layout) (gas : Nat) (block : BlockParser) : Parser (Option Stmt) := do
  let token ← current
  match token.kind with
  | .keyword word => parseKeywordStatement layout gas block token word
  | .sign .openBracket =>
    if ← atManyAssignment then some <$> parseManyAssignment gas
    else parseExpressionStatement gas
  | .identifier | .native => parseNameStatement gas token
  | _ => parseExpressionStatement gas

/-- A statement that takes no token is not understood: a token is dropped then. -/
def parseNext (statement : Parser (Option Stmt)) : Parser (Option Stmt) := do
  let start ← position
  let stmt ← statement
  if (← position) == start then
    let token ← advance
    report (.ofToken token) token.span
  return stmt

/-- The statements of a block behind the `count` ones in `done`, which are in reverse order. -/
def parseStatements (statement : Parser (Option Stmt)) (ends : List Keyword) :
    Nat → Nat → List Stmt → Parser (List Stmt)
  | 0, _, done => outOfGas done.reverse
  | gas + 1, count, done => do
    skipUntil fun kind => !isSeparator kind
    let token ← current
    if token.kind == .eof || token.isWord ends then return done.reverse
    if maxStatements ≤ count then
      reportHere .tooManyStatements
      return done.reverse
    match ← parseNext statement with
    | some stmt => parseStatements statement ends gas (count + 1) (stmt :: done)
    | none => parseStatements statement ends gas count done

/-- The statements up to the end of the code or one of the keywords `ends`. Blocks inside each other
are less than `gas` deep when fewer tokens than that are left. -/
def parseBlock (layout : Layout) : Nat → BlockParser
  | 0, _ => outOfGas []
  | gas + 1, ends =>
    parseStatements (parseStatement layout (gas + 1) (parseBlock layout gas)) ends (gas + 1) 0 []

def parseProgram (layout : Layout) (gas : Nat) : Parser Program := do
  let body ← parseBlock layout gas []
  skipUntil fun _ => false
  return ⟨body, ⟨.start, (← current).span.stop⟩⟩

end MatrixScript.Parser

namespace MatrixScript

/-- A program as far as it could be made sense of, and the problems found on the way. -/
structure Parsed where
  program : Program
  diagnostics : List Diagnostic

namespace Parsed

def errors (p : Parsed) : List Diagnostic := p.diagnostics.filter Diagnostic.isError

def warnings (p : Parsed) : List Diagnostic := p.diagnostics.filter Diagnostic.isWarning

end Parsed

def Code.parse (code : Code) : Parsed :=
  let (program, state) :=
    (Parser.parseProgram (.ofCode code) (code.tokens.length + 1)).run (.ofCode code)
  ⟨program, state.diagnostics.toList⟩

def parse (tokens : List Token) : Parsed :=
  (Code.ofTokens tokens).parse

end MatrixScript
