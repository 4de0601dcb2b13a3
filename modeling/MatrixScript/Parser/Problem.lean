import MatrixScript.Diagnostic
import MatrixScript.Syntax.Tree
import MatrixScript.Token

/-! What can be wrong with the source, and how it is worded. -/
namespace MatrixScript

/-- The brackets that can be open around an expression. -/
inductive Group where
  | paren | bracket | brace
deriving DecidableEq, Repr

namespace Group

def closing : Group → Sign
  | .paren => .closeParen
  | .bracket => .closeBracket
  | .brace => .closeBrace

def closingText : Group → String
  | .paren => ")"
  | .bracket => "]"
  | .brace => "\x7d"

/-- Inside a matrix, blanks separate elements. -/
def isMatrix : Group → Bool
  | .paren => false
  | .bracket | .brace => true

def ofOpening? : Sign → Option Group
  | .openParen => some .paren
  | .openBracket => some .bracket
  | .openBrace => some .brace
  | _ => none

def ofClosing? : Sign → Option Group
  | .closeParen => some .paren
  | .closeBracket => some .bracket
  | .closeBrace => some .brace
  | _ => none

def ofMatrix : MatrixKind → Group
  | .vector => .bracket
  | .cell => .brace

end Group

/-- The most statements that one block may have. -/
def maxStatements : Nat := 5000

inductive Problem where
  | illegalCharacter (text : String)
  | unexpectedKeyword (text : String)
  | unexpected (text : String)
  | endsAfter (text : String)
  | inExpression (text : String)
  | showsOutput
  | tooManyStatements
  | invalidTarget
  | inTargets (text : String)
  | targetsOpen
  | functionNameMissing
  | functionOpen (name : String)
  | inOutputs (text : String)
  | outputsOpen
  | outputsWithoutEquals
  | headerOpen
  | invalidDefault (name : String)
  | invalidParameter (text : String)
  | expectedComma (group : Group)
  | conditionMissing (keyword : Keyword)
  | conditionInvalid (keyword : Keyword)
  | blockOpen (keyword : Keyword)
  | iterableMissing
  | loopEqualsMissing
  | loopVariableMissing
  | untilMissing
  | caseValueMissing
  | groupOpen (group : Group)
  | parenOpenInExpression
  | matrixOpen (kind : MatrixKind)
  | stringOpen
  | argumentMissing
  | invalidArgument (text : String)
  | extraComma (kind : MatrixKind)
  | inMatrix (kind : MatrixKind) (text : String)
  | handleName
deriving DecidableEq, Repr

namespace Problem

/-- The code of a wrong condition, by the keyword before it. -/
def conditionCode : Keyword → Diagnostic.Code
  | .whileLoop => .invalidWhile
  | .untilTest => .invalidUntil
  | .switchBlock => .invalidSwitch
  | _ => .invalidIf

/-- The code of a block that is not closed, by the keyword that opens it. -/
def blockCode : Keyword → Diagnostic.Code
  | .forLoop => .missingEndFor
  | .whileLoop => .missingEndWhile
  | .switchBlock => .missingEndSwitch
  | .tryBlock => .missingEndTry
  | _ => .missingEndIf

def code : Problem → Diagnostic.Code
  | .illegalCharacter _ => .illegalCharacter
  | .unexpectedKeyword _ | .unexpected _ | .invalidTarget => .unexpectedToken
  | .endsAfter _ => .unexpectedNewline
  | .inExpression _ | .handleName => .unexpectedInExpression
  | .showsOutput => .outputNotSuppressed
  | .tooManyStatements => .statementLimit
  | .inTargets _ => .expectedCommaInOutputs
  | .targetsOpen | .matrixOpen _ => .missingBracket
  | .functionNameMissing => .expectedFunctionName
  | .functionOpen _ => .missingFunctionEnd
  | .inOutputs _ | .outputsOpen | .outputsWithoutEquals => .outputVector
  | .headerOpen | .groupOpen _ => .missingParen
  | .invalidDefault _ => .invalidDefaultValue
  | .invalidParameter _ => .invalidHeaderArgument
  | .expectedComma _ => .expectedCommaOrParen
  | .conditionMissing keyword | .conditionInvalid keyword => conditionCode keyword
  | .blockOpen keyword => blockCode keyword
  | .iterableMissing | .loopEqualsMissing | .loopVariableMissing => .invalidFor
  | .untilMissing => .missingUntil
  | .caseValueMissing => .invalidSwitch
  | .parenOpenInExpression => .missingParenInExpression
  | .stringOpen => .unterminatedString
  | .argumentMissing | .invalidArgument _ => .invalidArgument
  | .extraComma .cell => .cellComma
  | .extraComma .vector => .unexpectedVectorValue
  | .inMatrix .cell _ => .cellArguments
  | .inMatrix .vector _ => .unexpectedVectorValue

private def quote (text : String) : String := "'" ++ text ++ "'"

def message : Problem → String
  | .illegalCharacter text => "illegal character " ++ quote text
  | .unexpectedKeyword text => "unexpected keyword " ++ quote text
  | .unexpected text => "unexpected " ++ quote text
  | .endsAfter text => "unexpected end of statement after " ++ quote text
  | .inExpression text => "unexpected " ++ quote text ++ " in expression"
  | .showsOutput => "Will output to the console"
  | .tooManyStatements =>
    "maximum of " ++ toString maxStatements ++ " statements in a block reached"
  | .invalidTarget => "invalid assignment target"
  | .inTargets text | .inOutputs text => "unexpected " ++ quote text ++ " in output list"
  | .targetsOpen => "missing " ++ quote "]"
  | .functionNameMissing => "expected function identifier"
  | .functionOpen name => "missing 'end' for function " ++ quote name
  | .outputsOpen => "missing ']' in output list"
  | .outputsWithoutEquals => "expected '=' after output list"
  | .headerOpen => "missing ')' in function header"
  | .invalidDefault name => "invalid default value for " ++ quote name
  | .invalidParameter text => "invalid argument " ++ quote text ++ " in function definition"
  | .expectedComma group => "expected ',' or " ++ quote group.closingText
  | .conditionMissing keyword => "expected a condition after " ++ quote keyword.spelling
  | .conditionInvalid keyword => "invalid condition for " ++ quote keyword.spelling
  | .blockOpen keyword => "missing 'end' for " ++ quote keyword.spelling ++ " statement"
  | .iterableMissing => "expected an expression to iterate over"
  | .loopEqualsMissing => "expected '=' after loop variable"
  | .loopVariableMissing => "expected loop variable after 'for'"
  | .untilMissing => "missing 'until' for 'do' statement"
  | .caseValueMissing => "expected a value after 'case'"
  | .groupOpen group => "missing " ++ quote group.closingText
  | .parenOpenInExpression => "missing ')'"
  | .matrixOpen kind => "missing " ++ quote (Group.ofMatrix kind).closingText
  | .stringOpen => "unterminated string"
  | .argumentMissing => "expected an argument"
  | .invalidArgument text => "invalid argument " ++ quote text
  | .extraComma _ => "unexpected ','"
  | .inMatrix _ text => "unexpected " ++ quote text
  | .handleName => "expected '(' or a function name after '@'"

/-- Only output that is not suppressed is a warning, all else is an error. -/
def severity : Problem → Severity
  | .showsOutput => .warning
  | _ => .error

def toDiagnostic (problem : Problem) (span : Span) : Diagnostic :=
  ⟨problem.code, problem.message, span, problem.severity⟩

/-- A token where it makes no sense. -/
def ofToken (t : Token) : Problem :=
  match t.kind with
  | .illegal => .illegalCharacter t.text
  | .keyword _ => .unexpectedKeyword t.text
  | _ => .unexpected t.text

end Problem

end MatrixScript
