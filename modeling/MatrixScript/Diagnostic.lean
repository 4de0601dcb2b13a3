import MatrixScript.Position

/-! Problems found in a document. The numbers of the codes are public: editors filter by them. -/
namespace MatrixScript

inductive Severity where
  | error | warning | information | hint
deriving DecidableEq, Repr

namespace Severity

def all : List Severity := [.error, .warning, .information, .hint]

def text : Severity → String
  | .error => "error"
  | .warning => "warning"
  | .information => "information"
  | .hint => "hint"

def ofText? (word : String) : Option Severity :=
  all.find? (·.text == word)

/-- The number by which editors know the severity. -/
def number : Severity → Nat
  | .error => 1
  | .warning => 2
  | .information => 3
  | .hint => 4

end Severity

/-- The closed catalogue of problem codes. -/
inductive Diagnostic.Code where
  | outputVector | expectedFunctionName | statementLimit | missingFunctionEnd | missingParen
  | expectedCommaOrParen | invalidArgument | invalidDefaultValue | unexpectedInExpression
  | missingParenInExpression | expectedCommaInOutputs | outputNotSuppressed
  | unexpectedVectorValue | missingBracket | namedArgument | unexpectedToken | unterminatedString
  | illegalCharacter | tokenLimit | unexpectedNewline | cellArguments | cellComma
  | invalidHeaderArgument | invalidIf | missingEndIf | invalidFor | missingEndFor | invalidWhile
  | missingEndWhile | invalidUntil | missingUntil | invalidSwitch | missingEndSwitch
  | missingEndTry | duplicateDefinition | unresolvedReference | tooManyArguments
deriving DecidableEq, Repr

namespace Diagnostic.Code

/-- All codes, by increasing number. -/
def all : List Code := [
  .outputVector, .expectedFunctionName, .statementLimit, .missingFunctionEnd, .missingParen,
  .expectedCommaOrParen, .invalidArgument, .invalidDefaultValue, .unexpectedInExpression,
  .missingParenInExpression, .expectedCommaInOutputs, .outputNotSuppressed,
  .unexpectedVectorValue, .missingBracket, .namedArgument, .unexpectedToken, .unterminatedString,
  .illegalCharacter, .tokenLimit, .unexpectedNewline, .cellArguments, .cellComma,
  .invalidHeaderArgument, .invalidIf, .missingEndIf, .invalidFor, .missingEndFor, .invalidWhile,
  .missingEndWhile, .invalidUntil, .missingUntil, .invalidSwitch, .missingEndSwitch,
  .missingEndTry, .duplicateDefinition, .unresolvedReference, .tooManyArguments]

def number : Code → Nat
  | .outputVector => 1
  | .expectedFunctionName => 2
  | .statementLimit => 3
  | .missingFunctionEnd => 5
  | .missingParen => 6
  | .expectedCommaOrParen => 7
  | .invalidArgument => 8
  | .invalidDefaultValue => 9
  | .unexpectedInExpression => 12
  | .missingParenInExpression => 13
  | .expectedCommaInOutputs => 14
  | .outputNotSuppressed => 15
  | .unexpectedVectorValue => 21
  | .missingBracket => 22
  | .namedArgument => 23
  | .unexpectedToken => 24
  | .unterminatedString => 25
  | .illegalCharacter => 26
  | .tokenLimit => 27
  | .unexpectedNewline => 50
  | .cellArguments => 140
  | .cellComma => 141
  | .invalidHeaderArgument => 200
  | .invalidIf => 4002
  | .missingEndIf => 4005
  | .invalidFor => 4100
  | .missingEndFor => 4105
  | .invalidWhile => 4200
  | .missingEndWhile => 4205
  | .invalidUntil => 4300
  | .missingUntil => 4305
  | .invalidSwitch => 4400
  | .missingEndSwitch => 4405
  | .missingEndTry => 4505
  | .duplicateDefinition => 5000
  | .unresolvedReference => 5001
  | .tooManyArguments => 5002

def ofNumber? (n : Int) : Option Code :=
  all.find? fun code => (code.number : Int) == n

/-- The name of the code in the public catalogue. -/
def label : Code → String
  | .outputVector => "OUTPUT_VECTOR"
  | .expectedFunctionName => "EXPECTED_FN_IDENT"
  | .statementLimit => "AST_MAX_STMNT_REACHED"
  | .missingFunctionEnd => "FN_DEF_MISSING_END"
  | .missingParen => "MISSING_PAREN"
  | .expectedCommaOrParen => "EXPECTED_COMMA_PAREN"
  | .invalidArgument => "INVALID_ARGUMENT"
  | .invalidDefaultValue => "INVALID_DEFAULT_VALUE"
  | .unexpectedInExpression => "UNEXPECTED_TOKEN_EXPR"
  | .missingParenInExpression => "MISSING_RPAREN_EXPR"
  | .expectedCommaInOutputs => "EXPECTED_COMMA_OUTPUTS"
  | .outputNotSuppressed => "OUTPUT_NOT_SUPPRESSED"
  | .unexpectedVectorValue => "UNEXPECTED_VECTOR_VALUE"
  | .missingBracket => "MISSING_RBRACKET"
  | .namedArgument => "UNEXPECTED_DEFAULT_VALUE_ARGUMENT"
  | .unexpectedToken => "UNEXPECTED_TOKEN"
  | .unterminatedString => "UNTERMINATED_STRING"
  | .illegalCharacter => "ILLEGAL_CHARACTER"
  | .tokenLimit => "TOKEN_LIMIT_EXCEEDED"
  | .unexpectedNewline => "UNEXPECTED_NL"
  | .cellArguments => "STRUCT_BAD_ARGS"
  | .cellComma => "STRUCT_BAD_COMMA"
  | .invalidHeaderArgument => "INVALID_FN_DEF_ARGUMENT"
  | .invalidIf => "EXPECTED_VALID_IF_STMNT"
  | .missingEndIf => "MISSING_END_IF_STMNT"
  | .invalidFor => "EXPECTED_VALID_FOR_STMNT"
  | .missingEndFor => "MISSING_END_FOR_STMNT"
  | .invalidWhile => "EXPECTED_VALID_WHILE_STMNT"
  | .missingEndWhile => "MISSING_END_WHILE_STMNT"
  | .invalidUntil => "EXPECTED_VALID_DO_UNTIL_STMNT"
  | .missingUntil => "MISSING_UNTIL_DO_STMNT"
  | .invalidSwitch => "EXPECTED_VALID_SWITCH_STMNT"
  | .missingEndSwitch => "MISSING_END_SWITCH_STMNT"
  | .missingEndTry => "MISSING_END_TRY_STMNT"
  | .duplicateDefinition => "DUPLICATE_DEFINITION"
  | .unresolvedReference => "UNRESOLVED_REFERENCE"
  | .tooManyArguments => "TOO_MANY_ARGUMENTS"

end Diagnostic.Code

/-- One problem and where it is. -/
structure Diagnostic where
  code : Diagnostic.Code
  message : String
  span : Span
  severity : Severity
deriving DecidableEq, Repr

/-- A message with the place it is about, if that is known. -/
def locate (location : Option Position) (message : String) : String :=
  match location with
  | some p => "[" ++ p.text ++ "] " ++ message
  | none => message

namespace Diagnostic

def isError (d : Diagnostic) : Bool := d.severity == .error

def isWarning (d : Diagnostic) : Bool := d.severity == .warning

def text (d : Diagnostic) : String :=
  d.severity.text ++ "[" ++ toString d.code.number ++ "] " ++ d.span.start.text ++ ": " ++ d.message

private def atLine (span : Span) : String :=
  ". At line " ++ toString (span.start.line + 1)

/-- A function is defined a second time at the top level of a file. -/
def duplicate (name : String) (span : Span) : Diagnostic :=
  ⟨.duplicateDefinition, "'" ++ name ++ "' is already defined" ++ atLine span, span, .error⟩

/-- A function is called that nobody defines. -/
def unresolved (name : String) (span : Span) : Diagnostic :=
  ⟨.unresolvedReference, "reference '" ++ name ++ "' not found" ++ atLine span, span, .warning⟩

/-- A call passes more arguments than the function has parameters, of which `required` have no
default value and `optional` have one. -/
def tooManyArguments (name : String) (span : Span) (given required optional : Int) : Diagnostic :=
  ⟨.tooManyArguments,
    "expected " ++ toString (required + optional) ++ " got " ++ toString given ++ " (" ++
      toString required ++ " required) arguments for '" ++ name ++ "'" ++ atLine span,
    span, .error⟩

end Diagnostic

/-- A problem in the form in which editors receive it. -/
structure EditorDiagnostic where
  span : Span
  message : String
  severity : Nat
  code : Nat
  source : String
deriving DecidableEq, Repr

/-- The sender's name on every published problem. -/
def Diagnostic.source : String := "mlang"

def Diagnostic.forEditor (d : Diagnostic) : EditorDiagnostic :=
  ⟨d.span, d.message, d.severity.number, d.code.number, Diagnostic.source⟩

end MatrixScript
