import MatrixScript.Token.Vocabulary

/-! Operators, how they are spelled and how strongly they bind. -/
namespace MatrixScript

inductive BinaryOp where
  | orElse | andThen | or | and | equal | unequalTilde | unequalBang | less | lessEqual | greater
  | greaterEqual | range | add | subtract | multiply | divide | leftDivide | modulus
  | elementMultiply | elementDivide | elementLeftDivide | power | elementPower
deriving DecidableEq, Repr

namespace BinaryOp

def spelling : BinaryOp → String
  | .orElse => "||"
  | .andThen => "&&"
  | .or => "|"
  | .and => "&"
  | .equal => "=="
  | .unequalTilde => "~="
  | .unequalBang => "!="
  | .less => "<"
  | .lessEqual => "<="
  | .greater => ">"
  | .greaterEqual => ">="
  | .range => ":"
  | .add => "+"
  | .subtract => "-"
  | .multiply => "*"
  | .divide => "/"
  | .leftDivide => "\\"
  | .modulus => "%"
  | .elementMultiply => ".*"
  | .elementDivide => "./"
  | .elementLeftDivide => ".\\"
  | .power => "^"
  | .elementPower => ".^"

/-- Operators of higher precedence bind more strongly. All of them group to the left. -/
def precedence : BinaryOp → Nat
  | .orElse => 1
  | .andThen => 2
  | .or => 3
  | .and => 4
  | .equal | .unequalTilde | .unequalBang | .less | .lessEqual | .greater | .greaterEqual => 5
  | .range => 6
  | .add | .subtract => 7
  | .multiply | .divide | .leftDivide | .modulus => 8
  | .elementMultiply | .elementDivide | .elementLeftDivide => 8
  | .power | .elementPower => 10

/-- The operator that one sign spells. -/
def ofSign? : Sign → Option BinaryOp
  | .plus => some .add
  | .minus => some .subtract
  | .star => some .multiply
  | .slash => some .divide
  | .backslash => some .leftDivide
  | .percent => some .modulus
  | .caret => some .power
  | .less => some .less
  | .greater => some .greater
  | .ampersand => some .and
  | .bar => some .or
  | .colon => some .range
  | _ => none

/-- The operator that two signs without a blank between them spell. -/
def ofSigns? : Sign → Sign → Option BinaryOp
  | .equals, .equals => some .equal
  | .less, .equals => some .lessEqual
  | .greater, .equals => some .greaterEqual
  | .tilde, .equals => some .unequalTilde
  | .bang, .equals => some .unequalBang
  | .ampersand, .ampersand => some .andThen
  | .bar, .bar => some .orElse
  | .period, .star => some .elementMultiply
  | .period, .slash => some .elementDivide
  | .period, .backslash => some .elementLeftDivide
  | .period, .caret => some .elementPower
  | _, _ => none

end BinaryOp

inductive PrefixOp where
  | minus | plus | tilde | bang
deriving DecidableEq, Repr

namespace PrefixOp

def spelling : PrefixOp → String
  | .minus => "-"
  | .plus => "+"
  | .tilde => "~"
  | .bang => "!"

/-- Prefix operators bind less strongly than powers and more strongly than all else. -/
def precedence : Nat := 9

def ofSign? : Sign → Option PrefixOp
  | .minus => some .minus
  | .plus => some .plus
  | .tilde => some .tilde
  | .bang => some .bang
  | _ => none

end PrefixOp

/-- The two transposes, written behind their operand. -/
inductive TransposeOp where
  | conjugate | plain
deriving DecidableEq, Repr

def TransposeOp.spelling : TransposeOp → String
  | .conjugate => "'"
  | .plain => ".'"

end MatrixScript
