/-! The fixed words and signs of the language. -/
namespace MatrixScript

/-- The reserved words. -/
inductive Keyword where
  | forLoop | whileLoop | ifBlock | elseBranch | elseifBranch | switchBlock | caseBranch
  | otherwiseBranch | breakOut | continueOn | returnBack | endAny | function | endFunction | endIf
  | endFor | endWhile | endSwitch | doBlock | untilTest | tryBlock | catchBranch | endTryCatch
  | global | persistent
deriving DecidableEq, Repr

namespace Keyword

def all : List Keyword := [
  .forLoop, .whileLoop, .ifBlock, .elseBranch, .elseifBranch, .switchBlock, .caseBranch,
  .otherwiseBranch, .breakOut, .continueOn, .returnBack, .endAny, .function, .endFunction, .endIf,
  .endFor, .endWhile, .endSwitch, .doBlock, .untilTest, .tryBlock, .catchBranch, .endTryCatch,
  .global, .persistent]

def spelling : Keyword → String
  | .forLoop => "for"
  | .whileLoop => "while"
  | .ifBlock => "if"
  | .elseBranch => "else"
  | .elseifBranch => "elseif"
  | .switchBlock => "switch"
  | .caseBranch => "case"
  | .otherwiseBranch => "otherwise"
  | .breakOut => "break"
  | .continueOn => "continue"
  | .returnBack => "return"
  | .endAny => "end"
  | .function => "function"
  | .endFunction => "endfunction"
  | .endIf => "endif"
  | .endFor => "endfor"
  | .endWhile => "endwhile"
  | .endSwitch => "endswitch"
  | .doBlock => "do"
  | .untilTest => "until"
  | .tryBlock => "try"
  | .catchBranch => "catch"
  | .endTryCatch => "end_try_catch"
  | .global => "global"
  | .persistent => "persistent"

def ofSpelling? (word : String) : Option Keyword :=
  all.find? (·.spelling == word)

/-- The words that close the block which a keyword opens. -/
def terminators : Keyword → List Keyword
  | .function => [.endAny, .endFunction]
  | .ifBlock => [.endAny, .endIf]
  | .forLoop => [.endAny, .endFor]
  | .whileLoop => [.endAny, .endWhile]
  | .switchBlock => [.endAny, .endSwitch]
  | .tryBlock => [.endAny, .endTryCatch]
  | .doBlock => [.untilTest]
  | _ => []

/-- The words that close or split a block, and so end any statement. -/
def closesBlock : Keyword → Bool
  | .endAny | .endFunction | .endIf | .endFor | .endWhile | .endSwitch | .endTryCatch
  | .elseBranch | .elseifBranch | .caseBranch | .otherwiseBranch | .catchBranch | .untilTest => true
  | _ => false

end Keyword

/-- Functions that come with the interpreter. -/
def nativeFunctions : List String := [
  "quad", "inputParser", "pol2cart", "deg2rad", "length", "struct", "addpath", "argv", "hold",
  "axis", "printf", "fprintf", "sprintf", "figure", "set", "grid", "clc", "quit", "help", "stem",
  "plot", "abs", "acos", "acosh", "angle", "arg", "asin", "asinh", "atan", "atanh", "ceil", "conj",
  "cos", "cosh", "cot", "csc", "det", "diag", "diff", "disp", "eig", "eps", "erf", "erfc", "error",
  "exp", "floor", "isempty", "log", "max", "min", "mod", "numel", "ones", "round", "sin", "size",
  "sqrt", "sum", "tan", "warning", "zeros"]

/-- The signs of one character. Operators of two characters are two signs with no blank between. -/
inductive Sign where
  | equals | plus | minus | star | slash | backslash | percent | caret | period | semicolon | colon
  | comma | atSign | less | greater | ampersand | bar | tilde | bang | openBracket | closeBracket
  | openBrace | closeBrace | openParen | closeParen
deriving DecidableEq, Repr

/-- Both signs of negation mean the same. -/
def Sign.negates : Sign → Bool
  | .tilde | .bang => true
  | _ => false

def Sign.ofChar? : Char → Option Sign
  | '=' => some .equals
  | '+' => some .plus
  | '-' => some .minus
  | '*' => some .star
  | '/' => some .slash
  | '\\' => some .backslash
  | '%' => some .percent
  | '^' => some .caret
  | '.' => some .period
  | ';' => some .semicolon
  | ':' => some .colon
  | ',' => some .comma
  | '@' => some .atSign
  | '<' => some .less
  | '>' => some .greater
  | '&' => some .ampersand
  | '|' => some .bar
  | '~' => some .tilde
  | '!' => some .bang
  | '[' => some .openBracket
  | ']' => some .closeBracket
  | '{' => some .openBrace
  | '}' => some .closeBrace
  | '(' => some .openParen
  | ')' => some .closeParen
  | _ => none

end MatrixScript
