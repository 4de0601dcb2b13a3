import MatrixScript.Position
import MatrixScript.Syntax.Operator

/-! Syntax trees. Every node knows the span of source text that it was read from. -/
namespace MatrixScript

/-- A name where it stands for itself: a loop variable, a parameter, a declared name. -/
structure Variable where
  name : String
  span : Span
deriving DecidableEq, Repr

/-- A use of a name with its field accesses and arguments: `x`, `s.a.b`, `f(a, b)`, `hold on`.
Without any argument list `args` is `none`; several lists are joined. -/
structure NameUse (ε : Type) where
  root : String
  fields : List String
  span : Span
  args : Option (List ε)
  native : Bool
  command : Bool

/-- `name = value`, as a parameter with a default or as a named argument. -/
structure NamedValue (ε : Type) where
  name : String
  nameSpan : Span
  value : Option ε
  span : Span

/-- Signs that stand where a value is expected: all of a dimension, its end, and no output. -/
inductive Mark where
  | whole | last | ignored
deriving DecidableEq, Repr

def Mark.text : Mark → String
  | .whole => ":"
  | .last => "end"
  | .ignored => "~"

/-- Literals laid out in rows: `[...]` and `{...}`. -/
inductive MatrixKind where
  | vector | cell
deriving DecidableEq, Repr

inductive Expr where
  | name (use : NameUse Expr)
  | number (text : String) (span : Span)
  /-- The text keeps its quotes. -/
  | string (text : String) (span : Span)
  | binary (op : BinaryOp) (left right : Expr) (span : Span)
  | prefixed (op : PrefixOp) (operand : Expr) (span : Span)
  | transposed (op : TransposeOp) (operand : Expr) (span : Span)
  | matrix (kind : MatrixKind) (rows : List (List Expr)) (span : Span)
  | anonymous (params : List String) (body : Option Expr) (span : Span)
  | handle (function : Variable) (span : Span)
  | named (value : NamedValue Expr)
  | mark (mark : Mark) (span : Span)

namespace NameUse

variable {ε : Type}

/-- The name as written, with its fields. -/
def name (use : NameUse ε) : String :=
  ".".intercalate (use.root :: use.fields)

def isCall (use : NameUse ε) : Bool := use.args.isSome

def isDotted (use : NameUse ε) : Bool := !use.fields.isEmpty

/-- The span of the leading name alone. -/
def rootSpan (use : NameUse ε) : Span :=
  ⟨use.span.start, use.span.start.right use.root.length⟩

/-- The span that the dotted name takes if it is written without gaps. -/
def nameSpan (use : NameUse ε) : Span :=
  ⟨use.span.start, use.span.start.right use.name.length⟩

end NameUse

def Variable.toExpr (v : Variable) : Expr :=
  .name ⟨v.name, [], v.span, none, false, false⟩

def Expr.span : Expr → Span
  | .name use => use.span
  | .number _ span | .string _ span | .binary _ _ _ span | .prefixed _ _ span
  | .transposed _ _ span | .matrix _ _ span | .anonymous _ _ span | .handle _ span
  | .mark _ span => span
  | .named value => value.span

/-- What stands on the left of a multiple assignment. -/
inductive Target where
  | name (use : NameUse Expr)
  | ignored (span : Span)

def Target.toExpr : Target → Expr
  | .name use => .name use
  | .ignored span => .mark .ignored span

/-- An output in a function header. -/
inductive Output where
  | variable (v : Variable)
  | ignored (span : Span)

def Output.toExpr : Output → Expr
  | .variable v => v.toExpr
  | .ignored span => .mark .ignored span

/-- A parameter in a function header. -/
inductive Param where
  | plain (v : Variable)
  | optional (value : NamedValue Expr)
  | ignored (span : Span)

def Param.toExpr : Param → Expr
  | .plain v => v.toExpr
  | .optional value => .named value
  | .ignored span => .mark .ignored span

/-- The first line of a function. A header without a name has the empty one, at the keyword. -/
structure FunctionHeader where
  name : String
  nameSpan : Span
  outputs : List Output
  params : List Param

/-- A guarded part of a statement: an `elseif` or a `case`. -/
structure Branch (σ : Type) where
  guard : Option Expr
  body : List σ
  span : Span

inductive Storage where
  | global | persistent
deriving DecidableEq, Repr

def Storage.spelling : Storage → String
  | .global => "global"
  | .persistent => "persistent"

inductive Jump where
  | breakOut | continueOn | returnBack
deriving DecidableEq, Repr

def Jump.spelling : Jump → String
  | .breakOut => "break"
  | .continueOn => "continue"
  | .returnBack => "return"

/-- Statements. `silent` says that a semicolon suppresses the output. -/
inductive Stmt where
  | assign (target : NameUse Expr) (value : Option Expr) (span : Span) (silent : Bool)
  | assignMany (targets : List Target) (value : Option Expr) (span : Span) (silent : Bool)
  | call (use : NameUse Expr) (silent : Bool)
  | expr (value : Expr) (silent : Bool)
  | function (header : FunctionHeader) (body : List Stmt) (span : Span) (documentation : String)
      (closed : Bool)
  | ifElse (condition : Option Expr) (body : List Stmt) (clauses : List (Branch Stmt))
      (otherwise : Option (List Stmt)) (span : Span)
  | forLoop (loopVar : Option Variable) (iterable : Option Expr) (body : List Stmt) (span : Span)
  | whileLoop (condition : Option Expr) (body : List Stmt) (span : Span)
  | doUntil (body : List Stmt) (condition : Option Expr) (span : Span)
  | switch (subject : Option Expr) (cases : List (Branch Stmt)) (otherwise : Option (List Stmt))
      (span : Span)
  | tryCatch (body : List Stmt) (errorVar : Option Variable) (handler : List Stmt) (span : Span)
  | declare (storage : Storage) (names : List Variable) (span : Span)
  | jump (jump : Jump) (span : Span)

def Stmt.span : Stmt → Span
  | .assign _ _ span _ | .assignMany _ _ span _ | .function _ _ span _ _ | .ifElse _ _ _ _ span
  | .forLoop _ _ _ span | .whileLoop _ _ span | .doUntil _ _ span | .switch _ _ _ span
  | .tryCatch _ _ _ span | .declare _ _ span | .jump _ span => span
  | .call use _ => use.span
  | .expr value _ => value.span

structure Program where
  body : List Stmt
  span : Span

end MatrixScript
