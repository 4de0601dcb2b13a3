import MatrixScript.Syntax.Tree
import Mathlib.Tactic.Common

/-! Syntax trees without the places of their nodes and without documentation. -/
namespace MatrixScript

def Variable.unplaced (v : Variable) : Variable := ⟨v.name, .zero⟩

namespace Expr

mutual

def unplaced : Expr → Expr
  | .name use => .name (unplacedUse use)
  | .number text _ => .number text .zero
  | .string text _ => .string text .zero
  | .binary op left right _ => .binary op left.unplaced right.unplaced .zero
  | .prefixed op operand _ => .prefixed op operand.unplaced .zero
  | .transposed op operand _ => .transposed op operand.unplaced .zero
  | .matrix kind rows _ => .matrix kind (unplacedRows rows) .zero
  | .anonymous params body _ => .anonymous params (unplacedOption body) .zero
  | .handle function _ => .handle function.unplaced .zero
  | .named value => .named (unplacedNamed value)
  | .mark sign _ => .mark sign .zero

def unplacedUse : NameUse Expr → NameUse Expr
  | ⟨root, fields, _, args, native, command⟩ =>
    ⟨root, fields, .zero, unplacedArgs args, native, command⟩

def unplacedNamed : NamedValue Expr → NamedValue Expr
  | ⟨word, _, value, _⟩ => ⟨word, .zero, unplacedOption value, .zero⟩

def unplacedOption : Option Expr → Option Expr
  | none => none
  | some e => some e.unplaced

def unplacedArgs : Option (List Expr) → Option (List Expr)
  | none => none
  | some es => some (unplacedList es)

def unplacedList : List Expr → List Expr
  | [] => []
  | e :: es => e.unplaced :: unplacedList es

def unplacedRows : List (List Expr) → List (List Expr)
  | [] => []
  | row :: rows => unplacedList row :: unplacedRows rows

end

attribute [local simp] unplacedList unplacedRows

theorem unplacedList_eq (es : List Expr) : unplacedList es = es.map unplaced := by
  induction es with
  | nil => rfl
  | cons e es ih => simp [ih]

theorem unplacedRows_eq (rows : List (List Expr)) : unplacedRows rows = rows.map (List.map unplaced) := by
  induction rows with
  | nil => rfl
  | cons row rows ih => simp [ih, unplacedList_eq]

end Expr

def NameUse.unplaced (use : NameUse Expr) : NameUse Expr :=
  { use with span := .zero, args := use.args.map (List.map Expr.unplaced) }

namespace Expr

attribute [local simp] unplaced unplacedUse unplacedNamed unplacedOption unplacedArgs

@[simp] theorem unplaced_name (use : NameUse Expr) : (name use).unplaced = name use.unplaced := by
  obtain ⟨root, fields, span, args, native, command⟩ := use
  cases args <;> simp [NameUse.unplaced, unplacedList_eq]

@[simp] theorem unplaced_named (word : String) (wordSpan span : Span) (value : Option Expr) :
    (named ⟨word, wordSpan, value, span⟩).unplaced =
      named ⟨word, .zero, value.map unplaced, .zero⟩ := by
  cases value <;> simp

@[simp] theorem unplaced_matrix (kind : MatrixKind) (rows : List (List Expr)) (span : Span) :
    (matrix kind rows span).unplaced = matrix kind (rows.map (List.map unplaced)) .zero := by
  simp [unplacedRows_eq]

@[simp] theorem unplaced_anonymous (params : List String) (body : Option Expr) (span : Span) :
    (anonymous params body span).unplaced = anonymous params (body.map unplaced) .zero := by
  cases body <;> simp

end Expr

namespace Target

def unplaced : Target → Target
  | .name use => .name use.unplaced
  | .ignored _ => .ignored .zero

end Target

namespace Output

def unplaced : Output → Output
  | .variable v => .variable v.unplaced
  | .ignored _ => .ignored .zero

end Output

namespace Param

def unplaced : Param → Param
  | .plain v => .plain v.unplaced
  | .optional value => .optional (Expr.unplacedNamed value)
  | .ignored _ => .ignored .zero

end Param

def FunctionHeader.unplaced (header : FunctionHeader) : FunctionHeader :=
  ⟨header.name, .zero, header.outputs.map Output.unplaced, header.params.map Param.unplaced⟩

namespace Stmt

mutual

def unplaced : Stmt → Stmt
  | .assign target value _ silent => .assign target.unplaced (value.map Expr.unplaced) .zero silent
  | .assignMany targets value _ silent =>
    .assignMany (targets.map Target.unplaced) (value.map Expr.unplaced) .zero silent
  | .call use silent => .call use.unplaced silent
  | .expr value silent => .expr value.unplaced silent
  | .function header body _ _ closed => .function header.unplaced (unplacedBlock body) .zero "" closed
  | .ifElse condition body clauses otherwise _ =>
    .ifElse (condition.map Expr.unplaced) (unplacedBlock body) (unplacedBranches clauses)
      (unplacedOption otherwise) .zero
  | .forLoop loopVar iterable body _ =>
    .forLoop (loopVar.map Variable.unplaced) (iterable.map Expr.unplaced) (unplacedBlock body) .zero
  | .whileLoop condition body _ => .whileLoop (condition.map Expr.unplaced) (unplacedBlock body) .zero
  | .doUntil body condition _ => .doUntil (unplacedBlock body) (condition.map Expr.unplaced) .zero
  | .switch subject cases otherwise _ =>
    .switch (subject.map Expr.unplaced) (unplacedBranches cases) (unplacedOption otherwise) .zero
  | .tryCatch body errorVar handler _ =>
    .tryCatch (unplacedBlock body) (errorVar.map Variable.unplaced) (unplacedBlock handler) .zero
  | .declare storage names _ => .declare storage (names.map Variable.unplaced) .zero
  | .jump way _ => .jump way .zero

def unplacedBlock : List Stmt → List Stmt
  | [] => []
  | s :: ss => s.unplaced :: unplacedBlock ss

def unplacedOption : Option (List Stmt) → Option (List Stmt)
  | none => none
  | some ss => some (unplacedBlock ss)

def unplacedBranch : Branch Stmt → Branch Stmt
  | ⟨guard, body, _⟩ => ⟨guard.map Expr.unplaced, unplacedBlock body, .zero⟩

def unplacedBranches : List (Branch Stmt) → List (Branch Stmt)
  | [] => []
  | b :: bs => unplacedBranch b :: unplacedBranches bs

end

attribute [local simp] unplacedBlock unplacedBranches

theorem unplacedBlock_eq (ss : List Stmt) : unplacedBlock ss = ss.map unplaced := by
  induction ss with
  | nil => rfl
  | cons s ss ih => simp [ih]

theorem unplacedBranches_eq (bs : List (Branch Stmt)) : unplacedBranches bs = bs.map unplacedBranch := by
  induction bs with
  | nil => rfl
  | cons b bs ih => simp [ih]

end Stmt

end MatrixScript
