import MatrixScript.Diagnostic
import MatrixScript.Proofs.Position
import MatrixScript.Syntax.Tree
import MatrixScript.Token

/-! Tokens, problems and syntax trees of a text that stands further down. -/
namespace MatrixScript

namespace Token

def down (n : Nat) (t : Token) : Token := { t with span := t.span.down n }

@[simp] theorem kind_down (n : Nat) (t : Token) : (t.down n).kind = t.kind := rfl

@[simp] theorem text_down (n : Nat) (t : Token) : (t.down n).text = t.text := rfl

@[simp] theorem span_down (n : Nat) (t : Token) : (t.down n).span = t.span.down n := rfl

@[simp] theorem down_zero (t : Token) : t.down 0 = t := by
  simp [down]

@[simp] theorem down_zero_eq_id : down 0 = id := funext down_zero

@[simp] theorem is_down (n : Nat) (t : Token) (s : Sign) : (t.down n).is s = t.is s := rfl

@[simp] theorem isName_down (n : Nat) (t : Token) : (t.down n).isName = t.isName := rfl

@[simp] theorem isWord_down (n : Nat) (t : Token) (words : List Keyword) :
    (t.down n).isWord words = t.isWord words := rfl

@[simp] theorem adjacent_down (n : Nat) (t u : Token) :
    (t.down n).adjacent (u.down n) = t.adjacent u := by
  rw [Bool.eq_iff_iff]
  simp [adjacent]

end Token

def Diagnostic.down (n : Nat) (d : Diagnostic) : Diagnostic := { d with span := d.span.down n }

@[simp] theorem Diagnostic.down_zero (d : Diagnostic) : d.down 0 = d := by
  simp [down]

@[simp] theorem Diagnostic.down_zero_eq_id : Diagnostic.down 0 = id := funext Diagnostic.down_zero

def Variable.down (n : Nat) (v : Variable) : Variable := ⟨v.name, v.span.down n⟩

@[simp] theorem Variable.down_zero (v : Variable) : v.down 0 = v := by
  simp [down]

namespace Expr

mutual

def down (n : Nat) : Expr → Expr
  | .name use => .name (downUse n use)
  | .number text span => .number text (span.down n)
  | .string text span => .string text (span.down n)
  | .binary op left right span => .binary op (left.down n) (right.down n) (span.down n)
  | .prefixed op operand span => .prefixed op (operand.down n) (span.down n)
  | .transposed op operand span => .transposed op (operand.down n) (span.down n)
  | .matrix kind rows span => .matrix kind (downRows n rows) (span.down n)
  | .anonymous params body span => .anonymous params (downOption n body) (span.down n)
  | .handle function span => .handle (function.down n) (span.down n)
  | .named value => .named (downNamed n value)
  | .mark sign span => .mark sign (span.down n)

def downUse (n : Nat) : NameUse Expr → NameUse Expr
  | ⟨root, fields, span, args, native, command⟩ =>
    ⟨root, fields, span.down n, downArgs n args, native, command⟩

def downNamed (n : Nat) : NamedValue Expr → NamedValue Expr
  | ⟨word, wordSpan, value, span⟩ => ⟨word, wordSpan.down n, downOption n value, span.down n⟩

def downOption (n : Nat) : Option Expr → Option Expr
  | none => none
  | some e => some (e.down n)

def downArgs (n : Nat) : Option (List Expr) → Option (List Expr)
  | none => none
  | some es => some (downList n es)

def downList (n : Nat) : List Expr → List Expr
  | [] => []
  | e :: es => e.down n :: downList n es

def downRows (n : Nat) : List (List Expr) → List (List Expr)
  | [] => []
  | row :: rows => downList n row :: downRows n rows

end

attribute [local simp] downOption downArgs downList downRows

theorem downList_eq (n : Nat) (es : List Expr) : downList n es = es.map (down n) := by
  induction es with
  | nil => simp
  | cons e es ih => simp [ih]

theorem downRows_eq (n : Nat) (rows : List (List Expr)) :
    downRows n rows = rows.map (List.map (down n)) := by
  induction rows with
  | nil => simp
  | cons row rows ih => simp [downList_eq, ih]

theorem downOption_eq (n : Nat) (e : Option Expr) : downOption n e = e.map (down n) := by
  cases e <;> simp

theorem downArgs_eq (n : Nat) (es : Option (List Expr)) :
    downArgs n es = es.map (List.map (down n)) := by
  cases es <;> simp [downList_eq]

end Expr

def NameUse.down (n : Nat) (use : NameUse Expr) : NameUse Expr :=
  { use with span := use.span.down n, args := use.args.map (List.map (Expr.down n)) }

def NamedValue.down (n : Nat) (value : NamedValue Expr) : NamedValue Expr :=
  ⟨value.name, value.nameSpan.down n, value.value.map (Expr.down n), value.span.down n⟩

namespace Expr

attribute [local simp] down downUse downNamed

@[simp] theorem down_name (n : Nat) (use : NameUse Expr) : (name use).down n = name (use.down n) := by
  cases use
  simp [downArgs_eq, NameUse.down]

@[simp] theorem down_named (n : Nat) (value : NamedValue Expr) :
    (named value).down n = named (value.down n) := by
  cases value
  simp [downOption_eq, NamedValue.down]

@[simp] theorem down_matrix (n : Nat) (kind : MatrixKind) (rows : List (List Expr)) (span : Span) :
    (matrix kind rows span).down n = matrix kind (rows.map (List.map (down n))) (span.down n) := by
  simp [downRows_eq]

@[simp] theorem down_anonymous (n : Nat) (params : List String) (body : Option Expr) (span : Span) :
    (anonymous params body span).down n = anonymous params (body.map (down n)) (span.down n) := by
  simp [downOption_eq]

@[simp] theorem span_down (n : Nat) (e : Expr) : (e.down n).span = e.span.down n := by
  cases e with
  | name use => rw [down_name]; rfl
  | named value => rw [down_named]; rfl
  | _ => simp [Expr.span]

theorem elim_span_down (n : Nat) (e : Option Expr) (span : Span) :
    (e.map (down n)).elim (span.down n) Expr.span = (e.elim span Expr.span).down n := by
  cases e with
  | none => rfl
  | some e => exact span_down n e

mutual

theorem down_zero : (e : Expr) → e.down 0 = e
  | .name use => by rw [down, downUse_zero use]
  | .number _ _ | .string _ _ | .handle _ _ | .mark _ _ => by simp
  | .binary _ left right _ => by simp [down_zero left, down_zero right]
  | .prefixed _ operand _ => by simp [down_zero operand]
  | .transposed _ operand _ => by simp [down_zero operand]
  | .matrix _ rows _ => by simp [down, downRows_zero rows]
  | .anonymous _ body _ => by simp [down, downOption_zero body]
  | .named value => by rw [down, downNamed_zero value]

theorem downUse_zero : (use : NameUse Expr) → downUse 0 use = use
  | ⟨_, _, _, args, _, _⟩ => by simp [downArgs_zero args]

theorem downNamed_zero : (value : NamedValue Expr) → downNamed 0 value = value
  | ⟨_, _, value, _⟩ => by simp [downOption_zero value]

theorem downOption_zero : (e : Option Expr) → downOption 0 e = e
  | none => by rw [downOption]
  | some e => by rw [downOption, down_zero e]

theorem downArgs_zero : (es : Option (List Expr)) → downArgs 0 es = es
  | none => by rw [downArgs]
  | some es => by rw [downArgs, downList_zero es]

theorem downList_zero : (es : List Expr) → downList 0 es = es
  | [] => by rw [downList]
  | e :: es => by rw [downList, down_zero e, downList_zero es]

theorem downRows_zero : (rows : List (List Expr)) → downRows 0 rows = rows
  | [] => by rw [downRows]
  | row :: rows => by rw [downRows, downList_zero row, downRows_zero rows]

end

end Expr

/-! Nothing is changed by moving no lines down. -/

@[simp] theorem Expr.down_zero_eq_id : Expr.down 0 = id := funext Expr.down_zero

@[simp] theorem NameUse.down_zero (use : NameUse Expr) : use.down 0 = use := by
  simp [down]

@[simp] theorem NamedValue.down_zero (value : NamedValue Expr) : value.down 0 = value := by
  simp [down]

@[simp] theorem Variable.down_zero_eq_id : Variable.down 0 = id := funext Variable.down_zero

def Target.down (n : Nat) : Target → Target
  | .name use => .name (use.down n)
  | .ignored span => .ignored (span.down n)

@[simp] theorem Target.down_zero_eq_id : Target.down 0 = id := by
  funext target
  cases target <;> simp [down]

def Output.down (n : Nat) : Output → Output
  | .variable v => .variable (v.down n)
  | .ignored span => .ignored (span.down n)

@[simp] theorem Output.down_zero_eq_id : Output.down 0 = id := by
  funext output
  cases output <;> simp [down]

def Param.down (n : Nat) : Param → Param
  | .plain v => .plain (v.down n)
  | .optional value => .optional (value.down n)
  | .ignored span => .ignored (span.down n)

@[simp] theorem Param.down_zero_eq_id : Param.down 0 = id := by
  funext param
  cases param <;> simp [down]

def FunctionHeader.down (n : Nat) (header : FunctionHeader) : FunctionHeader :=
  ⟨header.name, header.nameSpan.down n, header.outputs.map (Output.down n),
    header.params.map (Param.down n)⟩

@[simp] theorem FunctionHeader.down_zero (header : FunctionHeader) : header.down 0 = header := by
  simp [down]

namespace Stmt

mutual

/-- The statement `n` lines further down, without the documentation of its functions. -/
def bareDown (n : Nat) : Stmt → Stmt
  | .assign target value span silent =>
    .assign (target.down n) (value.map (Expr.down n)) (span.down n) silent
  | .assignMany targets value span silent =>
    .assignMany (targets.map (Target.down n)) (value.map (Expr.down n)) (span.down n) silent
  | .call use silent => .call (use.down n) silent
  | .expr value silent => .expr (value.down n) silent
  | .function header body span _ closed =>
    .function (header.down n) (bareDownList n body) (span.down n) "" closed
  | .ifElse condition body clauses otherwise span =>
    .ifElse (condition.map (Expr.down n)) (bareDownList n body) (bareDownBranches n clauses)
      (bareDownOption n otherwise) (span.down n)
  | .forLoop loopVar iterable body span =>
    .forLoop (loopVar.map (Variable.down n)) (iterable.map (Expr.down n)) (bareDownList n body)
      (span.down n)
  | .whileLoop condition body span =>
    .whileLoop (condition.map (Expr.down n)) (bareDownList n body) (span.down n)
  | .doUntil body condition span =>
    .doUntil (bareDownList n body) (condition.map (Expr.down n)) (span.down n)
  | .switch subject cases otherwise span =>
    .switch (subject.map (Expr.down n)) (bareDownBranches n cases) (bareDownOption n otherwise)
      (span.down n)
  | .tryCatch body errorVar handler span =>
    .tryCatch (bareDownList n body) (errorVar.map (Variable.down n)) (bareDownList n handler)
      (span.down n)
  | .declare storage names span => .declare storage (names.map (Variable.down n)) (span.down n)
  | .jump word span => .jump word (span.down n)

def bareDownList (n : Nat) : List Stmt → List Stmt
  | [] => []
  | s :: ss => s.bareDown n :: bareDownList n ss

def bareDownOption (n : Nat) : Option (List Stmt) → Option (List Stmt)
  | none => none
  | some ss => some (bareDownList n ss)

def bareDownBranches (n : Nat) : List (Branch Stmt) → List (Branch Stmt)
  | [] => []
  | ⟨guard, body, span⟩ :: branches =>
    ⟨guard.map (Expr.down n), bareDownList n body, span.down n⟩ :: bareDownBranches n branches

end

theorem bareDownList_eq (n : Nat) (ss : List Stmt) : bareDownList n ss = ss.map (bareDown n) := by
  induction ss with
  | nil => simp [bareDownList]
  | cons s ss ih => simp [bareDownList, ih]

end Stmt

def Branch.bareDown (n : Nat) (b : Branch Stmt) : Branch Stmt :=
  ⟨b.guard.map (Expr.down n), b.body.map (Stmt.bareDown n), b.span.down n⟩

namespace Stmt

theorem bareDownOption_eq (n : Nat) (ss : Option (List Stmt)) :
    bareDownOption n ss = ss.map (List.map (bareDown n)) := by
  cases ss <;> simp [bareDownOption, bareDownList_eq]

theorem bareDownBranches_eq (n : Nat) (branches : List (Branch Stmt)) :
    bareDownBranches n branches = branches.map (Branch.bareDown n) := by
  induction branches with
  | nil => simp [bareDownBranches]
  | cons b branches ih => simp [bareDownBranches, bareDownList_eq, ih, Branch.bareDown]

end Stmt

end MatrixScript
