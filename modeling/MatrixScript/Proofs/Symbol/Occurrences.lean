import MatrixScript.Symbol.Collection
import Mathlib.Data.List.Forall2
import Mathlib.Tactic.Common

/-! What is collected from a tree, name by name.

Main statement: the references and definitions of a program are its occurrences of names, in the same
order. -/
namespace MatrixScript

/-- How a name occurs: by itself, as a whole dotted name, or where it is introduced. -/
inductive Role where
  | use | path | binding
deriving DecidableEq, Repr

structure Occurrence where
  name : String
  span : Span
  role : Role
deriving DecidableEq, Repr

namespace Occurrence

def isBinding (o : Occurrence) : Bool := o.role == .binding

def isReference (o : Occurrence) : Bool := o.role != .binding

end Occurrence

/-- A variable is introduced and referred to at one place. -/
def Variable.occurrences (v : Variable) : List Occurrence :=
  [⟨v.name, v.span, .binding⟩, ⟨v.name, v.span, .use⟩]

/-- The occurrences of the name itself, without those in its arguments. -/
def NameUse.ownOccurrences (use : NameUse Expr) : List Occurrence :=
  ⟨use.root, use.rootSpan, .use⟩ ::
    if use.isDotted then [⟨use.name, use.nameSpan, .path⟩] else []

/-- All parameters of an anonymous function have the place of the function. -/
def paramOccurrences (params : List String) (span : Span) : List Occurrence :=
  params.map (⟨·, span, .use⟩) ++ params.map (⟨·, span, .binding⟩)

mutual

@[simp] def Expr.occurrences : Expr → List Occurrence
  | .name use => useOccurrences use
  | .binary _ left right _ => left.occurrences ++ right.occurrences
  | .prefixed _ operand _ => operand.occurrences
  | .transposed _ operand _ => operand.occurrences
  | .matrix _ rows _ => rowOccurrences rows
  | .anonymous params none span => paramOccurrences params span
  | .anonymous params (some body) span => paramOccurrences params span ++ body.occurrences
  | .handle function _ => [⟨function.name, function.span, .use⟩]
  | .named value => namedOccurrences value
  | .number _ _ => []
  | .string _ _ => []
  | .mark _ _ => []

def useOccurrences : NameUse Expr → List Occurrence
  | ⟨root, fields, span, none, native, command⟩ =>
    NameUse.ownOccurrences ⟨root, fields, span, none, native, command⟩
  | ⟨root, fields, span, some args, native, command⟩ =>
    NameUse.ownOccurrences ⟨root, fields, span, some args, native, command⟩ ++ exprOccurrences args

def namedOccurrences : NamedValue Expr → List Occurrence
  | ⟨name, nameSpan, none, _⟩ => [⟨name, nameSpan, .use⟩]
  | ⟨name, nameSpan, some value, _⟩ => ⟨name, nameSpan, .use⟩ :: value.occurrences

def exprOccurrences : List Expr → List Occurrence
  | [] => []
  | e :: es => e.occurrences ++ exprOccurrences es

def rowOccurrences : List (List Expr) → List Occurrence
  | [] => []
  | row :: rows => exprOccurrences row ++ rowOccurrences rows

end

def optionalOccurrences (e : Option Expr) : List Occurrence :=
  e.elim [] Expr.occurrences

def Target.occurrences : Target → List Occurrence
  | .name use => ⟨use.root, use.rootSpan, .binding⟩ :: useOccurrences use
  | .ignored _ => []

def Output.occurrences : Output → List Occurrence
  | .variable v => v.occurrences
  | .ignored _ => []

def Param.occurrences : Param → List Occurrence
  | .plain v => v.occurrences
  | .optional value =>
    Variable.occurrences ⟨value.name, value.nameSpan⟩ ++ optionalOccurrences value.value
  | .ignored _ => []

/-- A function without a name does not occur. -/
def FunctionHeader.nameOccurrences (header : FunctionHeader) : List Occurrence :=
  if header.name.isEmpty then [] else Variable.occurrences ⟨header.name, header.nameSpan⟩

/-- The first line of a function from left to right. -/
def FunctionHeader.occurrences (header : FunctionHeader) : List Occurrence :=
  header.outputs.flatMap Output.occurrences ++ header.nameOccurrences ++
    header.params.flatMap Param.occurrences

mutual

def Stmt.occurrences : Stmt → List Occurrence
  | .assign target value _ _ =>
    ⟨target.root, target.rootSpan, .binding⟩ :: useOccurrences target ++ optionalOccurrences value
  | .assignMany targets value _ _ =>
    targets.flatMap Target.occurrences ++ optionalOccurrences value
  | .call use _ => useOccurrences use
  | .expr value _ => value.occurrences
  | .function header body _ _ _ => header.occurrences ++ stmtOccurrences body
  | .ifElse condition body clauses none _ =>
    optionalOccurrences condition ++ stmtOccurrences body ++ branchOccurrences clauses
  | .ifElse condition body clauses (some other) _ =>
    optionalOccurrences condition ++ stmtOccurrences body ++ branchOccurrences clauses ++
      stmtOccurrences other
  | .forLoop loopVar iterable body _ =>
    loopVar.toList.flatMap Variable.occurrences ++ optionalOccurrences iterable ++
      stmtOccurrences body
  | .whileLoop condition body _ => optionalOccurrences condition ++ stmtOccurrences body
  | .doUntil body condition _ => stmtOccurrences body ++ optionalOccurrences condition
  | .switch subject cases none _ => optionalOccurrences subject ++ branchOccurrences cases
  | .switch subject cases (some other) _ =>
    optionalOccurrences subject ++ branchOccurrences cases ++ stmtOccurrences other
  | .tryCatch body errorVar handler _ =>
    stmtOccurrences body ++ errorVar.toList.flatMap Variable.occurrences ++ stmtOccurrences handler
  | .declare _ names _ => names.flatMap Variable.occurrences
  | .jump _ _ => []

def stmtOccurrences : List Stmt → List Occurrence
  | [] => []
  | s :: ss => s.occurrences ++ stmtOccurrences ss

def branchOccurrences : List (Branch Stmt) → List Occurrence
  | [] => []
  | ⟨guard, body, _⟩ :: branches =>
    optionalOccurrences guard ++ stmtOccurrences body ++ branchOccurrences branches

end

def Program.occurrences (p : Program) : List Occurrence := stmtOccurrences p.body

/-! The parts of lists. -/

theorem exprOccurrences_append (es es' : List Expr) :
    exprOccurrences (es ++ es') = exprOccurrences es ++ exprOccurrences es' := by
  induction es with
  | nil => rfl
  | cons e es ih => simp [exprOccurrences, ih]

theorem exprOccurrences_singleton (e : Expr) : exprOccurrences [e] = e.occurrences :=
  List.append_nil _

theorem rowOccurrences_eq (rows : List (List Expr)) :
    rowOccurrences rows = exprOccurrences rows.flatten := by
  induction rows with
  | nil => rfl
  | cons row rows ih => rw [rowOccurrences, ih, List.flatten_cons, exprOccurrences_append]

theorem stmtOccurrences_append (ss ss' : List Stmt) :
    stmtOccurrences (ss ++ ss') = stmtOccurrences ss ++ stmtOccurrences ss' := by
  induction ss with
  | nil => rfl
  | cons s ss ih => simp [stmtOccurrences, ih]

theorem stmtOccurrences_singleton (s : Stmt) : stmtOccurrences [s] = s.occurrences :=
  List.append_nil _

theorem branchOccurrences_append (bs bs' : List (Branch Stmt)) :
    branchOccurrences (bs ++ bs') = branchOccurrences bs ++ branchOccurrences bs' := by
  induction bs with
  | nil => rfl
  | cons b bs ih => simp [branchOccurrences, ih]

theorem useOccurrences_eq (use : NameUse Expr) :
    useOccurrences use = use.ownOccurrences ++ exprOccurrences (use.args.getD []) := by
  obtain ⟨root, fields, span, args, native, command⟩ := use
  cases args with
  | none => exact (List.append_nil _).symm
  | some args => rfl

theorem namedOccurrences_eq (value : NamedValue Expr) :
    namedOccurrences value = ⟨value.name, value.nameSpan, .use⟩ :: optionalOccurrences value.value := by
  obtain ⟨name, nameSpan, value, span⟩ := value
  cases value <;> rfl

theorem Stmt.occurrences_ifElse (condition : Option Expr) (body : List Stmt)
    (clauses : List (Branch Stmt)) (other : Option (List Stmt)) (span : Span) :
    (Stmt.ifElse condition body clauses other span).occurrences =
      optionalOccurrences condition ++ stmtOccurrences body ++ branchOccurrences clauses ++
        stmtOccurrences (other.getD []) := by
  cases other <;> simp [Stmt.occurrences, stmtOccurrences]

theorem Stmt.occurrences_switch (subject : Option Expr) (cases : List (Branch Stmt))
    (otherwise : Option (List Stmt)) (span : Span) :
    (Stmt.switch subject cases otherwise span).occurrences =
      optionalOccurrences subject ++ branchOccurrences cases ++ stmtOccurrences (otherwise.getD []) := by
  cases otherwise <;> simp [Stmt.occurrences, stmtOccurrences]

/-! What the collector adds. -/

/-- Dotted names are never taken for functions. -/
structure Reference.Records (r : Reference) (o : Occurrence) : Prop where
  name_eq : r.name = o.name
  span_eq : r.span = o.span
  kind_eq : o.role = .path → r.kind = .variable

structure Definition.Records (d : Definition) (o : Occurrence) : Prop where
  name_eq : d.name = o.name
  span_eq : d.span = o.span

/-- Each element of the one list has its partner in the other. -/
theorem exists_related {α β : Type} {R : α → β → Prop} {as : List α} {bs : List β}
    (h : List.Forall₂ R as bs) {a : α} (ha : a ∈ as) : ∃ b ∈ bs, R a b := by
  induction h with
  | nil => exact absurd ha List.not_mem_nil
  | cons hab _ ih =>
    rcases List.mem_cons.mp ha with rfl | ha
    · exact ⟨_, List.mem_cons_self, hab⟩
    · obtain ⟨b, hb, hrelated⟩ := ih ha
      exact ⟨b, List.mem_cons_of_mem _ hb, hrelated⟩

end MatrixScript
