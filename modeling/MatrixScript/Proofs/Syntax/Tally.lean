import MatrixScript.Proofs.Syntax.Spelled
import Mathlib.Algebra.Group.Prod
import Mathlib.Algebra.GroupWithZero.Nat
import Mathlib.Algebra.Order.Group.Multiset

/-! Counting the assignments that show their value, and the parts behind `otherwise`. -/
namespace MatrixScript

/-- The place of an assignment that shows its value. -/
def Node.shown? : Node → Option Span
  | .stmt (.assign _ _ span false) => some span
  | .stmt (.assignMany _ _ span false) => some span
  | _ => none

/-- A switch with a part behind `otherwise`. -/
def Node.hasOtherwise : Node → Bool
  | .stmt (.switch _ _ (some _) _) => true
  | _ => false

/-- The places of assignments that show their value, and the number of parts behind `otherwise`. -/
abbrev Tally := Multiset Span × Nat

def tally (ns : List Node) : Tally := (ns.filterMap Node.shown?, ns.countP Node.hasOtherwise)

namespace Tally

def assignment (span : Span) (silent : Bool) : Tally := if silent then 0 else ({span}, 0)

/-- A part behind `otherwise`, if there is one. -/
def otherwise (body : Option (List Stmt)) : Tally := body.elim 0 fun body => tally (stmtNodes body) + (0, 1)

/-- Parts behind `otherwise` that the tree does not have. -/
def dropped (bodies : List (List Stmt)) : Tally := (bodies.map fun body => otherwise (some body)).sum

end Tally

variable {ns ns' : List Node}

@[simp] theorem tally_append : tally (ns ++ ns') = tally ns + tally ns' := by
  simp [tally, ← Multiset.coe_add]

theorem tally_cons (n : Node) : tally (n :: ns) = tally [n] + tally ns := by
  rw [← List.singleton_append, tally_append]

theorem tally_eq_zero (h : ∀ n ∈ ns, n.shown? = none ∧ n.hasOtherwise = false) : tally ns = 0 := by
  have hshown : ns.filterMap Node.shown? = [] := List.filterMap_eq_nil_iff.mpr fun n hn => (h n hn).1
  have hother : ns.countP Node.hasOtherwise = 0 := List.countP_eq_zero.mpr fun n hn => by simp [(h n hn).2]
  rw [tally, hshown, hother]
  rfl

/-- Only statements count. -/
theorem tally_of_stmt_not_mem (h : ∀ st, .stmt st ∉ ns) : tally ns = 0 := by
  refine tally_eq_zero fun n hn => ?_
  cases n with
  | stmt st => exact absurd hn (h st)
  | _ => exact ⟨rfl, rfl⟩

@[simp] theorem tally_expr (e : Expr) : tally e.nodes = 0 :=
  tally_of_stmt_not_mem fun st => e.stmt_not_mem_nodes st

@[simp] theorem tally_exprs (es : List Expr) : tally (exprNodes es) = 0 :=
  tally_of_stmt_not_mem fun st => stmt_not_mem_exprNodes st es

@[simp] theorem tally_optional (e : Option Expr) : tally (optionalNodes e) = 0 :=
  tally_of_stmt_not_mem fun st => stmt_not_mem_optionalNodes st e

/-- A node that does not count itself. -/
theorem tally_inner {n : Node} (h : n.shown? = none ∧ n.hasOtherwise = false) : tally (n :: ns) = tally ns := by
  rw [tally_cons, tally_eq_zero (List.forall_mem_singleton.mpr h), zero_add]

/-! What the parts of statements count. -/

theorem tally_assign (target : NameUse Expr) (value : Option Expr) (span : Span) (silent : Bool) :
    tally (Stmt.assign target value span silent).nodes = .assignment span silent := by
  rw [Stmt.nodes, List.cons_append, tally_cons, tally_append, tally_expr, tally_optional, add_zero, add_zero]
  cases silent <;> rfl

theorem tally_assignMany (targets : List Target) (value : Option Expr) (span : Span) (silent : Bool) :
    tally (Stmt.assignMany targets value span silent).nodes = .assignment span silent := by
  rw [Stmt.nodes, List.cons_append, tally_cons, tally_append, tally_exprs, tally_optional, add_zero, add_zero]
  cases silent <;> rfl

theorem tally_call (use : NameUse Expr) (silent : Bool) : tally (Stmt.call use silent).nodes = 0 := by
  rw [Stmt.nodes, tally_inner ⟨rfl, rfl⟩, tally_expr]

theorem tally_expression (value : Expr) (silent : Bool) : tally (Stmt.expr value silent).nodes = 0 := by
  rw [Stmt.nodes, tally_inner ⟨rfl, rfl⟩, tally_expr]

theorem tally_function (header : FunctionHeader) (body : List Stmt) (span : Span) (documentation : String)
    (closed : Bool) :
    tally (Stmt.function header body span documentation closed).nodes = tally (stmtNodes body) := by
  rw [Stmt.nodes, List.cons_append, List.cons_append, tally_inner ⟨rfl, rfl⟩]
  simp

theorem tally_ifElse (condition : Option Expr) (body : List Stmt) (clauses : List (Branch Stmt))
    (other : Option (List Stmt)) (span : Span) : tally (Stmt.ifElse condition body clauses other span).nodes =
      tally (stmtNodes body) + tally (branchNodes clauses) + tally (stmtNodes (other.getD [])) := by
  rw [Stmt.nodes_ifElse, tally_inner ⟨rfl, rfl⟩]
  simp [add_assoc]

theorem tally_forLoop (loopVar : Option Variable) (iterable : Option Expr) (body : List Stmt) (span : Span) :
    tally (Stmt.forLoop loopVar iterable body span).nodes = tally (stmtNodes body) := by
  rw [Stmt.nodes, List.cons_append, List.cons_append, tally_inner ⟨rfl, rfl⟩]
  simp

theorem tally_whileLoop (condition : Option Expr) (body : List Stmt) (span : Span) :
    tally (Stmt.whileLoop condition body span).nodes = tally (stmtNodes body) := by
  rw [Stmt.nodes, List.cons_append, tally_inner ⟨rfl, rfl⟩]
  simp

theorem tally_doUntil (body : List Stmt) (condition : Option Expr) (span : Span) :
    tally (Stmt.doUntil body condition span).nodes = tally (stmtNodes body) := by
  rw [Stmt.nodes, List.cons_append, tally_inner ⟨rfl, rfl⟩]
  simp

theorem tally_switch (subject : Option Expr) (cases : List (Branch Stmt)) (body : Option (List Stmt))
    (span : Span) : tally (Stmt.switch subject cases body span).nodes =
      tally (branchNodes cases) + .otherwise body := by
  rw [Stmt.nodes_switch]
  cases body with
  | none =>
    rw [tally_inner ⟨rfl, rfl⟩]
    simp [Tally.otherwise, stmtNodes]
  | some body =>
    rw [tally_cons, tally_append, tally_append, tally_optional, zero_add, Option.getD_some, add_comm, add_assoc]
    rfl

theorem tally_tryCatch (body : List Stmt) (errorVar : Option Variable) (handler : List Stmt) (span : Span) :
    tally (Stmt.tryCatch body errorVar handler span).nodes =
      tally (stmtNodes body) + tally (stmtNodes handler) := by
  rw [Stmt.nodes, List.cons_append, List.cons_append, tally_inner ⟨rfl, rfl⟩]
  simp

theorem tally_declare (storage : Storage) (names : List Variable) (span : Span) :
    tally (Stmt.declare storage names span).nodes = 0 := by
  rw [Stmt.nodes, tally_inner ⟨rfl, rfl⟩, tally_exprs]

theorem tally_jump (jump : Jump) (span : Span) : tally (Stmt.jump jump span).nodes = 0 := by
  rw [Stmt.nodes]
  rfl

/-! Statements and branches are collected in reverse order. -/

theorem tally_branches_reverse (b : Branch Stmt) (bs : List (Branch Stmt)) :
    tally (branchNodes (b :: bs).reverse) = tally (branchNodes bs.reverse) + tally (stmtNodes b.body) := by
  have hbranch : tally (branchNodes [b]) = tally (stmtNodes b.body) := by
    rw [branchNodes, branchNodesOne, branchNodes, List.append_nil, List.cons_append, tally_inner ⟨rfl, rfl⟩]
    simp
  rw [List.reverse_cons, branchNodes_append, tally_append, hbranch]

end MatrixScript
