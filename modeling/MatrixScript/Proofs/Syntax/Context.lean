import MatrixScript.Proofs.Syntax.Extent

/-! Places in a tree where statements can stand.

Main statement: every statement of a tree stands at such a place, also inside the parts of other
statements. -/
namespace MatrixScript

/-- A statement with a hole in the place of one of the blocks inside it. -/
inductive Frame where
  | function (header : FunctionHeader) (span : Span) (documentation : String) (closed : Bool)
  | ifBody (condition : Option Expr) (clauses : List (Branch Stmt)) (other : Option (List Stmt))
      (span : Span)
  | ifClause (condition : Option Expr) (body : List Stmt) (front : List (Branch Stmt))
      (guard : Option Expr) (clauseSpan : Span) (back : List (Branch Stmt))
      (other : Option (List Stmt)) (span : Span)
  | ifOther (condition : Option Expr) (body : List Stmt) (clauses : List (Branch Stmt)) (span : Span)
  | forLoop (loopVar : Option Variable) (iterable : Option Expr) (span : Span)
  | whileLoop (condition : Option Expr) (span : Span)
  | doUntil (condition : Option Expr) (span : Span)
  | caseBody (subject : Option Expr) (front : List (Branch Stmt)) (guard : Option Expr)
      (caseSpan : Span) (back : List (Branch Stmt)) (otherwise : Option (List Stmt)) (span : Span)
  | otherwiseBody (subject : Option Expr) (cases : List (Branch Stmt)) (span : Span)
  | tryBody (errorVar : Option Variable) (handler : List Stmt) (span : Span)
  | handlerBody (body : List Stmt) (errorVar : Option Variable) (span : Span)

namespace Frame

def fill : Frame → List Stmt → Stmt
  | .function header span documentation closed, block =>
    .function header block span documentation closed
  | .ifBody condition clauses other span, block => .ifElse condition block clauses other span
  | .ifClause condition body front guard clauseSpan back other span, block =>
    .ifElse condition body (front ++ ⟨guard, block, clauseSpan⟩ :: back) other span
  | .ifOther condition body clauses span, block => .ifElse condition body clauses (some block) span
  | .forLoop loopVar iterable span, block => .forLoop loopVar iterable block span
  | .whileLoop condition span, block => .whileLoop condition block span
  | .doUntil condition span, block => .doUntil block condition span
  | .caseBody subject front guard caseSpan back otherwise span, block =>
    .switch subject (front ++ ⟨guard, block, caseSpan⟩ :: back) otherwise span
  | .otherwiseBody subject cases span, block => .switch subject cases (some block) span
  | .tryBody errorVar handler span, block => .tryCatch block errorVar handler span
  | .handlerBody body errorVar span, block => .tryCatch body errorVar block span

/-- Only functions have a scope of their own. -/
def path : Frame → List ScopeName
  | .function header _ _ _ => [.function header.name]
  | _ => []

end Frame

/-- A place between the statements of a block, or of a block inside one of its statements. -/
inductive Context where
  | block (before after : List Stmt)
  | inside (before : List Stmt) (frame : Frame) (inner : Context) (after : List Stmt)

namespace Context

/-- The block with more statements at this place. -/
def fill : Context → List Stmt → List Stmt
  | .block before after, ss => before ++ ss ++ after
  | .inside before frame inner after, ss => before ++ frame.fill (inner.fill ss) :: after

/-- The names of the scopes around the place, outermost first. -/
def path : Context → List ScopeName
  | .block _ _ => []
  | .inside _ frame inner _ => frame.path ++ inner.path

end Context

mutual

theorem Stmt.exists_frame {s : Stmt} : ∀ t : Stmt, .stmt s ∈ t.nodes →
    t = s ∨ ∃ (frame : Frame) (ctx : Context), t = frame.fill (ctx.fill [s])
  | .assign target value span silent, h => by
    simp [Stmt.nodes, Expr.stmt_not_mem_nodes, stmt_not_mem_optionalNodes] at h
    exact .inl h.symm
  | .assignMany targets value span silent, h => by
    simp [Stmt.nodes, stmt_not_mem_exprNodes, stmt_not_mem_optionalNodes] at h
    exact .inl h.symm
  | .call use silent, h => by
    simp [Stmt.nodes, Expr.stmt_not_mem_nodes] at h
    exact .inl h.symm
  | .expr value silent, h => by
    simp [Stmt.nodes, Expr.stmt_not_mem_nodes] at h
    exact .inl h.symm
  | .function header body span documentation closed, h => by
    simp only [Stmt.nodes, List.cons_append, List.mem_cons, List.mem_append, Node.stmt.injEq,
      stmt_not_mem_exprNodes, false_or] at h
    obtain h | h := h
    · exact .inl h.symm
    · obtain ⟨ctx, rfl⟩ := exists_context body h
      exact .inr ⟨.function header span documentation closed, ctx, rfl⟩
  | .ifElse condition body clauses other span, h => by
    simp only [Stmt.nodes_ifElse, List.mem_cons, List.mem_append, Node.stmt.injEq,
      stmt_not_mem_optionalNodes, false_or] at h
    obtain h | (h | h) | h := h
    · exact .inl h.symm
    · obtain ⟨ctx, rfl⟩ := exists_context body h
      exact .inr ⟨.ifBody condition clauses other span, ctx, rfl⟩
    · obtain ⟨front, guard, clauseSpan, back, ctx, rfl⟩ := exists_branch_context clauses h
      exact .inr ⟨.ifClause condition body front guard clauseSpan back other span, ctx, rfl⟩
    · cases other with
      | none => exact absurd h List.not_mem_nil
      | some other =>
        obtain ⟨ctx, rfl⟩ := exists_context other h
        exact .inr ⟨.ifOther condition body clauses span, ctx, rfl⟩
  | .forLoop loopVar iterable body span, h => by
    simp only [Stmt.nodes, List.cons_append, List.mem_cons, List.mem_append, Node.stmt.injEq,
      stmt_not_mem_exprNodes, stmt_not_mem_optionalNodes, false_or] at h
    obtain h | h := h
    · exact .inl h.symm
    · obtain ⟨ctx, rfl⟩ := exists_context body h
      exact .inr ⟨.forLoop loopVar iterable span, ctx, rfl⟩
  | .whileLoop condition body span, h => by
    simp only [Stmt.nodes, List.cons_append, List.mem_cons, List.mem_append, Node.stmt.injEq,
      stmt_not_mem_optionalNodes, false_or] at h
    obtain h | h := h
    · exact .inl h.symm
    · obtain ⟨ctx, rfl⟩ := exists_context body h
      exact .inr ⟨.whileLoop condition span, ctx, rfl⟩
  | .doUntil body condition span, h => by
    simp only [Stmt.nodes, List.cons_append, List.mem_cons, List.mem_append, Node.stmt.injEq,
      stmt_not_mem_optionalNodes, or_false] at h
    obtain h | h := h
    · exact .inl h.symm
    · obtain ⟨ctx, rfl⟩ := exists_context body h
      exact .inr ⟨.doUntil condition span, ctx, rfl⟩
  | .switch subject cases otherwise span, h => by
    simp only [Stmt.nodes_switch, List.mem_cons, List.mem_append, Node.stmt.injEq,
      stmt_not_mem_optionalNodes, false_or] at h
    obtain h | h | h := h
    · exact .inl h.symm
    · obtain ⟨front, guard, caseSpan, back, ctx, rfl⟩ := exists_branch_context cases h
      exact .inr ⟨.caseBody subject front guard caseSpan back otherwise span, ctx, rfl⟩
    · cases otherwise with
      | none => exact absurd h List.not_mem_nil
      | some other =>
        obtain ⟨ctx, rfl⟩ := exists_context other h
        exact .inr ⟨.otherwiseBody subject cases span, ctx, rfl⟩
  | .tryCatch body errorVar handler span, h => by
    simp only [Stmt.nodes, List.cons_append, List.mem_cons, List.mem_append, Node.stmt.injEq,
      stmt_not_mem_exprNodes, or_false] at h
    obtain h | h | h := h
    · exact .inl h.symm
    · obtain ⟨ctx, rfl⟩ := exists_context body h
      exact .inr ⟨.tryBody errorVar handler span, ctx, rfl⟩
    · obtain ⟨ctx, rfl⟩ := exists_context handler h
      exact .inr ⟨.handlerBody body errorVar span, ctx, rfl⟩
  | .declare storage names span, h => by
    simp [Stmt.nodes, stmt_not_mem_exprNodes] at h
    exact .inl h.symm
  | .jump jump span, h => by
    simp [Stmt.nodes] at h
    exact .inl h.symm

/-- Every statement of a block, also of the blocks inside it, stands at a place of the block. -/
theorem exists_context {s : Stmt} :
    ∀ ss : List Stmt, .stmt s ∈ stmtNodes ss → ∃ ctx : Context, ss = ctx.fill [s]
  | [], h => absurd h List.not_mem_nil
  | t :: ss, h => by
    rw [stmtNodes, List.mem_append] at h
    obtain h | h := h
    · obtain rfl | ⟨frame, ctx, rfl⟩ := Stmt.exists_frame t h
      · exact ⟨.block [] ss, rfl⟩
      · exact ⟨.inside [] frame ctx ss, rfl⟩
    · obtain ⟨ctx, rfl⟩ := exists_context ss h
      cases ctx with
      | block before after => exact ⟨.block (t :: before) after, rfl⟩
      | inside before frame inner after => exact ⟨.inside (t :: before) frame inner after, rfl⟩

theorem exists_branch_context {s : Stmt} :
    ∀ bs : List (Branch Stmt), .stmt s ∈ branchNodes bs → ∃ front guard span back,
      ∃ ctx : Context, bs = front ++ ⟨guard, ctx.fill [s], span⟩ :: back
  | [], h => absurd h List.not_mem_nil
  | ⟨guard, body, span⟩ :: bs, h => by
    simp only [branchNodes, branchNodesOne, List.cons_append, List.mem_cons, List.mem_append,
      stmt_not_mem_optionalNodes, false_or, reduceCtorEq] at h
    obtain h | h := h
    · obtain ⟨ctx, rfl⟩ := exists_context body h
      exact ⟨[], guard, span, bs, ctx, rfl⟩
    · obtain ⟨front, guard', span', back, ctx, rfl⟩ := exists_branch_context bs h
      exact ⟨⟨guard, body, span⟩ :: front, guard', span', back, ctx, rfl⟩

end

end MatrixScript
