import MatrixScript.Syntax.Tree

/-! All nodes of a tree in reading order: a node first, then its parts as they are listed in it. -/
namespace MatrixScript

inductive Node where
  | expr (e : Expr)
  | stmt (s : Stmt)
  | branch (b : Branch Stmt)
  | program (p : Program)

def Node.span : Node → Span
  | .expr e => e.span
  | .stmt s => s.span
  | .branch b => b.span
  | .program p => p.span

mutual

def Expr.nodes : Expr → List Node
  | .name use => .expr (.name use) :: useNodes use
  | .binary op left right span => .expr (.binary op left right span) :: left.nodes ++ right.nodes
  | .prefixed op operand span => .expr (.prefixed op operand span) :: operand.nodes
  | .transposed op operand span => .expr (.transposed op operand span) :: operand.nodes
  | .matrix kind rows span => .expr (.matrix kind rows span) :: rowNodes rows
  | .anonymous params none span => [.expr (.anonymous params none span)]
  | .anonymous params (some body) span => .expr (.anonymous params (some body) span) :: body.nodes
  | .named value => .expr (.named value) :: namedNodes value
  | .number text span => [.expr (.number text span)]
  | .string text span => [.expr (.string text span)]
  | .handle function span => [.expr (.handle function span)]
  | .mark mark span => [.expr (.mark mark span)]

def useNodes : NameUse Expr → List Node
  | ⟨_, _, _, none, _, _⟩ => []
  | ⟨_, _, _, some args, _, _⟩ => exprNodes args

def namedNodes : NamedValue Expr → List Node
  | ⟨_, _, none, _⟩ => []
  | ⟨_, _, some value, _⟩ => value.nodes

def exprNodes : List Expr → List Node
  | [] => []
  | e :: es => e.nodes ++ exprNodes es

def rowNodes : List (List Expr) → List Node
  | [] => []
  | row :: rows => exprNodes row ++ rowNodes rows

end

def optionalNodes (e : Option Expr) : List Node :=
  e.elim [] Expr.nodes

mutual

def Stmt.nodes : Stmt → List Node
  | .assign target value span silent =>
    .stmt (.assign target value span silent) :: (Expr.name target).nodes ++ optionalNodes value
  | .assignMany targets value span silent =>
    .stmt (.assignMany targets value span silent) ::
      exprNodes (targets.map Target.toExpr) ++ optionalNodes value
  | .call use silent => .stmt (.call use silent) :: (Expr.name use).nodes
  | .expr value silent => .stmt (.expr value silent) :: value.nodes
  | .function header body span documentation closed =>
    .stmt (.function header body span documentation closed) ::
      exprNodes (header.outputs.map Output.toExpr) ++
      exprNodes (header.params.map Param.toExpr) ++ stmtNodes body
  | .ifElse condition body clauses none span =>
    .stmt (.ifElse condition body clauses none span) ::
      optionalNodes condition ++ stmtNodes body ++ branchNodes clauses
  | .ifElse condition body clauses (some other) span =>
    .stmt (.ifElse condition body clauses (some other) span) ::
      optionalNodes condition ++ stmtNodes body ++ branchNodes clauses ++ stmtNodes other
  | .forLoop loopVar iterable body span =>
    .stmt (.forLoop loopVar iterable body span) ::
      exprNodes (loopVar.toList.map Variable.toExpr) ++ optionalNodes iterable ++ stmtNodes body
  | .whileLoop condition body span =>
    .stmt (.whileLoop condition body span) :: optionalNodes condition ++ stmtNodes body
  | .doUntil body condition span =>
    .stmt (.doUntil body condition span) :: stmtNodes body ++ optionalNodes condition
  | .switch subject cases none span =>
    .stmt (.switch subject cases none span) :: optionalNodes subject ++ branchNodes cases
  | .switch subject cases (some other) span =>
    .stmt (.switch subject cases (some other) span) ::
      optionalNodes subject ++ branchNodes cases ++ stmtNodes other
  | .tryCatch body errorVar handler span =>
    .stmt (.tryCatch body errorVar handler span) ::
      stmtNodes body ++ exprNodes (errorVar.toList.map Variable.toExpr) ++ stmtNodes handler
  | .declare storage names span =>
    .stmt (.declare storage names span) :: exprNodes (names.map Variable.toExpr)
  | .jump jump span => [.stmt (.jump jump span)]

def stmtNodes : List Stmt → List Node
  | [] => []
  | s :: ss => s.nodes ++ stmtNodes ss

def branchNodes : List (Branch Stmt) → List Node
  | [] => []
  | b :: bs => branchNodesOne b ++ branchNodes bs

def branchNodesOne : Branch Stmt → List Node
  | ⟨guard, body, span⟩ => .branch ⟨guard, body, span⟩ :: optionalNodes guard ++ stmtNodes body

end

def Program.nodes (p : Program) : List Node :=
  .program p :: stmtNodes p.body

end MatrixScript
