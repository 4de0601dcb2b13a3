import MatrixScript.Symbol.Collection
import MatrixScript.Syntax.Node
import MatrixScript.Token
import Mathlib.Tactic.Common

/-! Trees made of tokens: the names and literals of a tree are spelled and placed as tokens are. They stand
at one token, or at several tokens without a blank between them. -/
namespace MatrixScript

/-- The token is this name. -/
structure Token.Names (t : Token) (name : String) : Prop where
  isName : t.isName = true
  text_eq : t.text = name

/-- Some token is this name. -/
def NamedBy (ts : List Token) (name : String) : Prop :=
  ∃ t ∈ ts, t.Names name

/-- Some token is this name, and stands at the same place. -/
def Variable.StandsIn (ts : List Token) (v : Variable) : Prop :=
  ∃ t ∈ ts, t.Names v.name ∧ t.span = v.span

/-- The first name of a use is a token that stands where the use starts. Alone it is the whole use. -/
structure NameUse.StartsAt (use : NameUse Expr) (t : Token) : Prop where
  names : t.Names use.root
  start_eq : t.span.start = use.span.start
  span_eq : use.fields = [] → use.args = none → t.span = use.span

/-- A use of a name in an expression: its parts are tokens, and it is native if its first token is. -/
structure NameUse.Spelled (ts : List Token) (use : NameUse Expr) : Prop where
  root : ∃ t ∈ ts, use.StartsAt t ∧ use.native = (t.kind == .native)
  fields : ∀ field ∈ use.fields, NamedBy ts field
  command : use.command = false

namespace Expr

/-- What the node itself, without its parts, owes to the tokens. -/
def HeadSpelled (ts : List Token) : Expr → Prop
  | .name use => use.Spelled ts
  | .number text span => ⟨.number, text, span⟩ ∈ ts
  | .string text span => ⟨.string, text, span⟩ ∈ ts
  | .matrix _ rows _ => ∀ row ∈ rows, row ≠ []
  | .anonymous params _ _ => ∀ param ∈ params, NamedBy ts param
  | .handle function _ => function.StandsIn ts
  | .named value => Variable.StandsIn ts ⟨value.name, value.nameSpan⟩
  | _ => True

def Spelled (ts : List Token) (e : Expr) : Prop :=
  ∀ n ∈ e.nodes, ∃ x, n = .expr x ∧ x.HeadSpelled ts

end Expr

/-- The text of tokens without a blank between them, and the span that they take together. -/
inductive Stands (ts : List Token) : String → Span → Prop where
  | token {t : Token} (ht : t ∈ ts) : Stands ts t.text t.span
  | join {text : String} {span : Span} {t : Token} (h : Stands ts text span) (ht : t ∈ ts)
      (hstop : span.stop = t.span.start) : Stands ts (text ++ t.text) ⟨span.start, t.span.stop⟩

def Param.variable? : Param → Option Variable
  | .plain v => some v
  | .optional value => some ⟨value.name, value.nameSpan⟩
  | .ignored _ => none

/-- The variables and functions that a statement itself gives a name. -/
def Stmt.introduced : Stmt → List Variable
  | .function header _ _ _ _ =>
    header.outputs.filterMap Collection.outputVariable? ++
      (if header.name.isEmpty then [] else [⟨header.name, header.nameSpan⟩]) ++
      header.params.filterMap Param.variable?
  | .forLoop loopVar _ _ _ => loopVar.toList
  | .tryCatch _ errorVar _ _ => errorVar.toList
  | .declare _ names _ => names
  | _ => []

/-- The value of an assignment. -/
def Stmt.value? : Stmt → Option Expr
  | .assign _ value _ _ | .assignMany _ value _ _ => value
  | _ => none

/-- The statements behind the `otherwise` of a switch. -/
def Stmt.otherwise : Stmt → List Stmt
  | .switch _ _ body _ => body.getD []
  | _ => []

theorem Expr.mem_nodes (e : Expr) : .expr e ∈ e.nodes := by
  cases e with
  | anonymous params body span => cases body <;> simp [nodes]
  | _ => simp [nodes]

theorem Stmt.mem_nodes (st : Stmt) : .stmt st ∈ st.nodes := by
  cases st with
  | ifElse condition body clauses other span => cases other <;> simp [nodes]
  | switch subject cases other span => cases other <;> simp [nodes]
  | _ => simp [nodes]

theorem mem_exprNodes {n : Node} {es : List Expr} : n ∈ exprNodes es ↔ ∃ e ∈ es, n ∈ e.nodes := by
  induction es with
  | nil => simp [exprNodes]
  | cons e es ih => simp [exprNodes, ih]

theorem mem_rowNodes {n : Node} {rows : List (List Expr)} :
    n ∈ rowNodes rows ↔ ∃ row ∈ rows, ∃ e ∈ row, n ∈ e.nodes := by
  induction rows with
  | nil => simp [rowNodes]
  | cons row rows ih => simp [rowNodes, mem_exprNodes, ih]

theorem mem_useNodes {n : Node} {use : NameUse Expr} :
    n ∈ useNodes use ↔ ∃ args ∈ use.args, ∃ e ∈ args, n ∈ e.nodes := by
  obtain ⟨root, fields, span, args, native, command⟩ := use
  cases args <;> simp [useNodes, mem_exprNodes]

theorem mem_namedNodes {n : Node} {value : NamedValue Expr} :
    n ∈ namedNodes value ↔ ∃ e ∈ value.value, n ∈ e.nodes := by
  obtain ⟨name, nameSpan, value, span⟩ := value
  cases value <;> simp [namedNodes]

theorem mem_stmtNodes {n : Node} {ss : List Stmt} : n ∈ stmtNodes ss ↔ ∃ s ∈ ss, n ∈ s.nodes := by
  induction ss with
  | nil => simp [stmtNodes]
  | cons s ss ih => simp [stmtNodes, ih]

theorem mem_branchNodes {n : Node} {bs : List (Branch Stmt)} :
    n ∈ branchNodes bs ↔ ∃ b ∈ bs, n ∈ branchNodesOne b := by
  induction bs with
  | nil => simp [branchNodes]
  | cons b bs ih => simp [branchNodes, ih]

theorem exprNodes_append (es es' : List Expr) :
    exprNodes (es ++ es') = exprNodes es ++ exprNodes es' := by
  induction es with
  | nil => rfl
  | cons e es ih => simp [exprNodes, ih]

theorem stmtNodes_append (ss ss' : List Stmt) :
    stmtNodes (ss ++ ss') = stmtNodes ss ++ stmtNodes ss' := by
  induction ss with
  | nil => rfl
  | cons s ss ih => simp [stmtNodes, ih]

theorem stmtNodes_singleton (s : Stmt) : stmtNodes [s] = s.nodes :=
  List.append_nil _

theorem branchNodes_append (bs bs' : List (Branch Stmt)) :
    branchNodes (bs ++ bs') = branchNodes bs ++ branchNodes bs' := by
  induction bs with
  | nil => rfl
  | cons b bs ih => simp [branchNodes, ih]

theorem Stmt.nodes_ifElse (condition : Option Expr) (body : List Stmt) (clauses : List (Branch Stmt))
    (other : Option (List Stmt)) (span : Span) :
    (Stmt.ifElse condition body clauses other span).nodes =
      .stmt (.ifElse condition body clauses other span) :: (optionalNodes condition ++ stmtNodes body ++
        branchNodes clauses ++ stmtNodes (other.getD [])) := by
  cases other <;> simp [Stmt.nodes, stmtNodes]

theorem Stmt.nodes_switch (subject : Option Expr) (cases : List (Branch Stmt))
    (otherwise : Option (List Stmt)) (span : Span) :
    (Stmt.switch subject cases otherwise span).nodes =
      .stmt (.switch subject cases otherwise span) :: (optionalNodes subject ++ branchNodes cases ++
        stmtNodes (otherwise.getD [])) := by
  cases otherwise <;> simp [Stmt.nodes, stmtNodes]

theorem rowNodes_eq (rows : List (List Expr)) : rowNodes rows = exprNodes rows.flatten := by
  induction rows with
  | nil => rfl
  | cons row rows ih => rw [rowNodes, ih, List.flatten_cons, exprNodes_append]

theorem useNodes_eq (use : NameUse Expr) : useNodes use = exprNodes (use.args.getD []) := by
  obtain ⟨root, fields, span, args, native, command⟩ := use
  cases args <;> rfl

theorem namedNodes_eq (value : NamedValue Expr) : namedNodes value = optionalNodes value.value := by
  obtain ⟨name, nameSpan, value, span⟩ := value
  cases value <;> rfl

/-! No statements stand in expressions. -/

mutual

theorem Expr.stmt_not_mem_nodes (s : Stmt) : ∀ e : Expr, .stmt s ∉ e.nodes
  | .name use => by simp [Expr.nodes, stmt_not_mem_useNodes s use]
  | .binary op left right span => by
    simp [Expr.nodes, left.stmt_not_mem_nodes s, right.stmt_not_mem_nodes s]
  | .prefixed op operand span => by simp [Expr.nodes, operand.stmt_not_mem_nodes s]
  | .transposed op operand span => by simp [Expr.nodes, operand.stmt_not_mem_nodes s]
  | .matrix kind rows span => by simp [Expr.nodes, stmt_not_mem_rowNodes s rows]
  | .anonymous params none span => by simp [Expr.nodes]
  | .anonymous params (some body) span => by simp [Expr.nodes, body.stmt_not_mem_nodes s]
  | .named value => by simp [Expr.nodes, stmt_not_mem_namedNodes s value]
  | .number text span => by simp [Expr.nodes]
  | .string text span => by simp [Expr.nodes]
  | .handle function span => by simp [Expr.nodes]
  | .mark mark span => by simp [Expr.nodes]

theorem stmt_not_mem_useNodes (s : Stmt) : ∀ use : NameUse Expr, .stmt s ∉ useNodes use
  | ⟨_, _, _, none, _, _⟩ => by simp [useNodes]
  | ⟨_, _, _, some args, _, _⟩ => by simp [useNodes, stmt_not_mem_exprNodes s args]

theorem stmt_not_mem_namedNodes (s : Stmt) : ∀ value : NamedValue Expr, .stmt s ∉ namedNodes value
  | ⟨_, _, none, _⟩ => by simp [namedNodes]
  | ⟨_, _, some value, _⟩ => by simp [namedNodes, value.stmt_not_mem_nodes s]

theorem stmt_not_mem_exprNodes (s : Stmt) : ∀ es : List Expr, .stmt s ∉ exprNodes es
  | [] => by simp [exprNodes]
  | e :: es => by simp [exprNodes, e.stmt_not_mem_nodes s, stmt_not_mem_exprNodes s es]

theorem stmt_not_mem_rowNodes (s : Stmt) : ∀ rows : List (List Expr), .stmt s ∉ rowNodes rows
  | [] => by simp [rowNodes]
  | row :: rows => by
    simp [rowNodes, stmt_not_mem_exprNodes s row, stmt_not_mem_rowNodes s rows]

end

theorem stmt_not_mem_optionalNodes (s : Stmt) (e : Option Expr) : .stmt s ∉ optionalNodes e := by
  cases e with
  | none => exact List.not_mem_nil
  | some e => exact e.stmt_not_mem_nodes s

end MatrixScript
