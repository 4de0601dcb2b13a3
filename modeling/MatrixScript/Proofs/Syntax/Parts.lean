import MatrixScript.Parser.Statement
import MatrixScript.Proofs.Parser.Code
import MatrixScript.Proofs.Position
import MatrixScript.Proofs.Syntax.Spelled

/-! The parts of a node, and whether its span encloses them. -/
namespace MatrixScript

/-- A span that does not end before it starts, with both ends among the places `B`. -/
structure Span.Valid (B : Position → Prop) (span : Span) : Prop where
  start_le : span.start ≤ span.stop
  start : B span.start
  stop : B span.stop

structure Span.Between (B : Position → Prop) (lo hi : Position) (span : Span) : Prop
    extends span.Valid B where
  lo_le : lo ≤ span.start
  le_hi : span.stop ≤ hi

def Span.Encloses (span inner : Span) : Prop :=
  span.start ≤ inner.start ∧ inner.stop ≤ span.stop

/-- One of the spans ends before the other. -/
def Span.Apart (span other : Span) : Prop :=
  span.stop ≤ other.start ∨ other.stop ≤ span.start

namespace Span.Between

variable {B : Position → Prop} {lo mid hi lo' hi' : Position} {span next : Span}

theorem mono (h : span.Between B lo hi) (hlo : lo' ≤ lo) (hhi : hi ≤ hi') :
    span.Between B lo' hi' :=
  ⟨h.toValid, Position.le_trans hlo h.lo_le, Position.le_trans h.le_hi hhi⟩

theorem le (h : span.Between B lo hi) : lo ≤ hi :=
  Position.le_trans h.lo_le (Position.le_trans h.start_le h.le_hi)

/-- From the start of a span to the end of one behind it. -/
theorem join (h : span.Between B lo mid) (h' : next.Between B mid hi) :
    Span.Between B lo hi ⟨span.start, next.stop⟩ where
  start_le := Position.le_trans h.start_le (Position.le_trans h.le_hi (Position.le_trans h'.lo_le h'.start_le))
  start := h.start
  stop := h'.stop
  lo_le := h.lo_le
  le_hi := h'.le_hi

end Span.Between

/-- A token of the code ends at the place. -/
def Code.Ends (code : Code) (p : Position) : Prop := ∃ t ∈ code.tokens, t.span.stop = p

/-- A span between two places that ends with a token. -/
structure Span.Ended (B : Position → Prop) (code : Code) (lo hi : Position) (span : Span) : Prop
    extends span.Between B lo hi where
  ends : code.Ends span.stop

/-- A span from a place on that ends with the last token before another. -/
structure Span.Whole (B : Position → Prop) (code : Code) (lo hi : Position) (span : Span) : Prop
    extends span.Ended B code lo hi where
  start_eq : span.start = lo
  covers : ∀ p, code.Ends p → p ≤ hi → p ≤ span.stop

namespace Span.Ended

variable {B : Position → Prop} {code : Code} {lo mid hi lo' hi' : Position} {span next : Span}

theorem mono (h : span.Ended B code lo hi) (hlo : lo' ≤ lo) (hhi : hi ≤ hi') : span.Ended B code lo' hi' :=
  ⟨h.toBetween.mono hlo hhi, h.ends⟩

theorem join (h : span.Between B lo mid) (h' : next.Ended B code mid hi) :
    Span.Ended B code lo hi ⟨span.start, next.stop⟩ :=
  ⟨h.join h'.toBetween, h'.ends⟩

theorem merge (h : span.Between B lo mid) (h' : next.Ended B code mid hi) :
    (span.merge next).Ended B code lo hi := by
  rw [Span.merge_of_le]
  · exact join h h'
  · exact Position.le_trans h.start_le (Position.le_trans h.le_hi h'.lo_le)
  · exact Position.le_trans h.le_hi (Position.le_trans h'.lo_le h'.start_le)

/-- What ends where the span does, and is empty. -/
theorem atStop (h : span.Ended B code lo hi) : Span.Ended B code span.stop hi ⟨span.stop, span.stop⟩ :=
  ⟨⟨⟨Position.le_refl _, h.stop, h.stop⟩, Position.le_refl _, h.le_hi⟩, h.ends⟩

end Span.Ended

namespace Span

theorem encloses_self (s : Span) : s.Encloses s :=
  ⟨Position.le_refl _, Position.le_refl _⟩

theorem merge_encloses_left (s t : Span) : (s.merge t).Encloses s := by
  unfold merge Position.min Position.max Encloses
  constructor <;> dsimp only <;> split_ifs with h
  · exact h
  · exact Position.le_refl _
  · exact h
  · exact Position.le_refl _

theorem merge_encloses_right (s t : Span) : (s.merge t).Encloses t := by
  unfold merge Position.min Position.max Encloses
  constructor <;> dsimp only <;> split_ifs with h
  · exact Position.le_refl _
  · exact (Position.le_total _ _).resolve_left h
  · exact Position.le_refl _
  · exact (Position.le_total _ _).resolve_left h

end Span

namespace Node

/-- The node with all nodes below it. -/
def nodes : Node → List Node
  | .expr e => e.nodes
  | .stmt s => s.nodes
  | .branch b => branchNodesOne b
  | .program p => p.nodes

/-- The nodes right below a node, as they are listed in it. -/
def parts : Node → List Node
  | .expr (.name use) => (use.args.getD []).map .expr
  | .expr (.binary _ left right _) => [.expr left, .expr right]
  | .expr (.prefixed _ operand _) | .expr (.transposed _ operand _) => [.expr operand]
  | .expr (.matrix _ rows _) => rows.flatten.map .expr
  | .expr (.anonymous _ body _) => body.toList.map .expr
  | .expr (.named value) => value.value.toList.map .expr
  | .expr (.number _ _) | .expr (.string _ _) | .expr (.handle _ _) | .expr (.mark _ _) => []
  | .stmt (.assign target value _ _) => .expr (.name target) :: value.toList.map .expr
  | .stmt (.assignMany targets value _ _) =>
    (targets.map Target.toExpr).map .expr ++ value.toList.map .expr
  | .stmt (.call use _) => [.expr (.name use)]
  | .stmt (.expr value _) => [.expr value]
  | .stmt (.function header body _ _ _) =>
    (header.outputs.map Output.toExpr).map .expr ++ (header.params.map Param.toExpr).map .expr ++
      body.map .stmt
  | .stmt (.ifElse condition body clauses otherwise _) =>
    condition.toList.map .expr ++ body.map .stmt ++ clauses.map .branch ++
      (otherwise.getD []).map .stmt
  | .stmt (.forLoop loopVar iterable body _) =>
    (loopVar.toList.map Variable.toExpr).map .expr ++ iterable.toList.map .expr ++ body.map .stmt
  | .stmt (.whileLoop condition body _) => condition.toList.map .expr ++ body.map .stmt
  | .stmt (.doUntil body condition _) => body.map .stmt ++ condition.toList.map .expr
  | .stmt (.switch subject cases otherwise _) =>
    subject.toList.map .expr ++ cases.map .branch ++ (otherwise.getD []).map .stmt
  | .stmt (.tryCatch body errorVar handler _) =>
    body.map .stmt ++ (errorVar.toList.map Variable.toExpr).map .expr ++ handler.map .stmt
  | .stmt (.declare _ names _) => (names.map Variable.toExpr).map .expr
  | .stmt (.jump _ _) => []
  | .branch b => b.guard.toList.map .expr ++ b.body.map .stmt
  | .program p => p.body.map .stmt

/-- The place of the name that a node gives to something, or that it refers to by a handle. -/
def nameSpan? : Node → Option Span
  | .expr (.handle function _) => some function.span
  | .expr (.named value) => some value.nameSpan
  | .stmt (.function header _ _ _ _) => some header.nameSpan
  | _ => none

theorem flatMap_expr (es : List Expr) : (es.map expr).flatMap nodes = exprNodes es := by
  induction es with
  | nil => rfl
  | cons e es ih =>
    rw [List.map_cons, List.flatMap_cons, ih]
    rfl

theorem flatMap_optional (e : Option Expr) : (e.toList.map expr).flatMap nodes = optionalNodes e := by
  cases e with
  | none => rfl
  | some e => exact List.append_nil _

theorem flatMap_stmt (ss : List Stmt) : (ss.map stmt).flatMap nodes = stmtNodes ss := by
  induction ss with
  | nil => rfl
  | cons s ss ih =>
    rw [List.map_cons, List.flatMap_cons, ih]
    rfl

theorem flatMap_branch (bs : List (Branch Stmt)) :
    (bs.map branch).flatMap nodes = branchNodes bs := by
  induction bs with
  | nil => rfl
  | cons b bs ih =>
    rw [List.map_cons, List.flatMap_cons, ih]
    rfl

/-- Below a node there are its parts with all that is below them, and nothing else. -/
theorem nodes_eq (n : Node) : n.nodes = n :: n.parts.flatMap nodes := by
  cases n with
  | expr e =>
    cases e with
    | name use => simp [nodes, Expr.nodes, parts, useNodes_eq, flatMap_expr]
    | matrix kind rows span => simp [nodes, Expr.nodes, parts, rowNodes_eq, ← flatMap_expr]
    | anonymous params body span => cases body <;> simp [nodes, Expr.nodes, parts]
    | named value => simp [nodes, Expr.nodes, parts, namedNodes_eq, ← flatMap_optional]
    | _ => simp [nodes, Expr.nodes, parts]
  | stmt s =>
    cases s with
    | ifElse condition body clauses otherwise span =>
      simp [nodes, Stmt.nodes_ifElse, parts, ← flatMap_optional, ← flatMap_stmt, ← flatMap_branch]
    | switch subject cases otherwise span =>
      simp [nodes, Stmt.nodes_switch, parts, ← flatMap_optional, ← flatMap_stmt, ← flatMap_branch]
    | assign | call | expr | whileLoop | doUntil | jump =>
      simp [nodes, Stmt.nodes, parts, ← flatMap_optional, ← flatMap_stmt]
    | assignMany | function | forLoop | tryCatch | declare =>
      simp [nodes, Stmt.nodes, parts, ← flatMap_optional, ← flatMap_stmt, ← flatMap_expr]
  | branch b =>
    obtain ⟨guard, body, span⟩ := b
    simp [nodes, branchNodesOne, parts, ← flatMap_optional, ← flatMap_stmt]
  | program p => simp [nodes, Program.nodes, parts, ← flatMap_stmt]

def isProgram : Node → Bool
  | .program _ => true
  | _ => false

/-- An assignment of several values that was read to the end of the code, where the end token was taken
for its equals sign. -/
def Overhangs (Reported : Diagnostic → Prop) (eof : Token) : Node → Prop
  | .stmt (.assignMany _ none span _) =>
    span.stop = eof.span.stop ∧ Reported ((Problem.endsAfter eof.text).toDiagnostic eof.span)
  | _ => False

/-- The parts that can end behind a node: a named argument in a list that is not closed, and an assignment
that was read to the end of the code. -/
inductive Escapes (Reported : Diagnostic → Prop) (eof : Token) : Node → Node → Prop where
  | argument {use : NameUse Expr} {value : NamedValue Expr} {group : Group} {bracket : Span}
      (hopen : Reported ((Problem.groupOpen group).toDiagnostic bracket))
      (hinside : use.span.Encloses bracket) (hbehind : use.span.stop ≤ value.span.start) :
      Escapes Reported eof (.expr (.name use)) (.expr (.named value))
  | assignment {n part : Node} (hn : n.isProgram = false) (h : part.Overhangs Reported eof) :
      Escapes Reported eof n part

/-- The parts of a node start in its span, and those that do not escape end in it. The span also encloses
the name of the node. -/
structure Nests (Reported : Diagnostic → Prop) (eof : Token) (n : Node) : Prop where
  starts : ∀ part ∈ n.parts, n.span.start ≤ part.span.start
  stops : ∀ part ∈ n.parts, part.span.stop ≤ n.span.stop ∨ n.Escapes Reported eof part
  name : ∀ span ∈ n.nameSpan?, n.span.Encloses span

theorem forall_name (n : Node) (h : n.nameSpan? = none) {P : Span → Prop} : ∀ span ∈ n.nameSpan?, P span := by
  rw [h]
  exact fun _ hspan => absurd hspan (Option.not_mem_none _)

variable {Reported Reported' : Diagnostic → Prop} {eof : Token} {n part : Node}

theorem Overhangs.mono (h : n.Overhangs Reported eof) (hreported : ∀ d, Reported d → Reported' d) :
    n.Overhangs Reported' eof := by
  unfold Overhangs at h ⊢
  split at h
  · exact ⟨h.1, hreported _ h.2⟩
  · exact h

theorem Escapes.mono (h : n.Escapes Reported eof part) (hreported : ∀ d, Reported d → Reported' d) :
    n.Escapes Reported' eof part := by
  cases h with
  | argument hopen hinside hbehind => exact .argument (hreported _ hopen) hinside hbehind
  | assignment hn h => exact .assignment hn (h.mono hreported)

/-- None of the parts escapes. -/
theorem Nests.of_encloses (hparts : ∀ part ∈ n.parts, n.span.Encloses part.span)
    (hname : ∀ span ∈ n.nameSpan?, n.span.Encloses span) : n.Nests Reported eof :=
  ⟨fun part hpart => (hparts part hpart).1, fun part hpart => .inl (hparts part hpart).2, hname⟩

theorem Nests.mono (h : n.Nests Reported eof) (hreported : ∀ d, Reported d → Reported' d) :
    n.Nests Reported' eof :=
  ⟨h.starts, fun part hpart => (h.stops part hpart).imp_right (·.mono hreported), h.name⟩

end Node

/-- The parser reads the header from behind the keyword at the place `first` up to the token at `last`. -/
def FunctionHeader.StandsAt (code : Code) (header : FunctionHeader) (first last : Nat) : Prop :=
  (code.token first).kind = .keyword .function ∧ ∃ gas s s', s.code = code ∧ s.pos = first + 1 ∧
    Parser.parseHeader gas (code.token first) s = (header, s') ∧ s'.pos = last + 1

/-- The body of a function is read up to the place `behind`. The token there ends the function if it closes
it, else the one before it does. -/
structure FunctionHeader.ReadAt (code : Code) (header : FunctionHeader) (span : Span) (closed : Bool)
    (first last behind : Nat) : Prop where
  header : header.StandsAt code first last
  first_le : first ≤ last
  lt : last < behind
  le : behind ≤ code.tokens.length
  lt_of_closed : closed = true → behind < code.tokens.length
  span_eq : span = ⟨(code.token first).span.start,
    (code.token (if closed then behind else behind - 1)).span.stop⟩

/-- The documentation of a function is looked up around its header. Only a fault stops its body at a
separator. -/
def Node.Documented (code : Code) (Faulty : Prop) : Node → Prop
  | .stmt (.function header _ span documentation closed) => ∃ first last behind,
    header.ReadAt code span closed first last behind ∧
    (Faulty ∨ Parser.isSeparator (code.token behind).kind = false) ∧
    documentation = (Layout.ofCode code).documentation (code.token first).span.start.line.toNat
      (code.token last).span.stop.line.toNat
  | _ => True

theorem Node.Documented.mono {code : Code} {Faulty Faulty' : Prop} {n : Node} (h : n.Documented code Faulty)
    (hfaulty : Faulty → Faulty') : n.Documented code Faulty' := by
  unfold Documented at h ⊢
  split at h
  · obtain ⟨first, last, behind, hread, hend, hdocumentation⟩ := h
    exact ⟨first, last, behind, hread, hend.imp_left hfaulty, hdocumentation⟩
  · trivial

/-- What has no name is no function. -/
theorem Node.Documented.of_nameSpan? {code : Code} {Faulty : Prop} {n : Node} (h : n.nameSpan? = none) :
    n.Documented code Faulty := by
  unfold Documented
  split
  · contradiction
  · trivial

end MatrixScript
