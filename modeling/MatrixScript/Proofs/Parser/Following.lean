import MatrixScript.Proofs.Parser.Yields
import MatrixScript.Proofs.Syntax.Pieces

/-! What stands at the front of an expression and what may stand behind one. -/
namespace MatrixScript

variable {s : State} {e : Expr} {qs : List Piece}

namespace BinaryOp

theorem precedence_pos (op : BinaryOp) : 0 < op.precedence := by
  cases op <;> decide

theorem precedence_lt (op : BinaryOp) : op.precedence < Expr.tightest := by
  cases op <;> decide

/-- An operator is spelled by one sign or by two. The sign of one without blanks around it is not the
first of two. -/
theorem signs_cases (op : BinaryOp) :
    (∃ a, op.signs = [a] ∧ ofSign? a = some op ∧ (op.isTight = true → ∀ b, ofSigns? a b = none)) ∨
      ∃ a b, op.signs = [a, b] ∧ ofSigns? a b = some op := by
  cases op <;> simp [signs, isTight, ofSign?, ofSigns?]

end BinaryOp

namespace Parser

open Piece

/-! Behind an expression. -/

/-- Two tokens of these classes do not continue a name before them. -/
def endsName (first second : Token.Kind) : Bool :=
  (argumentGroup? first).isNone && !(first == .sign .period && second.isName)

/-- Two tokens of these classes do not continue an operand before them. -/
def endsOperand (first second : Token.Kind) : Bool :=
  endsName first second && first != .transpose && !(first == .sign .period && second == .transpose)

/-- No expression goes on at a token of this class, and none starts there. -/
def isCloser : Token.Kind → Bool
  | .newline | .eof => true
  | .sign sign => sign == .comma || sign == .semicolon || sign == .closeParen ||
      sign == .closeBracket || sign == .closeBrace
  | _ => false

theorem endsName_of_endsOperand {first second : Token.Kind} (h : endsOperand first second = true) :
    endsName first second = true := by
  rw [endsOperand, Bool.and_eq_true, Bool.and_eq_true] at h
  exact h.1.1

/-- The loop of fields and arguments stops where the name ends. -/
theorem parseNameFrom_stop {sub : SubParser}
    (hends : endsName s.current.kind (s.ahead 1).kind = true) (listGas gas : Nat)
    (use : NameUse Expr) :
    parseNameFrom listGas sub (gas + 1) use s = (use, s) := by
  rw [endsName, Bool.and_eq_true, Bool.not_eq_true', Option.isNone_iff_eq_none] at hends
  obtain ⟨hgroup, hpoint⟩ := hends
  have hfield : isField s.previous s.current (s.ahead 1) = false := by
    rw [isField, Token.is, Token.isName]
    cases hperiod : s.current.kind == .sign .period with
    | false => rfl
    | true =>
      rw [hperiod, Bool.true_and] at hpoint
      simp [hpoint]
  rw [parseNameFrom]
  change (if isField s.previous s.current (s.ahead 1) then _ else _ : Parser (NameUse Expr)) s = _
  rw [hfield]
  rw [if_neg Bool.false_ne_true, hgroup]
  rfl

theorem parseTransposes_stop (hends : endsOperand s.current.kind (s.ahead 1).kind = true)
    (gas : Nat) (operand : Expr) : parseTransposes (gas + 1) operand s = (operand, s) := by
  rw [endsOperand, Bool.and_eq_true, Bool.and_eq_true, bne_iff_ne, Bool.not_eq_true'] at hends
  obtain ⟨⟨-, htranspose⟩, hplain⟩ := hends
  have hnot : isPlainTranspose s.current (s.ahead 1) = false := by
    rw [isPlainTranspose, Token.is, hplain, Bool.false_and]
  rw [parseTransposes]
  change (if s.current.kind == .transpose then _
    else if isPlainTranspose s.current (s.ahead 1) then _ else _ : Parser Expr) s = _
  rw [if_neg (by simpa using htranspose), if_neg (by rw [hnot]; decide)]
  rfl

theorem parseOperators_stop {sub : SubParser} {least : Nat}
    (hweak : ∀ op width, operatorAt s.current (s.ahead 1) = some (op, width) → op.precedence ≤ least)
    (gas : Nat) (left : Expr) : parseOperators sub least (gas + 1) left s = (left, s) := by
  have hpeek : (peekOperator s).1 = operatorAt s.current (s.ahead 1) := rfl
  rw [parseOperators, bind_apply, hpeek]
  cases hoperator : operatorAt s.current (s.ahead 1) with
  | none => rfl
  | some found =>
    obtain ⟨op, width⟩ := found
    change (if op.precedence ≤ least then pure left else _ : Parser Expr) s = _
    rw [if_pos (hweak op width hoperator)]
    rfl

/-- The pieces end an operand, and an operator at their front is at most as strong as `bound`. -/
structure Follows (qs : List Piece) (bound : Nat) : Prop where
  ends : endsOperand (kindAt qs 0) (kindAt qs 1) = true
  operator : ∀ s : State, s.Starts qs → ∀ op width,
    operatorAt s.current (s.ahead 1) = some (op, width) → op.precedence ≤ bound

theorem Follows.mono {bound bound' : Nat} (h : Follows qs bound) (hle : bound ≤ bound') :
    Follows qs bound' :=
  ⟨h.ends, fun s hs op width hop => (h.operator s hs op width hop).trans hle⟩

theorem Follows.endsName {bound : Nat} (h : Follows qs bound) :
    endsName (kindAt qs 0) (kindAt qs 1) = true :=
  endsName_of_endsOperand h.ends

theorem endsOperand_of_isCloser {first : Token.Kind} (h : isCloser first = true)
    (second : Token.Kind) : endsOperand first second = true := by
  cases first with
  | newline | eof => rfl
  | sign sign => cases sign <;> first | rfl | contradiction
  | _ => contradiction

theorem operatorAt_of_isCloser {x : Token} (h : isCloser x.kind = true) (y : Token) :
    operatorAt x y = none := by
  unfold operatorAt
  cases hkind : x.kind with
  | sign sign =>
    rw [hkind] at h
    have hsigns : ∀ second, BinaryOp.ofSigns? sign second = none := by
      intro second
      cases sign <;> first | rfl | contradiction
    have hsign : BinaryOp.ofSign? sign = none := by
      cases sign <;> first | rfl | contradiction
    have hdouble : doubleOperatorAt sign x y = none := by
      unfold doubleOperatorAt
      cases y.kind <;> simp [hsigns]
    simp [hdouble, hsign]
  | _ => rfl

theorem Follows.of_isCloser (h : isCloser (kindAt qs 0) = true) (bound : Nat) :
    Follows qs bound := by
  refine ⟨endsOperand_of_isCloser h _, fun s hs op width hop => ?_⟩
  rw [operatorAt_of_isCloser (by rwa [hs.current_kind])] at hop
  contradiction

/-! At an operator. -/

/-- The operator that was written is found again. -/
theorem operatorAt_pieces {op : BinaryOp} {q : Piece} (h : s.Starts (op.pieces ++ q :: qs))
    (hq : q.glued = op.isTight) :
    operatorAt s.current (s.ahead 1) = some (op, op.signs.length) := by
  unfold operatorAt
  rcases op.signs_cases with ⟨a, hsigns, hop, htight⟩ | ⟨a, b, hsigns, hop⟩
  · have hpieces : op.pieces = [.sign op.isTight a] := by simp [BinaryOp.pieces, hsigns]
    rw [hpieces] at h
    have hkind : s.current.kind = .sign a := h.current_kind
    have hadjacent : s.current.adjacent (s.ahead 1) = op.isTight := h.adjacent.trans hq
    have hdouble : doubleOperatorAt a s.current (s.ahead 1) = none := by
      unfold doubleOperatorAt
      rw [hadjacent]
      cases (s.ahead 1).kind with
      | sign b => cases hop : op.isTight <;> simp [htight, hop]
      | _ => rfl
    simp [hkind, hdouble, hop, hsigns]
  · have hpieces : op.pieces = [.sign op.isTight a, .sign true b] := by
      simp [BinaryOp.pieces, hsigns]
    rw [hpieces] at h
    have hkind : s.current.kind = .sign a := h.current_kind
    have hsecond : (s.ahead 1).kind = .sign b := h.kind_ahead 1
    have hadjacent : s.current.adjacent (s.ahead 1) = true := h.adjacent
    simp [hkind, doubleOperatorAt, hsecond, hadjacent, hop, hsigns]

theorem endsOperand_pieces (op : BinaryOp) {q : Piece} :
    endsOperand (kindAt (op.pieces ++ q :: qs) 0) (kindAt (op.pieces ++ q :: qs) 1) = true := by
  cases op <;> rfl

theorem Follows.of_operator {op : BinaryOp} {q : Piece} (qs : List Piece) (hq : q.glued = op.isTight) :
    Follows (op.pieces ++ q :: qs) op.precedence := by
  refine ⟨endsOperand_pieces op, fun s hs found width hfound => ?_⟩
  rw [operatorAt_pieces hs hq] at hfound
  cases hfound
  exact le_rfl

theorem endsName_transpose (op : TransposeOp) (qs : List Piece) :
    endsName (kindAt (op.pieces ++ qs) 0) (kindAt (op.pieces ++ qs) 1) = true := by
  cases op <;> rfl

end Parser

namespace Expr

open Piece

theorem level_pos (e : Expr) : 0 < e.level := by
  cases e with
  | binary op left right span => exact op.precedence_pos
  | _ => simp [level, tightest]

theorem edge_le_level (e : Expr) : e.edge ≤ e.level := by
  cases e with
  | binary op left right span => exact min_le_left _ _
  | prefixed op operand span => exact (min_le_left _ _).trans (show 9 ≤ 11 by decide)
  | _ => simp [edge, level, tightest]

/-- An expression without operators outside of its parts, transposes apart. -/
def isOperand : Expr → Bool
  | .binary _ _ _ _ | .prefixed _ _ _ | .named _ => false
  | _ => true

theorem isOperand_of_takesTranspose {op : TransposeOp} (h : e.takesTranspose op = true) :
    e.isOperand = true := by
  cases e with
  | binary | prefixed | named => contradiction
  | _ => rfl

/-! The front of an expression. -/

/-- What the first piece of an expression is like. -/
structure Front (e : Expr) (glued : Bool) (p : Piece) : Prop where
  glued_eq : p.glued = glued
  isCloser_eq : Parser.isCloser p.kind = false
  isKeyword_eq : p.kind.isKeyword = e.startsWithEnd
  not_prefix : e.isOperand = true → ∀ sign, p.kind = .sign sign → PrefixOp.ofSign? sign = none

theorem isCloser_of_isName {kind : Token.Kind} (h : kind.isName = true) : Parser.isCloser kind = false := by
  cases kind with
  | identifier | native => rfl
  | _ => contradiction

theorem isKeyword_of_isName {kind : Token.Kind} (h : kind.isName = true) : kind.isKeyword = false := by
  cases kind with
  | identifier | native => rfl
  | _ => contradiction

theorem front_word {word : String} (glued : Bool) (h : IsNameText word)
    (hstart : e.startsWithEnd = false) : e.Front glued (.word glued word) := by
  refine ⟨rfl, isCloser_of_isName h.isName, ?_, fun _ sign hsign => ?_⟩
  · rw [hstart]
    exact isKeyword_of_isName h.isName
  · exact absurd hsign (Lexeme.nameKind_ne_sign word sign)

theorem Bare.front {place : Place} (h : e.Bare place) (hlex : e.Lexical) (glued : Bool) :
    ∃ p ps, e.pieces glued = p :: ps ∧ e.Front glued p := by
  induction h with
  | @name place use hargs ih =>
    obtain ⟨hroot, -⟩ := hlex.head
    obtain ⟨root, fields, span, args, native, command⟩ := use
    cases args <;> exact ⟨_, _, rfl, front_word glued hroot rfl⟩
  | number text span => exact ⟨_, _, rfl, rfl, rfl, rfl, by rintro - _ ⟨⟩⟩
  | string htext span => exact ⟨_, _, rfl, rfl, rfl, rfl, by rintro - _ ⟨⟩⟩
  | binary _ _ _ _ _ _ ihleft =>
    obtain ⟨p, ps, hpieces, hfront⟩ := ihleft hlex.left
    exact ⟨p, _, by rw [pieces, hpieces]; rfl,
      hfront.glued_eq, hfront.isCloser_eq, hfront.isKeyword_eq, (absurd · Bool.false_ne_true)⟩
  | @prefixed place op => exact ⟨_, _, rfl, rfl, by cases op <;> rfl, rfl,
    (absurd · Bool.false_ne_true)⟩
  | transposed _ htakes _ ih =>
    obtain ⟨p, ps, hpieces, hfront⟩ := ih hlex.ofTransposed
    exact ⟨p, _, by rw [pieces, hpieces]; rfl, hfront.glued_eq, hfront.isCloser_eq,
      hfront.isKeyword_eq, fun _ => hfront.not_prefix (isOperand_of_takesTranspose htakes)⟩
  | @matrix place kind =>
    exact ⟨_, _, rfl, rfl, by cases kind <;> rfl, rfl, by rintro - _ ⟨⟩; cases kind <;> rfl⟩
  | anonymous => exact ⟨_, _, rfl, rfl, rfl, rfl, by rintro - _ ⟨⟩; rfl⟩
  | handle => exact ⟨_, _, rfl, rfl, rfl, rfl, by rintro - _ ⟨⟩; rfl⟩
  | named name nameSpan h span => exact ⟨_, _, rfl, front_word glued hlex.head rfl⟩
  | @mark place mark hplace hmark span =>
    refine ⟨_, _, rfl, ?_⟩
    cases mark with
    | whole => exact ⟨rfl, rfl, rfl, by rintro - _ ⟨⟩; rfl⟩
    | last =>
      have hkind : (Mark.last.piece glued).kind = .keyword .endAny := Lexeme.nameKind_spelling .endAny
      exact ⟨rfl, by rw [hkind]; rfl, by rw [hkind]; rfl, by rw [hkind]; rintro - _ ⟨⟩⟩
    | ignored => contradiction

end Expr

namespace Parser

open Piece

/-! Named arguments. -/

/-- The pieces start with an equals sign that is not part of a comparison. -/
def assignsNext (ps : List Piece) : Bool :=
  kindAt ps 0 == .sign .equals && !(kindAt ps 1 == .sign .equals && ps[1]?.any glued)

def startsNamed (ps : List Piece) : Bool :=
  (kindAt ps 0).isName && assignsNext (ps.drop 1)

theorem isNamedValue_eq {ps : List Piece} (h : s.Starts ps) :
    isNamedValue s.current (s.ahead 1) (s.ahead 2) = startsNamed ps := by
  have hfirst := h.current_kind
  have hsecond := h.kind_ahead 1
  have hthird := h.kind_ahead 2
  have hcompares : ((s.ahead 2).is .equals && (s.ahead 1).adjacent (s.ahead 2)) =
      (kindAt ps 2 == .sign .equals && ps[2]?.any glued) := by
    rw [Token.is, hthird]
    cases hp : ps[2]? with
    | none => simp [kindAt, hp]
    | some p => simp [h.adjacent_ahead hp]
  unfold isNamedValue startsNamed assignsNext assigns
  rw [hcompares, Token.isName, hfirst, Token.is, hsecond]
  cases hname : (kindAt ps 0).isName with
  | false => rfl
  | true =>
    have hnot : ∀ sign, s.current.is sign = false := by
      intro sign
      rw [Token.is, hfirst, beq_eq_false_iff_ne]
      intro hsign
      rw [hsign] at hname
      contradiction
    simp [hnot, kindAt]

theorem assignsNext_pieces (op : BinaryOp) (q : Piece) (qs : List Piece) :
    assignsNext (op.pieces ++ q :: qs) = false := by
  cases op <;> rfl

theorem assignsNext_transpose (op : TransposeOp) (qs : List Piece) :
    assignsNext (op.pieces ++ qs) = false := by
  cases op <;> rfl

theorem assignsNext_of_isCloser (h : isCloser (kindAt qs 0) = true) :
    assignsNext qs = false := by
  have hne : kindAt qs 0 ≠ .sign .equals := by
    intro heq
    rw [heq] at h
    contradiction
  simp [assignsNext, hne]

/-- Only a named value looks like one. -/
theorem startsNamed_pieces {place : Expr.Place} (h : e.Bare place) (hplace : place ≠ .argument)
    (hlex : e.Lexical) {glued : Bool} (hqs : assignsNext qs = false) :
    startsNamed (e.pieces glued ++ qs) = false := by
  have hpart : ∀ place : Expr.Place, place.part ≠ .argument := by intro place; cases place <;> decide
  have hsecond : ∀ {p : Piece} {ps : List Piece}, assignsNext ps = false →
      startsNamed (p :: ps) = false := by
    intro p ps hps
    rw [startsNamed, List.drop_one, List.tail_cons, hps, Bool.and_false]
  induction h generalizing qs with
  | @name place use =>
    obtain ⟨root, fields, span, args, native, command⟩ := use
    cases fields <;> cases args <;> first | exact hsecond hqs | exact hsecond rfl
  | @binary place op left right hleft hright hedge hlevel hmodulus span ihleft =>
    obtain ⟨q, ps, hright, -⟩ := hright.front hlex.right op.isTight
    rw [Expr.pieces, hright, List.append_assoc, List.append_assoc, List.cons_append]
    exact ihleft (hpart _) hlex.left (assignsNext_pieces op q _)
  | @transposed place op operand _ _ _ ih =>
    rw [Expr.pieces, List.append_assoc]
    exact ih (hpart _) hlex.ofTransposed (assignsNext_transpose op _)
  | named => contradiction
  | @mark place mark =>
    cases mark <;> rfl
  | _ => rfl

end Parser

end MatrixScript
