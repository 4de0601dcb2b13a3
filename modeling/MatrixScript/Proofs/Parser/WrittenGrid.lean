import MatrixScript.Proofs.Parser.WrittenLine

/-! Literals in all their layouts.

The elements of a row are separated by blanks or commas and the rows by semicolons or newlines, each of
them chosen freely. Main statement: however a literal is laid out, it is read as the rows that it was
made from. -/
namespace MatrixScript

open Piece Source

variable {s : State} {gas : Nat} {glued : Bool} {qs : List Piece} {rest : List Char}

namespace Grid

/-! What is laid out. -/

inductive Atom where
  | number (text : String) (h : Lexeme.IsNumber text.toList)
  | name (text : String) (h : IsNameText text)
  | string (text : String) (hstarts : Lexeme.StartsString text.toList)
      (hclosed : isClosedLiteral text = true)

namespace Atom

def text : Atom → String
  | .number text _ | .name text _ | .string text _ _ => text

def expr : Atom → Expr
  | .number text _ => .number text .zero
  | .name text _ => .name ⟨text, [], .zero, none, Lexeme.nameKind text == .native, false⟩
  | .string text _ _ => .string text .zero

theorem render_expr (a : Atom) : a.expr.render = a.text := by
  cases a with
  | name word h => simp [expr, text, Expr.render, renderUse]
  | _ => rfl

theorem unplaced_expr (a : Atom) : a.expr.unplaced = a.expr := by
  cases a <;> simp [expr, Expr.unplaced, NameUse.unplaced]

theorem isElement (a : Atom) : Parser.IsElement a.expr := by
  cases a with
  | number text h =>
    refine ⟨.number text _, fun n hn => ⟨.number text .zero, ?_, h⟩, rfl⟩
    simpa [expr, Expr.nodes] using hn
  | name text h => exact ⟨.name nofun, lexical_name ⟨h, nofun, rfl, rfl⟩ nofun, rfl⟩
  | string text hstarts hclosed =>
    refine ⟨.string hclosed _, fun n hn => ⟨.string text .zero, ?_, hstarts⟩, rfl⟩
    simpa [expr, Expr.nodes] using hn

end Atom

inductive Polarity where
  | plus | minus
deriving DecidableEq, Repr

namespace Polarity

def text : Polarity → String
  | .plus => "+"
  | .minus => "-"

def op : Polarity → PrefixOp
  | .plus => .plus
  | .minus => .minus

end Polarity

/-- An atom, possibly with a sign directly before it. -/
structure Element where
  polarity : Option Polarity
  atom : Atom

namespace Element

def text : Element → String
  | ⟨none, atom⟩ => atom.text
  | ⟨some polarity, atom⟩ => polarity.text ++ atom.text

def expr : Element → Expr
  | ⟨none, atom⟩ => atom.expr
  | ⟨some polarity, atom⟩ => .prefixed polarity.op atom.expr .zero

theorem render_expr (e : Element) : e.expr.render = e.text := by
  obtain ⟨polarity, atom⟩ := e
  rcases polarity with _ | _ | _ <;> simp [expr, text, Expr.render, atom.render_expr] <;> rfl

theorem unplaced_expr (e : Element) : e.expr.unplaced = e.expr := by
  obtain ⟨polarity, atom⟩ := e
  cases polarity <;> simp [expr, Expr.unplaced, atom.unplaced_expr]

theorem isElement (e : Element) : Parser.IsElement e.expr := by
  obtain ⟨polarity, atom⟩ := e
  obtain ⟨hbare, hlex, hstart⟩ := atom.isElement
  cases polarity with
  | none => exact ⟨hbare, hlex, hstart⟩
  | some polarity =>
    have hlevel : atom.expr.level = Expr.tightest := by cases atom <;> rfl
    refine ⟨@Expr.Bare.prefixed .bracketed _ _ hbare ?_ _, fun n hn => ?_, rfl⟩
    · rw [hlevel]
      decide
    · rw [expr, Expr.nodes, List.mem_cons] at hn
      obtain rfl | hn := hn
      · exact ⟨_, rfl, trivial⟩
      · exact hlex n hn

theorem spell_pieces (e : Element) (glued : Bool) :
    spell (e.expr.pieces glued) = gap glued ++ e.text.toList := by
  rw [← e.render_expr]
  exact e.isElement.1.renders e.isElement.2.1 glued

end Element

/-- What separates two elements of a row. -/
inductive Gap where
  | blank | comma
deriving DecidableEq, Repr

def Gap.text : Gap → String
  | .blank => " "
  | .comma => ", "

/-- What separates two rows. -/
inductive RowBreak where
  | semicolon | newline
deriving DecidableEq, Repr

def RowBreak.text : RowBreak → String
  | .semicolon => ";"
  | .newline => "\n"

structure Row where
  first : Element
  more : List (Gap × Element)

def moreText : List (Gap × Element) → String
  | [] => ""
  | (gap, e) :: more => gap.text ++ e.text ++ moreText more

namespace Row

def text (row : Row) : String := row.first.text ++ moreText row.more

def elements (row : Row) : List Element := row.first :: row.more.map Prod.snd

def exprs (row : Row) : List Expr := row.elements.map Element.expr

end Row

def laterText : List (RowBreak × Row) → String
  | [] => ""
  | (brk, row) :: rows => brk.text ++ row.text ++ laterText rows

end Grid

/-- A literal in brackets or braces with a choice of what separates its elements and its rows, and of a
blank inside its brackets. -/
structure Grid where
  kind : MatrixKind
  padded : Bool
  first : Grid.Row
  more : List (Grid.RowBreak × Grid.Row)

namespace Grid

def text (g : Grid) : String :=
  let padding := if g.padded then " " else ""
  g.kind.enclose (padding ++ g.first.text ++ laterText g.more ++ padding)

def rows (g : Grid) : List Row := g.first :: g.more.map Prod.snd

def expr (g : Grid) : Expr := .matrix g.kind (g.rows.map Row.exprs) .zero

example (a b : Atom) (ha : a.text = "a") (hb : b.text = "'b'") :
    text ⟨.vector, false, ⟨⟨none, a⟩, [(.blank, ⟨some .minus, a⟩), (.comma, ⟨none, b⟩)]⟩,
      [(.newline, ⟨⟨some .plus, a⟩, []⟩)]⟩ = "[a -a, 'b'\n+a]" := by
  simp only [text, Row.text, laterText, moreText, Element.text, ha, hb]
  rfl

theorem unplaced_expr (g : Grid) : g.expr.unplaced = g.expr := by
  have hrow (row : Row) : row.exprs.map Expr.unplaced = row.exprs := by
    rw [Row.exprs, List.map_map]
    exact List.map_congr_left fun e _ => e.unplaced_expr
  have hrows : (g.rows.map Row.exprs).map (List.map Expr.unplaced) = g.rows.map Row.exprs := by
    rw [List.map_map]
    exact List.map_congr_left fun row _ => hrow row
  simp [expr, hrows]

/-! The pieces of a layout. -/

def Gap.pieces : Gap → List Piece
  | .blank => []
  | .comma => [.sign true .comma]

def RowBreak.piece : RowBreak → Piece
  | .semicolon => .sign true .semicolon
  | .newline => .newline

def morePieces : List (Gap × Element) → List Piece
  | [] => []
  | (gap, e) :: more => gap.pieces ++ (e.expr.pieces false ++ morePieces more)

def Row.pieces (glued : Bool) (row : Row) : List Piece :=
  row.first.expr.pieces glued ++ morePieces row.more

def laterRow : RowBreak × Row → Parser.LaterRow
  | (brk, row) => ⟨brk.piece, row.pieces true, row.exprs⟩

/-- The pieces inside the brackets and the closing bracket. -/
def innerPieces (g : Grid) : List Piece :=
  g.first.pieces (!g.padded) ++
    (Parser.laterPieces (g.more.map laterRow) ++
      [.sign (!g.padded) (Group.ofMatrix g.kind).closing])

def pieces (g : Grid) : List Piece :=
  .sign false (Group.ofMatrix g.kind).opening :: g.innerPieces

theorem spell_morePieces (more : List (Gap × Element)) :
    spell (morePieces more) = (moreText more).toList := by
  induction more with
  | nil => rfl
  | cons item more ih =>
    obtain ⟨gap, e⟩ := item
    cases gap <;> simp [morePieces, moreText, Gap.pieces, Gap.text, e.spell_pieces, ih, Sign.char]

theorem spell_rowPieces (row : Row) (glued : Bool) :
    spell (row.pieces glued) = gap glued ++ row.text.toList := by
  simp [Row.pieces, Row.text, row.first.spell_pieces, spell_morePieces]

theorem RowBreak.chars_piece (brk : RowBreak) : brk.piece.chars = brk.text.toList := by
  cases brk <;> rfl

theorem spell_laterPieces (rows : List (RowBreak × Row)) :
    spell (Parser.laterPieces (rows.map laterRow)) = (laterText rows).toList := by
  induction rows with
  | nil => rfl
  | cons item rows ih =>
    obtain ⟨brk, row⟩ := item
    simp only [Parser.laterPieces] at ih
    simp [Parser.laterPieces, laterRow, laterText, brk.chars_piece, spell_rowPieces, ih]

theorem spell_pieces (g : Grid) : spell g.pieces = ' ' :: g.text.toList := by
  have hpadding : (if g.padded then " " else "" : String).toList = gap (!g.padded) := by
    cases g.padded <;> rfl
  simp [pieces, innerPieces, text, spell_rowPieces, spell_laterPieces, MatrixKind.enclose_toList,
    hpadding]

/-! The pieces are read off the text that they spell. -/

/-- A sign that cannot start a comment or a number of points. -/
theorem legible_plain (glued : Bool) {s : Sign} (hs : s ≠ .percent ∧ s ≠ .period)
    (previous : Option Token.Kind) (rest : List Char) : (Piece.sign glued s).Legible previous rest :=
  legible_sign glued (absurd · hs.1) (absurd · hs.2)

theorem stops_blank (cs : List Char) : Lexeme.Stops (' ' :: cs) := by
  rintro _ ⟨⟩
  decide

theorem stops_morePieces (more : List (Gap × Element)) (h : Lexeme.Stops rest) :
    Lexeme.Stops (spell (morePieces more) ++ rest) := by
  cases more with
  | nil => exact h
  | cons item more =>
    obtain ⟨gap, e⟩ := item
    cases gap with
    | blank =>
      rw [morePieces, Gap.pieces, List.nil_append, spell_append, e.spell_pieces]
      exact stops_blank _
    | comma => exact stops_sign true .comma (absurd · (by decide)) _ _

theorem legible_element (e : Element) {previous : Option Token.Kind}
    (hprevious : glued = true → previous.any Lexeme.beforeTranspose = false)
    (hrest : Lexeme.Stops rest) : AllLegible previous (e.expr.pieces glued) rest :=
  e.isElement.1.isLegible e.isElement.2.1 glued previous rest hprevious (hrest.stopsAt _)

theorem legible_morePieces (more : List (Gap × Element)) (hrest : Lexeme.Stops rest)
    (previous : Option Token.Kind) : AllLegible previous (morePieces more) rest := by
  induction more generalizing previous with
  | nil => trivial
  | cons item more ih =>
    obtain ⟨gap, e⟩ := item
    have helement (previous : Option Token.Kind) :
        AllLegible previous (e.expr.pieces false ++ morePieces more) rest :=
      allLegible_append.mpr ⟨legible_element e (absurd · Bool.false_ne_true) (stops_morePieces more hrest), ih _⟩
    cases gap with
    | blank => exact helement previous
    | comma => exact ⟨legible_plain _ (by decide) _ _, helement _⟩

theorem legible_row (row : Row) {previous : Option Token.Kind}
    (hprevious : glued = true → previous.any Lexeme.beforeTranspose = false)
    (hrest : Lexeme.Stops rest) : AllLegible previous (row.pieces glued) rest :=
  allLegible_append.mpr
    ⟨legible_element row.first hprevious (stops_morePieces row.more hrest),
      legible_morePieces row.more hrest _⟩

theorem stops_laterPieces (rows : List (RowBreak × Row)) (h : Lexeme.Stops rest) :
    Lexeme.Stops (spell (Parser.laterPieces (rows.map laterRow)) ++ rest) := by
  cases rows with
  | nil => exact h
  | cons item rows =>
    obtain ⟨brk, row⟩ := item
    cases brk with
    | semicolon => exact stops_sign true .semicolon (absurd · (by decide)) _ _
    | newline =>
      rw [spell_laterPieces, laterText, RowBreak.text, String.append_assoc, String.toList_append]
      exact stops_newline _

theorem legible_laterPieces (rows : List (RowBreak × Row)) (hrest : Lexeme.Stops rest)
    (previous : Option Token.Kind) :
    AllLegible previous (Parser.laterPieces (rows.map laterRow)) rest := by
  induction rows generalizing previous with
  | nil => trivial
  | cons item rows ih =>
    obtain ⟨brk, row⟩ := item
    have hrow (kind : Token.Kind) (hkind : Lexeme.beforeTranspose kind = false) :
        AllLegible (some kind)
          (row.pieces true ++ Parser.laterPieces (rows.map laterRow)) rest :=
      allLegible_append.mpr
        ⟨legible_row row (fun _ => hkind) (stops_laterPieces rows hrest), ih _⟩
    cases brk with
    | semicolon => exact ⟨legible_plain _ (by decide) _ _, hrow _ rfl⟩
    | newline => exact ⟨legible_newline _ _, hrow _ rfl⟩

theorem legible_pieces (g : Grid) (previous : Option Token.Kind) :
    AllLegible previous g.pieces rest := by
  have hclosing : Lexeme.Stops
      (spell [.sign (!g.padded) (Group.ofMatrix g.kind).closing] ++ rest) :=
    stops_sign _ _ (absurd · (by cases g.kind <;> decide)) _ _
  refine ⟨legible_plain _ (by cases g.kind <;> decide) _ _, ?_⟩
  refine allLegible_append.mpr ⟨legible_row g.first (fun _ => ?_) ?_, allLegible_append.mpr ⟨?_, ?_⟩⟩
  · cases g.kind <;> rfl
  · rw [spell_append, List.append_assoc]
    exact stops_laterPieces g.more hclosing
  · exact legible_laterPieces g.more hclosing _
  · exact ⟨legible_plain _ (by cases g.kind <;> decide) _ _, trivial⟩

end Grid

namespace Parser

open Grid

/-! Elements behind blanks. -/

/-- What stands behind an element: a comma, the end of its row, or a blank and the next element. -/
inductive Separates : List Piece → Prop where
  | closer {qs : List Piece} (h : isCloser (kindAt qs 0) = true) : Separates qs
  | element (e : Element) (qs : List Piece) : Separates (e.expr.pieces false ++ qs)

theorem endsOperand_atom (a : Atom) (glued : Bool) (qs : List Piece) (second : Token.Kind) :
    endsOperand (kindAt (a.expr.pieces glued ++ qs) 0) second = true := by
  cases a with
  | number | string => rfl
  | name word h =>
    change endsOperand (Lexeme.nameKind word) second = true
    rcases h.kind_cases with hkind | hkind <;> rw [hkind] <;> rfl

theorem operatorAt_atom (a : Atom) (h : s.Starts (a.expr.pieces glued ++ qs)) (following : Token) :
    operatorAt s.current following = none := by
  have hkind := h.current_kind
  unfold operatorAt
  cases a with
  | number | string => rw [show s.current.kind = _ from hkind]; rfl
  | name word hword =>
    rw [show s.current.kind = Lexeme.nameKind word from hkind]
    rcases hword.kind_cases with hword | hword <;> rw [hword]

/-- A sign before an element is an operator of a sum if it is one at all. -/
theorem operatorAt_polarity (polarity : Polarity)
    (h : s.Starts (.sign glued polarity.op.sign :: qs)) {op : BinaryOp} {width : Nat}
    (hop : operatorAt s.current (s.ahead 1) = some (op, width)) :
    op.precedence = BinaryOp.add.precedence := by
  have hkind : s.current.kind = .sign polarity.op.sign := h.current_kind
  have hdouble : doubleOperatorAt polarity.op.sign s.current (s.ahead 1) = none := by
    unfold doubleOperatorAt
    cases polarity <;> split <;> simp [Polarity.op, PrefixOp.sign, BinaryOp.ofSigns?]
  rw [operatorAt, hkind] at hop
  simp only [hdouble] at hop
  cases polarity <;> cases hop <;> rfl

theorem Separates.follows (h : Separates qs) :
    Follows qs BinaryOp.add.precedence := by
  cases h with
  | closer h => exact .of_isCloser h _
  | element e qs =>
    obtain ⟨polarity, atom⟩ := e
    cases polarity with
    | none =>
      refine ⟨endsOperand_atom atom false qs _, fun s hs op width hop => ?_⟩
      rw [operatorAt_atom atom hs] at hop
      contradiction
    | some polarity =>
      refine ⟨by cases polarity <;> rfl, fun s hs op width hop => ?_⟩
      exact le_of_eq (operatorAt_polarity polarity hs hop)

/-- The loop of operators stops where a new element starts. -/
theorem parseOperators_separator {sub : SubParser} (h : atElementSeparator s = (true, s))
    (least gas : Nat) (left : Expr) : parseOperators sub least (gas + 1) left s = (left, s) := by
  have hpeek : (peekOperator s).1 = operatorAt s.current (s.ahead 1) := rfl
  rw [parseOperators, bind_apply, hpeek]
  cases hoperator : operatorAt s.current (s.ahead 1) with
  | none => rfl
  | some found =>
    obtain ⟨op, width⟩ := found
    change (if op.precedence ≤ least then pure left else _ : Parser Expr) s = _
    split_ifs
    · rfl
    · rw [bind_apply, h]
      rfl

theorem Separates.parseOperators_eq {sub : SubParser} (h : Separates qs) (hsees : s.Sees qs)
    (hmatrix : s.groups.head?.any Group.isMatrix = true) (least gas : Nat) (left : Expr) :
    parseOperators sub least (gas + 1) left s = (left, s) := by
  cases h with
  | closer h =>
    refine parseOperators_stop (fun op width hop => ?_) gas left
    rw [operatorAt_of_isCloser (by rwa [hsees.starts.current_kind])] at hop
    contradiction
  | element e qs =>
    obtain ⟨polarity, atom⟩ := e
    cases polarity with
    | none =>
      refine parseOperators_stop (fun op width hop => ?_) gas left
      rw [operatorAt_atom atom hsees.starts] at hop
      contradiction
    | some polarity =>
      refine parseOperators_separator ?_ least gas left
      have hsign : (s.current.is .plus || s.current.is .minus) = true := by
        rw [Token.is, Token.is, hsees.starts.current_kind]
        cases polarity <;> rfl
      have hblank : s.previous.adjacent s.current = false := hsees.adjacent_previous
      have htouches : s.current.adjacent (s.ahead 1) = true := by
        obtain ⟨p, ps, hpieces, hfront⟩ := atom.isElement.1.front atom.isElement.2.1 true
        have hstarts : s.Starts (.sign false polarity.op.sign :: (atom.expr.pieces true ++ qs)) :=
          hsees.starts
        rw [hpieces] at hstarts
        exact hstarts.adjacent.trans hfront.glued_eq
      change (s.groups.head?.any Group.isMatrix && (s.current.is .plus || s.current.is .minus) &&
        !s.previous.adjacent s.current && s.current.adjacent (s.ahead 1), s) = (true, s)
      rw [hmatrix, hsign, hblank, htouches]
      rfl

theorem precedence_le_edge (e : Element) : BinaryOp.add.precedence ≤ e.expr.edge := by
  obtain ⟨polarity, atom⟩ := e
  have hatom : atom.expr.edge = Expr.tightest := by cases atom <;> rfl
  cases polarity with
  | none =>
    rw [Element.expr, hatom]
    decide
  | some polarity =>
    rw [Element.expr, Expr.edge, hatom]
    decide

/-- In a literal, an element is read by itself, whatever element stands behind it. -/
theorem yields_separated (e : Element) (h : s.Starts (e.expr.pieces glued ++ qs))
    (hgas : (e.expr.pieces glued ++ qs).length < gas)
    (hmatrix : s.groups.head?.any Group.isMatrix = true) (hqs : Separates qs) :
    Yields s qs (IsRead e.expr) (parseExpression gas 0 s) := by
  obtain ⟨gas, rfl⟩ := Nat.exists_eq_succ_of_ne_zero (Nat.ne_of_gt (Nat.zero_lt_of_lt hgas))
  have hopen : s.groups ≠ [] := by
    rintro hnil
    rw [hnil] at hmatrix
    contradiction
  have hahead : Ahead s .bracketed e.expr glued qs :=
    ⟨by decide, e.isElement.1, e.isElement.2.1, fun _ => hopen, h⟩
  refine yields_climb (parseExpression_reads gas) hahead e.expr.level_pos
    (hqs.follows.mono (precedence_le_edge e)) (Nat.le_of_lt_succ hgas) ?_
  intro s' e' gas' h' hsame he hgas'
  obtain ⟨gas', rfl⟩ := Nat.exists_eq_succ_of_ne_zero (Nat.ne_of_gt (Nat.zero_lt_of_lt hgas'))
  rw [hqs.parseOperators_eq h' (by rwa [hsame.groups])]
  exact .pure h' he

/-! Rows. -/

theorem separates_morePieces (more : List (Gap × Element)) (hqs : isCloser (kindAt qs 0) = true) :
    Separates (morePieces more ++ qs) := by
  cases more with
  | nil => exact .closer hqs
  | cons item more =>
    obtain ⟨gap, e⟩ := item
    cases gap with
    | blank =>
      rw [morePieces, Gap.pieces, List.nil_append, List.append_assoc]
      exact .element e _
    | comma => exact .closer rfl

section

variable {n : Nat} {kind : MatrixKind} {span : Span}

/-- The loop reads an element and goes on to what separates it from the next one. -/
theorem yields_nextElement (e : Element) {more : List (Gap × Element)} {rs : List Piece}
    {Q : MatrixRows → Prop} {m : MatrixRows} (hgroups : s.groups.head? = some (Group.ofMatrix kind))
    (hrs : isCloser (kindAt rs 0) = true)
    (h : s.Starts (e.expr.pieces glued ++ (morePieces more ++ rs)))
    (hlength : (e.expr.pieces glued ++ (morePieces more ++ rs)).length < n)
    (hnext : ∀ s' e', s'.Sees (morePieces more ++ rs) → Same s s' → e'.unplaced = e.expr.unplaced →
      Yields s' qs Q (parseMatrixFrom (parseExpression n) kind span gas (m.push e') s')) :
    Yields s qs Q (parseMatrixFrom (parseExpression n) kind span (gas + 1) m s) := by
  obtain ⟨hbare, hlex, hstart⟩ := e.isElement
  obtain ⟨p, rest, hpieces, hfront⟩ := hbare.front hlex glued
  have hmatrix : s.groups.head?.any Group.isMatrix = true := by
    rw [hgroups]
    cases kind <;> rfl
  have hread := yields_separated e h hlength hmatrix (separates_morePieces more hrs)
  rw [hpieces] at h
  exact yields_element h hfront.isCloser_eq (by rw [hfront.isKeyword_eq, hstart]) hread hnext

/-- The loop reads the elements of a row behind the first one. -/
theorem yields_moreElements {more : List (Gap × Element)} {rs : List Piece} {Q : MatrixRows → Prop}
    (hgroups : s.groups.head? = some (Group.ofMatrix kind)) (hrs : isCloser (kindAt rs 0) = true)
    (h : s.Sees (morePieces more ++ rs)) (hlength : (morePieces more ++ rs).length < n)
    (hgas : (morePieces more ++ rs).length < gas) {m : MatrixRows} (hm : m.expectsElement = false)
    (hnext : ∀ s' gas' m', s'.Sees rs → Same s s' → rs.length < gas' → m'.rows = m.rows →
      m'.row.reverse.map Expr.unplaced =
        (m.row.reverse ++ more.map (·.2.expr)).map Expr.unplaced →
        Yields s' qs Q (parseMatrixFrom (parseExpression n) kind span gas' m' s')) :
    Yields s qs Q (parseMatrixFrom (parseExpression n) kind span gas m s) := by
  induction more generalizing s gas m with
  | nil => exact hnext s gas m h (.refl s) hgas rfl (by simp)
  | cons item more ih =>
    obtain ⟨gap, e⟩ := item
    have hpos : 0 < (e.expr.pieces false).length := by
      obtain ⟨p, rest, hpieces, -⟩ := e.isElement.1.front e.isElement.2.1 false
      rw [hpieces]
      exact Nat.zero_lt_succ _
    rw [morePieces, List.append_assoc, List.append_assoc] at h hlength hgas
    have hlength' : (e.expr.pieces false ++ (morePieces more ++ rs)).length < n := by
      rw [List.length_append] at hlength
      omega
    -- behind a comma or a blank, the element is read and the rest of the row is left
    have helement (s' : State) (hsame : Same s s') (m' : MatrixRows) (hrows : m'.rows = m.rows)
        (hrow : m'.row = m.row) (gas' : Nat)
        (hstarts : s'.Starts (e.expr.pieces false ++ (morePieces more ++ rs)))
        (hgas' : (e.expr.pieces false ++ (morePieces more ++ rs)).length < gas') :
        Yields s' qs Q (parseMatrixFrom (parseExpression n) kind span gas' m' s') := by
      obtain ⟨gas', rfl⟩ := Nat.exists_eq_succ_of_ne_zero (Nat.ne_of_gt (Nat.zero_lt_of_lt hgas'))
      refine yields_nextElement e (by rwa [hsame.groups]) hrs hstarts hlength' ?_
      intro s₁ e' h₁ hsame₁ he
      rw [List.length_append] at hlength' hgas'
      refine ih (by rwa [hsame₁.groups, hsame.groups]) h₁ (by omega) (by omega) rfl ?_
      intro s₂ gas₂ m₂ h₂ hsame₂ hgas₂ hrows₂ hrow₂
      refine hnext s₂ gas₂ m₂ h₂ ((hsame.trans hsame₁).trans hsame₂) hgas₂ (hrows₂.trans hrows) ?_
      rw [hrow₂]
      simp [MatrixRows.push, hrow, he]
    cases gap with
    | blank => exact helement s (.refl s) m rfl rfl gas h.starts hgas
    | comma =>
      obtain ⟨gas, rfl⟩ := Nat.exists_eq_succ_of_ne_zero (Nat.ne_of_gt (Nat.zero_lt_of_lt hgas))
      refine yields_comma h.starts hm fun s₁ h₁ hsame₁ => ?_
      exact helement s₁ hsame₁ { m with expectsElement := true } rfl rfl gas h₁.starts
        (Nat.lt_of_succ_lt_succ hgas)

theorem readsRow (row : Row) (glued : Bool) :
    ReadsRow (parseExpression n) n kind span (row.pieces glued) row.exprs := by
  intro s rs qs Q gas m hgroups hrs h hlength hgas hnext
  obtain ⟨gas, rfl⟩ := Nat.exists_eq_succ_of_ne_zero (Nat.ne_of_gt (Nat.zero_lt_of_lt hgas))
  rw [Row.pieces, List.append_assoc] at h hlength hgas
  refine yields_nextElement row.first hgroups hrs h hlength fun s₁ e' h₁ hsame₁ he => ?_
  obtain ⟨p, rest, hpieces, -⟩ := row.first.isElement.1.front row.first.isElement.2.1 glued
  rw [hpieces, List.cons_append, List.length_cons, List.length_append] at hlength hgas
  refine yields_moreElements (by rwa [hsame₁.groups]) hrs h₁ (by omega) (by omega) rfl ?_
  intro s₂ gas₂ m₂ h₂ hsame₂ hgas₂ hrows₂ hrow₂
  refine hnext s₂ gas₂ m₂ h₂ (hsame₁.trans hsame₂) hgas₂ hrows₂ ?_
  rw [hrow₂]
  simp [MatrixRows.push, he, Row.exprs, Row.elements]

/-- No keyword stands at the front of a row, so a newline before it does not end the literal. -/
theorem atMatrixEnd_newline {row : Row} {rs : List Piece}
    (h : s.Starts (.newline :: (row.pieces true ++ rs))) : atMatrixEnd s = (false, s) := by
  obtain ⟨hbare, hlex, hstart⟩ := row.first.isElement
  obtain ⟨p, rest, hpieces, hfront⟩ := hbare.front hlex true
  rw [Row.pieces, hpieces] at h
  obtain ⟨t, us, hrest, ht, u, vs, rfl, hu, -⟩ := h.fits
  have hkind : t.kind = .newline := ht.kind_eq
  have hcloser : isCloser u.kind = false := by rw [hu.kind_eq, hfront.isCloser_eq]
  have hkeyword : u.kind.isKeyword = false := by rw [hu.kind_eq, hfront.isKeyword_eq, hstart]
  have hnewline : (u.kind == .newline) = false := beq_of_isCloser hcloser rfl
  have hsemicolon : u.is .semicolon = false := beq_of_isCloser hcloser rfl
  have hline : keywordOnNextLine s = false := by
    simp [keywordOnNextLine, hrest, hkind, hnewline, hsemicolon, hkeyword]
  have hcurrent : s.current.kind = .newline := h.current_kind
  rw [atMatrixEnd, hcurrent, hline]
  rfl

theorem laterRow_reads (brk : RowBreak) (row : Row) :
    (laterRow (brk, row)).Reads (parseExpression n) n kind span where
  ends := by cases brk <;> simp [laterRow, RowBreak.piece, Piece.sign, Piece.newline]
  goesOn := by
    intro s rs h
    cases brk with
    | semicolon =>
      have hkind : s.current.kind = .sign .semicolon := h.current_kind
      exact atMatrixEnd_eq_false (by rw [hkind]; rfl) (by rw [hkind]; rfl) (by rw [hkind]; rfl)
    | newline => exact atMatrixEnd_newline h
  ne_nil := List.cons_ne_nil _ _
  reads := readsRow row true

end

/-- A literal is read as the rows that were laid out. -/
theorem yields_grid (g : Grid) {n : Nat} (h : s.Starts (g.pieces ++ qs))
    (hlength : (g.pieces ++ qs).length ≤ n) :
    Yields s qs (fun e => e.unplaced = g.expr.unplaced)
      (parseMatrix (n + 1) (parseExpression n) g.kind s) := by
  have hrows : (g.more.map laterRow).map LaterRow.row = g.more.map (·.2.exprs) := by
    rw [List.map_map]
    rfl
  have hexprs : g.rows.map Row.exprs = g.first.exprs :: g.more.map (·.2.exprs) := by
    simp [Grid.rows]
  rw [Grid.expr, hexprs, ← hrows]
  rw [Grid.pieces, innerPieces, List.cons_append, List.append_assoc, List.append_assoc,
    List.singleton_append] at h hlength
  refine yields_literal h (fun s' openSpan h' hgroups => ?_) .zero
  have hreads : ∀ r ∈ g.more.map laterRow, r.Reads (parseExpression n) n g.kind openSpan := by
    intro r hr
    obtain ⟨⟨brk, row⟩, -, rfl⟩ := List.mem_map.mp hr
    exact laterRow_reads brk row
  exact yields_rows (readsRow g.first _) (List.cons_ne_nil _ _) hreads hgroups h' hlength (Nat.le_succ n)
    openSpan.stop

theorem readsValue_grid (g : Grid) (hgas : (g.pieces ++ .sign true .semicolon :: qs).length < gas) :
    ReadsValue gas g.pieces qs g.expr := by
  intro s h
  obtain ⟨gas, rfl⟩ := Nat.exists_eq_succ_of_ne_zero (Nat.ne_of_gt (Nat.zero_lt_of_lt hgas))
  have hfollows : Follows (.sign true .semicolon :: qs) 0 := .of_isCloser rfl 0
  have hkind : s.current.kind = .sign (Group.ofMatrix g.kind).opening := h.current_kind
  have hoperand : prefixAt s.current = none := by
    rw [prefixAt, hkind]
    cases g.kind <;> rfl
  have hunary : Yields s (.sign true .semicolon :: qs) (IsRead g.expr)
      (parseUnary (gas + 1) (parseExpression gas) s) := by
    refine .read rfl ?_
    rw [hoperand]
    refine .bind (yields_primaryLiteral hkind (yields_grid g h (Nat.le_of_lt_succ hgas))) ?_
    rintro _ s₁ h₁ - ⟨e, rfl, he⟩
    refine .read (parseTransposes_end (Nat.zero_lt_succ gas) h₁.starts hfollows e) ?_
    exact .pure h₁ ⟨e, rfl, he⟩
  refine .bind hunary ?_
  rintro _ s₁ h₁ - ⟨e, rfl, he⟩
  refine .read (parseOperators_end (Nat.zero_lt_succ gas) h₁.starts hfollows e) ?_
  exact .pure h₁ ⟨e, rfl, he⟩

end Parser

/-- However a literal is laid out, its text is read without any problem as the rows that it was made
from. -/
theorem layout_reread (g : Grid) :
    ∃ tokens, (∀ limit, tokenize limit ("v = " ++ g.text ++ ";") = .ok tokens ↔
        tokens.length ≤ limit) ∧
      (parse tokens).diagnostics = [] ∧
      (parse tokens).program.body.map Stmt.unplaced =
        [.assign ⟨"v", [], .zero, none, false, false⟩
          (some (.matrix g.kind (g.rows.map Grid.Row.exprs) .zero)) .zero true] := by
  have hname : IsNameText "v" := ⟨⟨rfl, List.forall_mem_nil _⟩, by decide⟩
  have hspell : ("v = " ++ g.text ++ ";").toList = spell (Parser.assignedPieces "v" g.pieces) := by
    simp [Parser.assignedPieces, g.spell_pieces, Sign.char]
  have hlegible : AllLegible none (Parser.assignedPieces "v" g.pieces) [] := by
    refine ⟨legible_word _ hname.isWord (isNameChar_blank _), Grid.legible_plain _ (by decide) _ _, ?_⟩
    exact allLegible_append.mpr ⟨g.legible_pieces _, Grid.legible_plain _ (by decide) _ _, trivial⟩
  obtain ⟨tokens, htokens, heof, hfits⟩ := hlegible.tokenize hspell
  have hread : Parser.ReadsValue ((Code.ofTokens tokens).tokens.length + 1) g.pieces [] g.expr := by
    refine Parser.readsValue_grid g ?_
    rw [hfits.length_eq, Parser.assignedPieces, List.length_cons, List.length_cons]
    omega
  refine ⟨tokens, htokens, ?_⟩
  obtain ⟨hdiagnostics, hbody⟩ :=
    Parser.parse_of_yields (Parser.yields_program hname rfl heof hfits hread)
  refine ⟨hdiagnostics, hbody.trans ?_⟩
  rw [assignment, Stmt.unplaced, Option.map_some, g.unplaced_expr]
  rfl

end MatrixScript
