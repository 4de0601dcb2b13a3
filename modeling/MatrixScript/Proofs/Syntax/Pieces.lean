import MatrixScript.Proofs.Syntax.Bare
import MatrixScript.Syntax.Render

/-! Rendered expressions as pieces.

Main statement: the rendered text of a bare expression is read as the pieces it is written in. -/
namespace MatrixScript

variable {e : Expr} {es : List Expr} {rows : List (List Expr)} {rest : List Char}

/-! Operators and signs. -/

def BinaryOp.signs : BinaryOp → List Sign
  | .orElse => [.bar, .bar]
  | .andThen => [.ampersand, .ampersand]
  | .or => [.bar]
  | .and => [.ampersand]
  | .equal => [.equals, .equals]
  | .unequalTilde => [.tilde, .equals]
  | .unequalBang => [.bang, .equals]
  | .less => [.less]
  | .lessEqual => [.less, .equals]
  | .greater => [.greater]
  | .greaterEqual => [.greater, .equals]
  | .range => [.colon]
  | .add => [.plus]
  | .subtract => [.minus]
  | .multiply => [.star]
  | .divide => [.slash]
  | .leftDivide => [.backslash]
  | .modulus => [.percent]
  | .elementMultiply => [.period, .star]
  | .elementDivide => [.period, .slash]
  | .elementLeftDivide => [.period, .backslash]
  | .power => [.caret]
  | .elementPower => [.period, .caret]

/-- Only the operator of ranges has no blanks around it. -/
def BinaryOp.isTight (op : BinaryOp) : Bool := op == .range

def BinaryOp.pieces (op : BinaryOp) : List Piece :=
  match op.signs with
  | [] => []
  | first :: more => .sign op.isTight first :: more.map (.sign true)

def PrefixOp.sign : PrefixOp → Sign
  | .minus => .minus
  | .plus => .plus
  | .tilde => .tilde
  | .bang => .bang

def Piece.transpose : Piece := ⟨true, .transpose, "'"⟩

def TransposeOp.pieces : TransposeOp → List Piece
  | .conjugate => [.transpose]
  | .plain => [.sign true .period, .transpose]

def Group.opening : Group → Sign
  | .paren => .openParen
  | .bracket => .openBracket
  | .brace => .openBrace

def Mark.piece (glued : Bool) : Mark → Piece
  | .whole => .sign glued .colon
  | .last => .word glued "end"
  | .ignored => .sign glued .tilde

/-! Names and lists of them. -/

def fieldPieces : List String → List Piece
  | [] => []
  | field :: fields => .sign true .period :: .word true field :: fieldPieces fields

def moreNamePieces : List String → List Piece
  | [] => []
  | name :: names => .sign true .comma :: .word false name :: moreNamePieces names

def namePieces : List String → List Piece
  | [] => []
  | name :: names => .word true name :: moreNamePieces names

/-- The parameters of an anonymous function. -/
def paramPieces (glued : Bool) (params : List String) : List Piece :=
  .sign glued .atSign :: .sign true .openParen :: (namePieces params ++ [.sign true .closeParen])

/-! Expressions. -/

mutual

def Expr.pieces (glued : Bool) : Expr → List Piece
  | .name use => usePieces glued use
  | .number text _ => [⟨glued, .number, text⟩]
  | .string text _ => [⟨glued, .string, text⟩]
  | .binary op left right _ => left.pieces glued ++ op.pieces ++ right.pieces op.isTight
  | .prefixed op operand _ => .sign glued op.sign :: operand.pieces true
  | .transposed op operand _ => operand.pieces glued ++ op.pieces
  | .matrix kind rows _ =>
    .sign glued (Group.ofMatrix kind).opening ::
      (rowPieces rows ++ [.sign true (Group.ofMatrix kind).closing])
  | .anonymous params none _ => paramPieces glued params
  | .anonymous params (some body) _ => paramPieces glued params ++ body.pieces false
  | .handle function _ => [.sign glued .atSign, .word true function.name]
  | .named value => namedPieces glued value
  | .mark mark _ => [mark.piece glued]

def usePieces (glued : Bool) : NameUse Expr → List Piece
  | ⟨root, fields, _, none, _, _⟩ => .word glued root :: fieldPieces fields
  | ⟨root, fields, _, some args, _, _⟩ =>
    .word glued root :: (fieldPieces fields ++
      .sign true .openParen :: (itemPieces true args ++ [.sign true .closeParen]))

def namedPieces (glued : Bool) : NamedValue Expr → List Piece
  | ⟨name, _, none, _⟩ => [.word glued name, .sign false .equals]
  | ⟨name, _, some value, _⟩ => .word glued name :: .sign false .equals :: value.pieces false

/-- Items with commas between them. -/
def itemPieces (glued : Bool) : List Expr → List Piece
  | [] => []
  | e :: es => e.pieces glued ++ moreItemPieces es

def moreItemPieces : List Expr → List Piece
  | [] => []
  | e :: es => .sign true .comma :: (e.pieces false ++ moreItemPieces es)

/-- Rows with semicolons between them. -/
def rowPieces : List (List Expr) → List Piece
  | [] => []
  | row :: rows => itemPieces true row ++ moreRowPieces rows

def moreRowPieces : List (List Expr) → List Piece
  | [] => []
  | row :: rows => .sign true .semicolon :: (itemPieces false row ++ moreRowPieces rows)

end

/-! The pieces spell the rendered text. -/

open Piece

namespace BinaryOp

theorem spell_pieces (op : BinaryOp) : spell op.pieces = gap op.isTight ++ op.spelling.toList := by
  cases op <;> rfl

end BinaryOp

theorem PrefixOp.spelling_eq (op : PrefixOp) : op.spelling.toList = [op.sign.char] := by
  cases op <;> rfl

theorem TransposeOp.spell_pieces (op : TransposeOp) : spell op.pieces = op.spelling.toList := by
  cases op <;> rfl

theorem Mark.chars_piece (glued : Bool) (mark : Mark) :
    (mark.piece glued).chars = gap glued ++ mark.text.toList := by
  cases mark <;> cases glued <;> rfl

theorem spell_fieldPieces (root : String) (fields : List String) :
    (".".intercalate (root :: fields)).toList = root.toList ++ spell (fieldPieces fields) := by
  induction fields generalizing root with
  | nil => simp [fieldPieces]
  | cons field fields ih =>
    rw [String.intercalate_cons_cons, String.toList_append, ih, String.toList_append]
    simp [fieldPieces, Sign.char]

theorem spell_moreNamePieces (name : String) (names : List String) :
    (", ".intercalate (name :: names)).toList = name.toList ++ spell (moreNamePieces names) := by
  induction names generalizing name with
  | nil => simp [moreNamePieces]
  | cons next names ih =>
    rw [String.intercalate_cons_cons, String.toList_append, ih, String.toList_append]
    simp [moreNamePieces, Sign.char]

theorem spell_namePieces (names : List String) :
    spell (namePieces names) = (", ".intercalate names).toList := by
  cases names with
  | nil => rfl
  | cons name names =>
    rw [spell_moreNamePieces]
    simp [namePieces]

theorem spell_paramPieces (glued : Bool) (params : List String) :
    spell (paramPieces glued params) =
      gap glued ++ ("@(" ++ ", ".intercalate params ++ ")").toList := by
  simp [paramPieces, spell_namePieces, Sign.char]

/-- The pieces of the expression spell its rendered text. -/
def Expr.Renders (e : Expr) : Prop :=
  ∀ glued, spell (e.pieces glued) = gap glued ++ e.render.toList

theorem spell_moreItemPieces (h : ∀ e ∈ es, e.Renders) (text : String) :
    (", ".intercalate (text :: renderAll es)).toList = text.toList ++ spell (moreItemPieces es) := by
  induction es generalizing text with
  | nil => simp [renderAll, moreItemPieces]
  | cons e es ih =>
    obtain ⟨he, hes⟩ := List.forall_mem_cons.mp h
    rw [renderAll, String.intercalate_cons_cons, String.toList_append, ih hes, String.toList_append]
    simp [moreItemPieces, he false, Sign.char]

theorem spell_itemPieces (h : ∀ e ∈ es, e.Renders) (hne : es ≠ []) (glued : Bool) :
    spell (itemPieces glued es) = gap glued ++ (", ".intercalate (renderAll es)).toList := by
  cases es with
  | nil => contradiction
  | cons e es =>
    obtain ⟨he, hes⟩ := List.forall_mem_cons.mp h
    rw [renderAll, spell_moreItemPieces hes]
    simp [itemPieces, he glued]

theorem spell_argPieces (h : ∀ e ∈ es, e.Renders) :
    spell (itemPieces true es) = (", ".intercalate (renderAll es)).toList := by
  cases es with
  | nil => rfl
  | cons e es => exact spell_itemPieces h (List.cons_ne_nil _ _) true

theorem spell_moreRowPieces (h : ∀ row ∈ rows, ∀ e ∈ row, e.Renders) (hne : ∀ row ∈ rows, row ≠ [])
    (text : String) :
    ("; ".intercalate (text :: renderRows rows)).toList =
      text.toList ++ spell (moreRowPieces rows) := by
  induction rows generalizing text with
  | nil => simp [renderRows, moreRowPieces]
  | cons row rows ih =>
    obtain ⟨hrow, hrows⟩ := List.forall_mem_cons.mp h
    obtain ⟨hne, hmore⟩ := List.forall_mem_cons.mp hne
    rw [renderRows, String.intercalate_cons_cons, String.toList_append, ih hrows hmore,
      String.toList_append]
    simp [moreRowPieces, spell_itemPieces hrow hne, Sign.char]

theorem spell_rowPieces (h : ∀ row ∈ rows, ∀ e ∈ row, e.Renders) (hne : ∀ row ∈ rows, row ≠ []) :
    spell (rowPieces rows) = ("; ".intercalate (renderRows rows)).toList := by
  cases rows with
  | nil => rfl
  | cons row rows =>
    obtain ⟨hrow, hrows⟩ := List.forall_mem_cons.mp h
    obtain ⟨-, hmore⟩ := List.forall_mem_cons.mp hne
    rw [renderRows, spell_moreRowPieces hrows hmore, rowPieces, spell_append, spell_argPieces hrow]

theorem MatrixKind.enclose_toList (kind : MatrixKind) (rows : String) :
    (kind.enclose rows).toList =
      (Group.ofMatrix kind).opening.char :: rows.toList ++ [(Group.ofMatrix kind).closing.char] := by
  cases kind <;> simp [enclose, Group.opening, Group.ofMatrix, Group.closing, Sign.char]

theorem Expr.render_binary (op : BinaryOp) (left right : Expr) (span : Span) :
    (Expr.binary op left right span).render.toList = left.render.toList ++ gap op.isTight ++
      op.spelling.toList ++ gap op.isTight ++ right.render.toList := by
  by_cases hop : op = .range
  · subst hop
    simp [Expr.render, BinaryOp.isTight, BinaryOp.spelling]
  · have htight : op.isTight = false := beq_eq_false_iff_ne.mpr hop
    simp [Expr.render, htight]

theorem Expr.Bare.renders {place : Place} (h : e.Bare place) (hlex : e.Lexical) :
    e.Renders := by
  intro glued
  induction h generalizing glued with
  | @name place use hargs ih =>
    obtain ⟨root, fields, span, args, native, command⟩ := use
    cases args with
    | none =>
      rw [Expr.render, renderUse, spell_fieldPieces]
      simp [Expr.pieces, usePieces]
    | some args =>
      have hspell : spell (itemPieces true args) = (", ".intercalate (renderAll args)).toList :=
        spell_argPieces fun e he glued => ih args rfl e he (hlex.ofName args rfl e he) glued
      simp only [Expr.render, renderUse, String.toList_append, spell_fieldPieces, ← hspell]
      simp [Expr.pieces, usePieces, Sign.char]
  | number text span => simp [Expr.pieces, Expr.render, Piece.chars, Piece.blanks]
  | string htext span => simp [Expr.pieces, Expr.render, Piece.chars, Piece.blanks]
  | @binary place op left right _ _ _ _ _ span ihleft ihright =>
    rw [Expr.pieces, spell_append, spell_append, ihleft hlex.left, ihright hlex.right, op.spell_pieces,
      Expr.render_binary]
    simp only [List.append_assoc]
  | prefixed _ _ span ih => simp [Expr.pieces, Expr.render, ih hlex.ofPrefixed, PrefixOp.spelling_eq]
  | transposed _ _ span ih =>
    simp [Expr.pieces, Expr.render, ih hlex.ofTransposed, TransposeOp.spell_pieces]
  | @matrix place kind rows _ _ span ih =>
    have hspell : spell (rowPieces rows) = ("; ".intercalate (renderRows rows)).toList :=
      spell_rowPieces
        (fun row hrow e he glued => ih row hrow e he (hlex.ofMatrix row hrow e he) glued) hlex.head
    simp [Expr.pieces, Expr.render, hspell, MatrixKind.enclose_toList]
  | anonymous params _ span ih =>
    simp [Expr.pieces, Expr.render, spell_paramPieces, ih hlex.ofAnonymous]
  | handle function span => simp [Expr.pieces, Expr.render, Sign.char]
  | named name nameSpan _ span ih =>
    simp [Expr.pieces, namedPieces, Expr.render, renderNamed, ih (hlex.ofNamed _ rfl), Sign.char]
  | mark _ _ span => simp [Expr.pieces, Expr.render, Mark.chars_piece]

/-! The pieces are read off the text that they spell. -/

theorem Lexeme.nameKind_ne_string (name : String) : nameKind name ≠ .string := by
  unfold nameKind
  split
  · exact nofun
  · split_ifs <;> exact nofun

theorem legible_string (glued : Bool) {text : String} (hstarts : Lexeme.StartsString text.toList)
    (hclosed : isClosedLiteral text = true) {previous : Option Token.Kind}
    (hprevious : glued = true → previous.any Lexeme.beforeTranspose = false)
    (hrest : Lexeme.StopsAt .string rest) : Legible previous ⟨glued, .string, text⟩ rest := by
  unfold isClosedLiteral at hclosed
  generalize hchars : text.toList = chars at hstarts hclosed
  obtain @⟨quote, body, hquote, hline⟩ := hstarts
  refine ⟨⟨quote, body, hchars, by rcases hquote with rfl | rfl <;> rfl⟩, ?_, rfl, nofun⟩
  simp only [hchars]
  refine Lexeme.read_string _ _ hquote hline hclosed (fun c hc hcq => ?_) hprevious
  exact hrest c hc (hcq ▸ hquote)

namespace Expr

theorem lastKind_fieldPieces (root : String) (fields : List String) :
    Piece.lastKind (some (Lexeme.nameKind root)) (fieldPieces fields) =
      some (Lexeme.nameKind (fields.getLastD root)) := by
  induction fields generalizing root with
  | nil => rfl
  | cons field fields ih =>
    rw [List.getLastD_cons]
    exact ih field

theorem Bare.lastKind_pieces {place : Place} (h : e.Bare place) (glued : Bool)
    (previous : Option Token.Kind) :
    Piece.lastKind previous (e.pieces glued) = some e.lastKind := by
  induction h generalizing glued previous with
  | @name place use =>
    obtain ⟨root, fields, span, args, native, command⟩ := use
    cases args with
    | none => exact lastKind_fieldPieces root fields
    | some args =>
      simp [pieces, usePieces, Piece.lastKind_append, Piece.lastKind, lastKind, sign]
  | binary _ _ _ _ _ _ _ ihright => rw [pieces, Piece.lastKind_append, ihright, lastKind]
  | prefixed _ _ _ ih => exact ih true _
  | @transposed place op =>
    rw [pieces, Piece.lastKind_append, lastKind]
    cases op <;> rfl
  | matrix => simp [pieces, Piece.lastKind_append, Piece.lastKind, lastKind, sign]
  | anonymous params _ _ ih => rw [pieces, Piece.lastKind_append, ih, lastKind]
  | named name nameSpan _ _ ih => exact ih false _
  | @mark place mark =>
    cases mark <;> rfl
  | _ => rfl

/-- The pieces of an expression are read off every text that they begin. -/
def IsLegible (e : Expr) : Prop :=
  ∀ (glued : Bool) (previous : Option Token.Kind) (rest : List Char),
    (glued = true → previous.any Lexeme.beforeTranspose = false) →
      Lexeme.StopsAt e.lastKind rest → AllLegible previous (e.pieces glued) rest

end Expr

theorem stops_moreItemPieces (es : List Expr) (h : Lexeme.Stops rest) :
    Lexeme.Stops (spell (moreItemPieces es) ++ rest) := by
  cases es with
  | nil => exact h
  | cons e es =>
    rw [moreItemPieces]
    exact stops_sign true .comma nofun _ _

theorem legible_moreItemPieces (h : ∀ e ∈ es, e.IsLegible) (hrest : Lexeme.Stops rest)
    (previous : Option Token.Kind) :
    AllLegible previous (moreItemPieces es) rest := by
  induction es generalizing previous with
  | nil => trivial
  | cons e es ih =>
    obtain ⟨he, hes⟩ := List.forall_mem_cons.mp h
    refine ⟨legible_sign _ (by simp) nofun, allLegible_append.mpr ⟨he _ _ _ nofun ?_, ih hes _⟩⟩
    exact (stops_moreItemPieces es hrest).stopsAt _

theorem legible_itemPieces (h : ∀ e ∈ es, e.IsLegible) (hrest : Lexeme.Stops rest) {glued : Bool}
    {previous : Option Token.Kind}
    (hprevious : glued = true → previous.any Lexeme.beforeTranspose = false) :
    AllLegible previous (itemPieces glued es) rest := by
  cases es with
  | nil => trivial
  | cons e es =>
    obtain ⟨he, hes⟩ := List.forall_mem_cons.mp h
    refine allLegible_append.mpr ⟨he _ _ _ hprevious ?_, legible_moreItemPieces hes hrest _⟩
    exact (stops_moreItemPieces es hrest).stopsAt _

theorem stops_moreRowPieces (rows : List (List Expr)) (h : Lexeme.Stops rest) :
    Lexeme.Stops (spell (moreRowPieces rows) ++ rest) := by
  cases rows with
  | nil => exact h
  | cons row rows =>
    rw [moreRowPieces]
    exact stops_sign true .semicolon nofun _ _

theorem legible_moreRowPieces (h : ∀ row ∈ rows, ∀ e ∈ row, e.IsLegible) (hrest : Lexeme.Stops rest)
    (previous : Option Token.Kind) :
    AllLegible previous (moreRowPieces rows) rest := by
  induction rows generalizing previous with
  | nil => trivial
  | cons row rows ih =>
    obtain ⟨hrow, hrows⟩ := List.forall_mem_cons.mp h
    refine ⟨legible_sign _ (by simp) nofun, allLegible_append.mpr ⟨?_, ih hrows _⟩⟩
    exact legible_itemPieces hrow (stops_moreRowPieces rows hrest) nofun

theorem legible_rowPieces (h : ∀ row ∈ rows, ∀ e ∈ row, e.IsLegible) (hrest : Lexeme.Stops rest)
    {previous : Option Token.Kind} (hprevious : previous.any Lexeme.beforeTranspose = false) :
    AllLegible previous (rowPieces rows) rest := by
  cases rows with
  | nil => trivial
  | cons row rows =>
    obtain ⟨hrow, hrows⟩ := List.forall_mem_cons.mp h
    refine allLegible_append.mpr ⟨?_, legible_moreRowPieces hrows hrest _⟩
    exact legible_itemPieces hrow (stops_moreRowPieces rows hrest) fun _ => hprevious

/-- A point between a name and its field is not followed by another one. -/
theorem IsNameText.not_point {name : String} (h : IsNameText name) (rest : List Char) :
    ∀ c ∈ (name.toList ++ rest).head?, c ≠ '.' := by
  obtain ⟨hword, -⟩ := h
  generalize name.toList = chars at hword
  obtain @⟨c, cs, hc, -⟩ := hword
  rintro _ ⟨⟩ rfl
  exact absurd hc (by decide)

/-- Neither a point nor a stop belongs to a name. -/
theorem isNameChar_fieldPieces (fields : List String)
    (hrest : fields = [] → ∀ c ∈ rest.head?, Lexeme.isNameChar c = false) :
    ∀ c ∈ (spell (fieldPieces fields) ++ rest).head?, Lexeme.isNameChar c = false := by
  cases fields with
  | nil => exact hrest rfl
  | cons field fields =>
    rintro _ ⟨⟩
    decide

theorem legible_fieldPieces {fields : List String} (h : ∀ field ∈ fields, IsNameText field)
    (hrest : ∀ c ∈ rest.head?, Lexeme.isNameChar c = false) (previous : Option Token.Kind) :
    AllLegible previous (fieldPieces fields) rest := by
  induction fields generalizing previous with
  | nil => trivial
  | cons field fields ih =>
    obtain ⟨hfield, hfields⟩ := List.forall_mem_cons.mp h
    refine ⟨legible_sign _ (by simp) fun _ => ?_, legible_word _ hfield.isWord ?_, ih hfields _⟩
    · rw [spell_cons, chars_word, gap_true, List.nil_append, List.append_assoc]
      exact hfield.not_point _
    · exact isNameChar_fieldPieces fields fun _ => hrest

theorem legible_moreNamePieces {names : List String} (h : ∀ name ∈ names, IsNameText name)
    (hrest : Lexeme.Stops rest) (previous : Option Token.Kind) :
    AllLegible previous (moreNamePieces names) rest ∧
      Lexeme.Stops (spell (moreNamePieces names) ++ rest) := by
  induction names generalizing previous with
  | nil => exact ⟨trivial, hrest⟩
  | cons name names ih =>
    obtain ⟨hname, hnames⟩ := List.forall_mem_cons.mp h
    obtain ⟨hmore, hstops⟩ := ih hnames (some (Lexeme.nameKind name))
    rw [moreNamePieces]
    refine ⟨⟨legible_sign _ (by simp) nofun, legible_word _ hname.isWord ?_, hmore⟩, ?_⟩
    · exact hstops.stopsAt .identifier
    · exact stops_sign true .comma nofun _ _

theorem legible_namePieces {names : List String} (h : ∀ name ∈ names, IsNameText name)
    (hrest : Lexeme.Stops rest) (previous : Option Token.Kind) :
    AllLegible previous (namePieces names) rest := by
  cases names with
  | nil => trivial
  | cons name names =>
    obtain ⟨hname, hnames⟩ := List.forall_mem_cons.mp h
    obtain ⟨hmore, hstops⟩ := legible_moreNamePieces hnames hrest (some (Lexeme.nameKind name))
    exact ⟨legible_word _ hname.isWord (hstops.stopsAt .identifier), hmore⟩

/-- What is legible before every stop is legible in brackets. -/
theorem legible_closed (group : Group) {glued : Bool} {items : List Piece}
    (h : ∀ rest, Lexeme.Stops rest → AllLegible (some (.sign group.opening)) items rest)
    (rest : List Char) (previous : Option Token.Kind) :
    AllLegible previous (.sign glued group.opening :: (items ++ [.sign true group.closing])) rest := by
  have hopening : group.opening ≠ .percent ∧ group.opening ≠ .period := by cases group <;> decide
  have hclosing : group.closing ≠ .percent ∧ group.closing ≠ .period := by cases group <;> decide
  refine ⟨legible_sign _ (fun heq => absurd heq hopening.1) (fun heq => absurd heq hopening.2), ?_⟩
  refine allLegible_append.mpr ⟨h _ ?_, ?_, trivial⟩
  · exact stops_sign true _ (fun heq => absurd heq hclosing.2) _ _
  · exact legible_sign _ (fun heq => absurd heq hclosing.1) (fun heq => absurd heq hclosing.2)

theorem legible_paramPieces {params : List String} (h : ∀ param ∈ params, IsNameText param)
    (glued : Bool) (rest : List Char) (previous : Option Token.Kind) :
    AllLegible previous (paramPieces glued params) rest := by
  refine ⟨legible_sign _ (by simp) nofun, legible_closed .paren (fun rest hrest => ?_) _ _⟩
  exact legible_namePieces h hrest _

theorem BinaryOp.stops_pieces (op : BinaryOp) (rest : List Char) :
    Lexeme.Stops (spell op.pieces ++ rest) := by
  rw [op.spell_pieces, List.append_assoc]
  cases op <;> (rintro _ ⟨⟩; decide)

theorem BinaryOp.legible_pieces (op : BinaryOp) {kind : Token.Kind}
    (h : op = .modulus → Lexeme.beforeModulus kind = true) (rest : List Char) :
    AllLegible (some kind) op.pieces rest := by
  have hsign (glued : Bool) {s : Sign} (hs : s ≠ .percent ∧ s ≠ .period)
      {previous : Option Token.Kind} (rest : List Char) : (Piece.sign glued s).Legible previous rest :=
    legible_sign glued (fun heq => absurd heq hs.1) (fun heq => absurd heq hs.2)
  have hpoint {s : Sign} (hs : s ≠ .percent ∧ s ≠ .period) :
      AllLegible (some kind) [Piece.sign false .period, Piece.sign true s] rest := by
    refine ⟨legible_sign _ (by simp) fun _ c hc => ?_, hsign _ hs _, trivial⟩
    obtain rfl : s.char = c := by simpa using hc
    cases s <;> simp_all [Sign.char]
  cases op with
  | elementMultiply | elementDivide | elementLeftDivide | elementPower => exact hpoint (by decide)
  | modulus => exact ⟨legible_sign _ (fun _ => h rfl) (by simp), trivial⟩
  | orElse | andThen | equal | unequalTilde | unequalBang | lessEqual | greaterEqual =>
    exact ⟨hsign _ (by decide) _, hsign _ (by decide) _, trivial⟩
  | _ => exact ⟨hsign _ (by decide) _, trivial⟩

theorem stopsAt_nameKind {name : String} (h : IsNameText name)
    (hrest : Lexeme.StopsAt (Lexeme.nameKind name) rest) :
    ∀ c ∈ rest.head?, Lexeme.isNameChar c = false := by
  have hname := h.isName
  cases hkind : Lexeme.nameKind name with
  | identifier | native =>
    rw [hkind] at hrest
    exact hrest
  | _ =>
    rw [hkind] at hname
    contradiction

theorem IsNameText.beforeTranspose {name : String} (h : IsNameText name) :
    Lexeme.beforeTranspose (Lexeme.nameKind name) = true := by
  have hname := h.isName
  cases hkind : Lexeme.nameKind name with
  | identifier | native => rfl
  | _ =>
    rw [hkind] at hname
    contradiction

theorem isNameText_getLastD {root : String} {fields : List String} (hroot : IsNameText root)
    (hfields : ∀ field ∈ fields, IsNameText field) : IsNameText (fields.getLastD root) := by
  rcases List.mem_cons.mp (List.getLastD_mem_cons) with hmem | hmem
  · rwa [hmem]
  · exact hfields _ hmem

namespace Expr

/-- Behind what takes a transpose, a quote is one. -/
theorem beforeTranspose_of_takesTranspose (hlex : e.Lexical)
    (h : e.takesTranspose .conjugate = true) : Lexeme.beforeTranspose e.lastKind = true := by
  cases e with
  | name use =>
    obtain ⟨hroot, hfields, -⟩ := hlex.head
    obtain ⟨root, fields, span, args, native, command⟩ := use
    cases args with
    | none => exact (isNameText_getLastD hroot hfields).beforeTranspose
    | some args => rfl
  | number | transposed => rfl
  | matrix kind => cases kind <;> rfl
  | handle function => exact IsNameText.beforeTranspose hlex.head
  | _ => contradiction

theorem lastKind_ne_string_of_takesTranspose (h : e.takesTranspose .conjugate = true) :
    e.lastKind ≠ .string := by
  cases e with
  | name use =>
    obtain ⟨root, fields, span, args, native, command⟩ := use
    cases args with
    | none => exact Lexeme.nameKind_ne_string _
    | some args => exact nofun
  | number | transposed => exact nofun
  | matrix kind => cases kind <;> exact nofun
  | handle function => exact Lexeme.nameKind_ne_string _
  | _ => contradiction

end Expr

theorem TransposeOp.stopsAt_pieces (op : TransposeOp) {kind : Token.Kind}
    (h : op = .conjugate → kind ≠ .string) (rest : List Char) :
    Lexeme.StopsAt kind (spell op.pieces ++ rest) := by
  have hquote : Lexeme.isNameChar Lexeme.quoteMark = false ∧ Text.isDigit Lexeme.quoteMark = false ∧
      Lexeme.isExponentMark Lexeme.quoteMark = false := by decide
  have hpoint : Lexeme.isNameChar '.' = false ∧ Text.isDigit '.' = false ∧
      Lexeme.isExponentMark '.' = false ∧ '.' ≠ Lexeme.quoteMark ∧ '.' ≠ Lexeme.doubleQuoteMark := by
    decide
  cases op with
  | conjugate =>
    change Lexeme.StopsAt kind (Lexeme.quoteMark :: rest)
    cases kind <;> simp_all [Lexeme.StopsAt]
    rintro d ds ⟨⟩
  | plain =>
    change Lexeme.StopsAt kind ('.' :: Lexeme.quoteMark :: rest)
    cases kind <;> simp_all [Lexeme.StopsAt, Lexeme.IsQuote]

theorem TransposeOp.legible_pieces (op : TransposeOp) {kind : Token.Kind}
    (h : op = .conjugate → Lexeme.beforeTranspose kind = true) (rest : List Char) :
    AllLegible (some kind) op.pieces rest := by
  cases op with
  | conjugate => exact ⟨legible_transpose (h rfl) _, trivial⟩
  | plain =>
    refine ⟨legible_sign _ (by simp) fun _ => ?_, legible_transpose rfl _, trivial⟩
    rintro _ ⟨⟩
    decide

theorem Expr.Bare.isLegible {place : Place} (h : e.Bare place) (hlex : e.Lexical) :
    e.IsLegible := by
  induction h with
  | @name place use hargs ih =>
    intro glued previous rest hprevious hrest
    obtain ⟨hroot, hfields, -⟩ := hlex.head
    obtain ⟨root, fields, span, args, native, command⟩ := use
    cases args with
    | none =>
      have hlast := stopsAt_nameKind (isNameText_getLastD hroot hfields) hrest
      refine ⟨legible_word _ hroot.isWord ?_, legible_fieldPieces hfields hlast _⟩
      exact isNameChar_fieldPieces fields fun _ => hlast
    | some args =>
      have hargs : ∀ e ∈ args, e.IsLegible := fun e he => ih args rfl e he (hlex.ofName args rfl e he)
      have hopen : ∀ c ∈ (spell (Piece.sign true .openParen :: (itemPieces true args ++
          [Piece.sign true .closeParen])) ++ rest).head?, Lexeme.isNameChar c = false :=
        (stops_sign true .openParen nofun _ _).stopsAt .identifier
      refine ⟨legible_word _ hroot.isWord ?_, allLegible_append.mpr ⟨?_, ?_⟩⟩
      · rw [spell_append, List.append_assoc]
        exact isNameChar_fieldPieces fields fun _ => hopen
      · exact legible_fieldPieces hfields hopen _
      · exact legible_closed .paren (fun rest hrest => legible_itemPieces hargs hrest fun _ => rfl) _ _
  | number text span =>
    intro glued previous rest _ hrest
    exact ⟨legible_number _ hlex.head hrest, trivial⟩
  | string htext span =>
    intro glued previous rest hprevious hrest
    exact ⟨legible_string _ hlex.head htext hprevious hrest, trivial⟩
  | @binary place op left right hleft hright hedge hlevel hmodulus span ihleft ihright =>
    intro glued previous rest hprevious hrest
    have hstops := op.stops_pieces (spell (right.pieces op.isTight) ++ rest)
    refine allLegible_append.mpr ⟨allLegible_append.mpr ⟨?_, ?_⟩, ?_⟩
    · exact ihleft hlex.left _ _ _ hprevious (hstops.stopsAt _)
    · rw [hleft.lastKind_pieces]
      exact op.legible_pieces hmodulus _
    · refine ihright hlex.right _ _ _ (fun htight => ?_) hrest
      rw [beq_iff_eq.mp htight, Piece.lastKind_append]
      rfl
  | @prefixed place op operand h hlevel span ih =>
    intro glued previous rest hprevious hrest
    have hsign : op.sign ≠ .percent ∧ op.sign ≠ .period := by cases op <;> decide
    refine ⟨legible_sign _ (fun h => absurd h hsign.1) (fun h => absurd h hsign.2), ?_⟩
    refine ih hlex.ofPrefixed _ _ _ (fun _ => ?_) hrest
    cases op <;> rfl
  | @transposed place op operand h htakes span ih =>
    intro glued previous rest hprevious hrest
    refine allLegible_append.mpr ⟨ih hlex.ofTransposed _ _ _ hprevious ?_, ?_⟩
    · exact op.stopsAt_pieces (fun hop => lastKind_ne_string_of_takesTranspose (hop ▸ htakes)) _
    · rw [h.lastKind_pieces]
      refine op.legible_pieces (fun hop => ?_) _
      exact beforeTranspose_of_takesTranspose hlex.ofTransposed (hop ▸ htakes)
  | @matrix place kind rows h hstart span ih =>
    intro glued previous rest hprevious hrest
    have hrows : ∀ row ∈ rows, ∀ e ∈ row, e.IsLegible :=
      fun row hrow e he => ih row hrow e he (hlex.ofMatrix row hrow e he)
    refine legible_closed (Group.ofMatrix kind) (fun rest hrest => legible_rowPieces hrows hrest ?_) _ _
    cases kind <;> rfl
  | @anonymous place body params h span ih =>
    intro glued previous rest hprevious hrest
    refine allLegible_append.mpr ⟨legible_paramPieces hlex.head _ _ _, ?_⟩
    exact ih hlex.ofAnonymous _ _ _ nofun hrest
  | handle function span =>
    intro glued previous rest hprevious hrest
    refine ⟨legible_sign _ (by simp) nofun, legible_word _ hlex.head.isWord ?_, trivial⟩
    exact stopsAt_nameKind hlex.head hrest
  | @named value name nameSpan h span ih =>
    intro glued previous rest hprevious hrest
    refine ⟨legible_word _ hlex.head.isWord ?_, legible_sign _ (by simp) nofun, ?_⟩
    · exact (stops_sign false .equals nofun _ _).stopsAt .identifier
    · exact ih (hlex.ofNamed _ rfl) _ _ _ nofun hrest
  | @mark place mark hplace hmark span =>
    intro glued previous rest hprevious hrest
    cases mark with
    | whole => exact ⟨legible_sign _ (by simp) nofun, trivial⟩
    | last =>
      have hend : Lexeme.IsWord "end".toList := .mk rfl (List.all_eq_true.mp rfl)
      exact ⟨legible_word _ hend hrest, trivial⟩
    | ignored => contradiction

end MatrixScript
