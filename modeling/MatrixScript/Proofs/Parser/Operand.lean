import MatrixScript.Proofs.Parser.Following
import MatrixScript.Proofs.Syntax.Unplaced

/-! Parsing the parts of written expressions: names with their arguments, literals in rows, and functions
without a name. -/
namespace MatrixScript.Parser

open Piece

variable {s : State} {gas : Nat} {glued : Bool} {span : Span} {kind : MatrixKind}
  {ps qs : List Piece}

/-- The value is this expression, up to places. -/
def IsRead (e : Expr) (value : Option Expr) : Prop :=
  ∃ e', value = some e' ∧ e'.unplaced = e.unplaced

/-- The expression is ahead, with the pieces `qs` behind it. -/
structure Ahead (s : State) (place : Expr.Place) (e : Expr) (glued : Bool) (qs : List Piece) :
    Prop where
  not_argument : place ≠ .argument
  bare : e.Bare place
  lexical : e.Lexical
  groups : place ≠ .outside → s.groups ≠ []
  starts : s.Starts (e.pieces glued ++ qs)

/-- The parser reads all expressions of fewer than `n` pieces, with what is behind them. -/
def SubReads (sub : SubParser) (n : Nat) : Prop :=
  ∀ {s : State} {place : Expr.Place} {e : Expr} {glued : Bool} {qs : List Piece} {least : Nat},
    Ahead s place e glued qs → (e.pieces glued ++ qs).length < n → least < e.level →
      Follows qs (min least e.edge) → Yields s qs (IsRead e) (sub least s)

theorem SubReads.toCloser {sub : SubParser} {n : Nat} (hsub : SubReads sub n) {place : Expr.Place}
    {e : Expr} (h : Ahead s place e glued qs) (hlength : (e.pieces glued ++ qs).length < n)
    (hqs : isCloser (kindAt qs 0) = true) :
    Yields s qs (IsRead e) (sub 0 s) :=
  hsub h hlength e.level_pos (.of_isCloser hqs _)

theorem beq_of_isCloser {kind kind' : Token.Kind} (h : isCloser kind = false)
    (h' : isCloser kind' = true) : (kind == kind') = false := by
  rw [beq_eq_false_iff_ne]
  rintro rfl
  rw [h] at h'
  contradiction

theorem isCloser_closing (group : Group) : isCloser (.sign group.closing) = true := by
  cases group <;> rfl

theorem isNewlineOrEnd_of_isCloser {kind : Token.Kind} (h : isCloser kind = false) :
    isNewlineOrEnd kind = false := by
  cases kind with
  | newline | eof => contradiction
  | _ => rfl

theorem isCloser_moreItemPieces (es : List Expr) (group : Group) (qs : List Piece) :
    isCloser (kindAt (moreItemPieces es ++ .sign true group.closing :: qs) 0) = true := by
  cases es with
  | nil => exact isCloser_closing group
  | cons e es => rfl

section

variable {sub : SubParser} {n : Nat}

theorem yields_namedValue (hsub : SubReads sub n) {name : String} {nameSpan : Span} {value : Expr}
    (hbare : value.Bare .bracketed) (hlex : value.Lexical) (hgroups : s.groups ≠ [])
    (h : s.Starts (.word glued name :: .sign false .equals :: (value.pieces false ++ qs)))
    (hlength : (value.pieces false ++ qs).length < n) (hqs : isCloser (kindAt qs 0) = true) :
    Yields s qs (fun x => (Expr.named x).unplaced =
      (Expr.named ⟨name, nameSpan, some value, span⟩).unplaced) (parseNamedValue sub s) := by
  unfold parseNamedValue
  refine .next h fun s₁ h₁ hsame₁ _ => .next h₁.starts fun s₂ h₂ hsame₂ _ => ?_
  have hopen : s₂.groups ≠ [] := by rwa [hsame₂.groups, hsame₁.groups]
  have hahead : Ahead s₂ .bracketed value false qs :=
    ⟨by decide, hbare, hlex, fun _ => hopen, h₂.starts⟩
  refine .bind (hsub.toCloser hahead hlength hqs) ?_
  rintro _ s₃ h₃ - ⟨value', rfl, hvalue⟩
  refine .bind (.expectValue h₃ rfl) fun _ s₄ h₄ _ _ => .pure h₄ ?_
  have hname : s.current.text = name := h.current_text
  simp [hname, hvalue]

theorem yields_argument (hsub : SubReads sub n) {e : Expr} (hbare : e.Bare .argument)
    (hlex : e.Lexical) (hgroups : s.groups ≠ []) (h : s.Starts (e.pieces glued ++ qs))
    (hlength : (e.pieces glued ++ qs).length < n) (hqs : isCloser (kindAt qs 0) = true)
    (group : Group) (stop : Position) :
    Yields s qs (fun x => IsRead e x.1) (parseArgument sub group stop s) := by
  unfold parseArgument
  refine .read rfl (.read rfl (.read rfl ?_))
  rcases hbare.argument_cases with ⟨name, nameSpan, value, span, rfl, hvalue⟩ | hbare
  · have hname := hlex.head.isName
    have hlexical : value.Lexical := hlex.ofNamed value rfl
    obtain ⟨q, ps, hpieces, hfront⟩ := hvalue.front hlexical false
    have hnamed : startsNamed ((Expr.named ⟨name, nameSpan, some value, span⟩).pieces glued ++ qs) =
        true := by
      simp [Expr.pieces, namedPieces, startsNamed, assignsNext, kindAt, hpieces, hfront.glued_eq,
        hname, word, sign]
    refine .yes (by rwa [isNamedValue_eq h]) ?_
    refine .bind (yields_namedValue hsub hvalue hlexical hgroups h ?_ hqs)
      fun x s' h' _ hx => .pure h' ⟨_, rfl, hx⟩
    simp only [Expr.pieces, namedPieces, List.cons_append, List.length_cons] at hlength
    omega
  · have hnamed : startsNamed (e.pieces glued ++ qs) = false :=
      startsNamed_pieces hbare (by decide) hlex (assignsNext_of_isCloser hqs)
    refine .no (by rw [isNamedValue_eq h, hnamed]; decide) (.read rfl ?_)
    have hahead : Ahead s .bracketed e glued qs := ⟨by decide, hbare, hlex, fun _ => hgroups, h⟩
    refine .bind (hsub.toCloser hahead hlength hqs) ?_
    rintro _ s' h' - ⟨e', rfl, he⟩
    exact .pure h' ⟨e', rfl, he⟩

theorem yields_argumentsEnd {group : Group} (h : s.Starts (.sign true group.closing :: qs))
    (hgas : 0 < gas) (args : List Expr) (stop : Position) :
    Yields s qs (fun x => x.1 = args.reverse) (parseArgumentsFrom sub group span gas args stop s) := by
  obtain ⟨gas, rfl⟩ := Nat.exists_eq_succ_of_ne_zero (Nat.ne_of_gt hgas)
  rw [parseArgumentsFrom]
  refine .read rfl (.yes ?_ (.next h fun s' h' _ _ => .pure h' rfl))
  rw [h.current_kind]
  exact beq_self_eq_true _

/-- The loop of arguments reads what is written, through the closing bracket. -/
theorem yields_arguments (hsub : SubReads sub n) {group : Group} {es : List Expr}
    (hbare : ∀ e ∈ es, e.Bare .argument) (hlex : ∀ e ∈ es, e.Lexical) (hgroups : s.groups ≠ [])
    (h : s.Starts (itemPieces glued es ++ .sign true group.closing :: qs))
    (hlength : (itemPieces glued es ++ .sign true group.closing :: qs).length < n)
    (hgas : (itemPieces glued es ++ .sign true group.closing :: qs).length < gas) (args : List Expr)
    (stop : Position) :
    Yields s qs (fun x => x.1.map Expr.unplaced = (args.reverse ++ es).map Expr.unplaced)
      (parseArgumentsFrom sub group span gas args stop s) := by
  induction es generalizing s glued gas args stop with
  | nil =>
    refine (yields_argumentsEnd h (Nat.zero_lt_of_lt hgas) args stop).mono ?_
    intro x hx
    rw [hx, List.append_nil]
  | cons e es ih =>
    obtain ⟨gas, rfl⟩ := Nat.exists_eq_succ_of_ne_zero (Nat.ne_of_gt (Nat.zero_lt_of_lt hgas))
    obtain ⟨hbare₁, hbare⟩ := List.forall_mem_cons.mp hbare
    obtain ⟨hlex₁, hlex⟩ := List.forall_mem_cons.mp hlex
    obtain ⟨p, ps, hpieces, hfront⟩ := hbare₁.front hlex₁ glued
    rw [itemPieces, List.append_assoc] at h hlength hgas
    have hkind : isCloser s.current.kind = false := by
      rw [h.current_kind, hpieces]
      exact hfront.isCloser_eq
    rw [parseArgumentsFrom]
    refine .read rfl (.no ?_ (.read rfl (.no ?_ ?_)))
    · simp [beq_of_isCloser hkind (isCloser_closing group)]
    · simp [isNewlineOrEnd_of_isCloser hkind]
    refine .bind (yields_argument hsub hbare₁ hlex₁ hgroups h hlength
      (isCloser_moreItemPieces es group qs) group stop) ?_
    rintro ⟨_, stop'⟩ s₁ h₁ hsame₁ ⟨e', rfl, he⟩
    rw [hpieces] at hlength hgas
    cases es with
    | nil =>
      refine .acceptNo h₁.starts (by cases group <;> rfl) (.no Bool.false_ne_true (.read rfl (.yes ?_ ?_)))
      · rw [h₁.starts.current_kind]
        simp [moreItemPieces, kindAt, sign]
      have hpos : 0 < gas := by simp at hgas; omega
      refine (yields_argumentsEnd h₁.starts hpos (e' :: args) stop').mono ?_
      intro x hx
      simp [hx, he]
    | cons e₂ es =>
      refine .acceptYes h₁.starts rfl fun s₂ h₂ hsame₂ => .yes rfl ?_
      have hopen : s₂.groups ≠ [] := by rwa [hsame₂.groups, hsame₁.groups]
      simp only [moreItemPieces, List.cons_append, List.length_cons, List.length_append] at hlength hgas
      have hmore : (itemPieces false (e₂ :: es) ++ .sign true group.closing :: qs).length =
          (e₂.pieces false).length + (moreItemPieces es).length + qs.length + 1 := by
        simp [itemPieces]
        omega
      refine (ih hbare hlex hopen h₂.starts (by omega) (by omega) (e' :: args) stop').mono ?_
      intro x hx
      simp [hx, he]

theorem yields_argumentList (hsub : SubReads sub n) {es : List Expr}
    (hbare : ∀ e ∈ es, e.Bare .argument) (hlex : ∀ e ∈ es, e.Lexical)
    (h : s.Starts (.sign true .openParen :: (itemPieces true es ++ .sign true .closeParen :: qs)))
    (hlength : (itemPieces true es ++ .sign true .closeParen :: qs).length < n)
    (hgas : (itemPieces true es ++ .sign true .closeParen :: qs).length < gas) :
    Yields s qs (fun x => x.1.map Expr.unplaced = es.map Expr.unplaced)
      (parseArguments gas sub .paren s) := by
  refine .next h fun s' h' _ _ => .inside ?_
  have hstarts : State.Starts { s' with groups := .paren :: s'.groups }
      (itemPieces true es ++ .sign true Group.paren.closing :: qs) := ⟨h'.eof_kind, h'.fits.weaken⟩
  exact yields_arguments hsub hbare hlex (List.cons_ne_nil _ _) hstarts hlength hgas [] _

/-! Names with their fields and arguments. -/

theorem isField_of_glued {field : String}
    (h : s.Sees (.sign true .period :: .word true field :: ps)) (hname : IsNameText field) :
    isField s.previous s.current (s.ahead 1) = true := by
  have hpoint : s.current.kind = .sign .period := h.starts.current_kind
  have hfield : (s.ahead 1).kind = Lexeme.nameKind field := h.starts.kind_ahead 1
  have hbefore : s.previous.adjacent s.current = true := h.adjacent_previous
  have hbehind : s.current.adjacent (s.ahead 1) = true := h.starts.adjacent
  simp [isField, Token.is, Token.isName, hpoint, hfield, hbefore, hbehind, hname.isName]

theorem parseNameFrom_end {listGas : Nat} (hgas : 0 < gas) (h : s.Starts qs)
    (hends : endsName (kindAt qs 0) (kindAt qs 1) = true) (use : NameUse Expr) :
    parseNameFrom listGas sub gas use s = (use, s) := by
  obtain ⟨gas, rfl⟩ := Nat.exists_eq_succ_of_ne_zero (Nat.ne_of_gt hgas)
  rw [← h.current_kind, ← h.kind_ahead 1] at hends
  exact parseNameFrom_stop hends listGas gas use

theorem yields_fields {listGas : Nat} {fields : List String}
    (hfields : ∀ field ∈ fields, IsNameText field) {Q : NameUse Expr → Prop}
    (h : s.Sees (fieldPieces fields ++ ps)) (hgas : (fieldPieces fields ++ ps).length < gas)
    (use : NameUse Expr) (hnext : ∀ s' gas' span, s'.Sees ps → Same s s' → ps.length < gas' →
      Yields s' qs Q (parseNameFrom listGas sub gas'
        { use with fields := use.fields ++ fields, span := span } s')) :
    Yields s qs Q (parseNameFrom listGas sub gas use s) := by
  induction fields generalizing s gas use with
  | nil => simpa using hnext s gas use.span h (.refl s) hgas
  | cons field fields ih =>
    obtain ⟨gas, rfl⟩ := Nat.exists_eq_succ_of_ne_zero (Nat.ne_of_gt (Nat.zero_lt_of_lt hgas))
    obtain ⟨hfield, hfields⟩ := List.forall_mem_cons.mp hfields
    rw [parseNameFrom]
    refine .read rfl (.read rfl (.read rfl (.yes (isField_of_glued h hfield) ?_)))
    refine .next h.starts fun s₁ h₁ hsame₁ _ => .next h₁.starts fun s₂ h₂ hsame₂ _ => ?_
    refine ih hfields h₂ (by simp [fieldPieces] at hgas ⊢; omega) _ fun s' gas' span h' hsame' hgas' => ?_
    have htext : s₁.current.text = field := h₁.starts.current_text
    have hresult := hnext s' gas' span h' ((hsame₁.trans hsame₂).trans hsame') hgas'
    rw [htext]
    simpa using hresult

theorem yields_call (hsub : SubReads sub n) {listGas : Nat} {es : List Expr}
    (hbare : ∀ e ∈ es, e.Bare .argument) (hlex : ∀ e ∈ es, e.Lexical)
    (h : s.Sees (.sign true .openParen :: (itemPieces true es ++ .sign true .closeParen :: qs)))
    (hends : endsName (kindAt qs 0) (kindAt qs 1) = true)
    (hlength : (itemPieces true es ++ .sign true .closeParen :: qs).length < n)
    (hlist : (itemPieces true es ++ .sign true .closeParen :: qs).length < listGas)
    (hgas : (itemPieces true es ++ .sign true .closeParen :: qs).length < gas) (use : NameUse Expr)
    (hargs : use.args = none) :
    Yields s qs (fun use' => use'.unplaced = { use with args := some es }.unplaced)
      (parseNameFrom listGas sub gas use s) := by
  obtain ⟨gas, rfl⟩ := Nat.exists_eq_succ_of_ne_zero (Nat.ne_of_gt (Nat.zero_lt_of_lt hgas))
  have hkind : s.current.kind = .sign .openParen := h.starts.current_kind
  have hadjacent : s.previous.adjacent s.current = true := h.adjacent_previous
  have hnofield : isField s.previous s.current (s.ahead 1) = false := by
    simp [isField, Token.is, hkind]
  rw [parseNameFrom]
  refine .read rfl (.read rfl (.read rfl (.no (by rw [hnofield]; exact Bool.false_ne_true) ?_)))
  rw [hkind]
  refine .read rfl (.no (by simp [hadjacent]) ?_)
  refine .bind (yields_argumentList hsub hbare hlex h.starts hlength hlist) ?_
  rintro ⟨args, stop⟩ s' h' - hread
  have hpos : 0 < gas := by simp at hgas; omega
  change Yields s' qs _ (parseNameFrom listGas sub gas _ s')
  rw [parseNameFrom_end hpos h'.starts hends]
  refine .pure h' ?_
  have hread : args.map Expr.unplaced = es.map Expr.unplaced := hread
  simp [NameUse.unplaced, hargs, hread]

theorem yields_name (hsub : SubReads sub n) {use : NameUse Expr} {place : Expr.Place}
    (hbare : (Expr.name use).Bare place) (hlex : (Expr.name use).Lexical)
    (h : s.Starts (usePieces glued use ++ qs)) (hends : endsName (kindAt qs 0) (kindAt qs 1) = true)
    (hlength : (usePieces glued use ++ qs).length ≤ n)
    (hgas : (usePieces glued use ++ qs).length < gas) :
    Yields s qs (fun use' => use'.unplaced = use.unplaced) (parseName gas sub s) := by
  obtain ⟨-, hfields, hnative, hcommand⟩ := hlex.head
  have hargsLexical := hlex.ofName
  cases hbare with
  | name hargs =>
    obtain ⟨root, fields, span, args, native, command⟩ := use
    dsimp only at hfields hnative hcommand hargs hargsLexical
    cases args with
    | none =>
      have hroot : s.current.text = root := h.current_text
      have hkind : s.current.kind = Lexeme.nameKind root := h.current_kind
      refine .next h fun s₁ h₁ hsame₁ _ => ?_
      refine yields_fields hfields h₁ (by simp [usePieces] at hgas ⊢; omega) _ ?_
      intro s' gas' span' h' _ hgas'
      rw [parseNameFrom_end (Nat.zero_lt_of_lt hgas') h'.starts hends]
      exact .pure h' (by simp [NameUse.unplaced, hroot, hkind, hnative, hcommand])
    | some args =>
      simp only [usePieces, List.cons_append, List.append_assoc, List.nil_append] at h hlength hgas
      have hroot : s.current.text = root := h.current_text
      have hkind : s.current.kind = Lexeme.nameKind root := h.current_kind
      refine .next h fun s₁ h₁ hsame₁ _ => ?_
      refine yields_fields hfields h₁ (by simp at hgas ⊢; omega) _ ?_
      intro s' gas' span' h' _ hgas'
      refine (yields_call hsub (hargs args rfl) (hargsLexical args rfl) h' hends ?_ ?_ ?_ _ rfl).mono ?_
      · simp at hlength ⊢; omega
      · simp at hgas ⊢; omega
      · simp at hgas' ⊢; omega
      intro use' huse'
      rw [huse']
      simp [NameUse.unplaced, hroot, hkind, hnative, hcommand]

/-! Literals in rows. -/

theorem atMatrixEnd_eq_false (heof : (s.current.kind == .eof) = false)
    (hnewline : (s.current.kind == .newline) = false)
    (hkeyword : s.current.kind.isKeyword = false) :
    atMatrixEnd s = (false, s) := by
  have hline : keywordOnNextLine s = false := by
    unfold keywordOnNextLine
    cases hrest : s.rest with
    | nil => rfl
    | cons t ts =>
      have ht : (t.kind == .newline) = false := by rwa [State.current, hrest] at hnewline
      simp [ht]
  simp [atMatrixEnd, heof, hkeyword, hline]

/-- What can be written as the elements of a literal. -/
def IsElement (e : Expr) : Prop :=
  e.Bare .bracketed ∧ e.Lexical ∧ e.startsWithEnd = false

/-! The rounds of the loop over a literal. -/

/-- The loop goes over a comma behind an element. -/
theorem yields_comma {Q : MatrixRows → Prop} (h : s.Starts (.sign true .comma :: ps))
    {m : MatrixRows} (hm : m.expectsElement = false) (hnext : ∀ s', s'.Sees ps → Same s s' →
      Yields s' qs Q (parseMatrixFrom sub kind span gas { m with expectsElement := true } s')) :
    Yields s qs Q (parseMatrixFrom sub kind span (gas + 1) m s) := by
  have hcomma : s.current.kind = .sign .comma := h.current_kind
  have hend : atMatrixEnd s = (false, s) :=
    atMatrixEnd_eq_false (by rw [hcomma]; rfl) (by rw [hcomma]; rfl) (by rw [hcomma]; rfl)
  rw [parseMatrixFrom]
  refine .read rfl (.no ?_ (.read hend (.no Bool.false_ne_true ?_)))
  · rw [hcomma]
    cases kind <;> decide
  refine .acceptNo h rfl (.no Bool.false_ne_true (.read rfl (.yes (by rw [hcomma]; rfl) ?_)))
  refine .next h fun s' h' hsame _ => .no (by simp [hm]) (.returns ?_)
  exact hnext s' h' hsame

/-- The loop reads an element. -/
theorem yields_element {p : Piece} {rs : List Piece} {Q : MatrixRows → Prop} {e : Expr}
    {m : MatrixRows} (h : s.Starts (p :: ps)) (hcloser : isCloser p.kind = false)
    (hkeyword : p.kind.isKeyword = false) (hread : Yields s rs (IsRead e) (sub 0 s))
    (hnext : ∀ s' e', s'.Sees rs → Same s s' → e'.unplaced = e.unplaced →
      Yields s' qs Q (parseMatrixFrom sub kind span gas (m.push e') s')) :
    Yields s qs Q (parseMatrixFrom sub kind span (gas + 1) m s) := by
  have hkind : s.current.kind = p.kind := h.current_kind
  have hclosing : (p.kind == .sign (Group.ofMatrix kind).closing) = false :=
    beq_of_isCloser hcloser (isCloser_closing _)
  have hsemicolon : (p.kind == .sign .semicolon) = false := beq_of_isCloser hcloser rfl
  have hcomma : (p.kind == .sign .comma) = false := beq_of_isCloser hcloser rfl
  have hnewline : (p.kind == .newline) = false := beq_of_isCloser hcloser rfl
  have hend : atMatrixEnd s = (false, s) := by
    refine atMatrixEnd_eq_false ?_ (by rw [hkind, hnewline]) (by rw [hkind, hkeyword])
    rw [hkind]
    exact beq_of_isCloser hcloser rfl
  rw [parseMatrixFrom]
  refine .read rfl (.no (by simp [hkind, hclosing]) (.read hend (.no Bool.false_ne_true ?_)))
  refine .acceptNo h (by rw [← h.current_kind, hkind, hsemicolon, hnewline]; rfl) ?_
  refine .no Bool.false_ne_true (.read rfl (.no (by simp [hkind, hcomma]) (.read rfl ?_)))
  refine .bind hread ?_
  rintro _ s₁ h₁ hsame ⟨e', rfl, he⟩
  exact hnext s₁ e' h₁ hsame he

/-- The loop goes from one row to the next. -/
theorem yields_rowEnd {p : Piece} {Q : MatrixRows → Prop} {m : MatrixRows} (h : s.Starts (p :: ps))
    (hp : p.kind = .sign .semicolon ∨ p.kind = .newline) (hend : atMatrixEnd s = (false, s))
    (hnext : ∀ s', s'.Sees ps → Same s s' →
      Yields s' qs Q (parseMatrixFrom sub kind span gas m.endRow s')) :
    Yields s qs Q (parseMatrixFrom sub kind span (gas + 1) m s) := by
  have hkind : s.current.kind = p.kind := h.current_kind
  have hclosing : (p.kind == .sign (Group.ofMatrix kind).closing) = false := by
    rcases hp with hp | hp <;> rw [hp] <;> cases kind <;> rfl
  rw [parseMatrixFrom]
  refine .read rfl (.no (by simp [hkind, hclosing]) (.read hend (.no Bool.false_ne_true ?_)))
  refine .acceptYes h (by rcases hp with hp | hp <;> rw [hp] <;> rfl) ?_
  intro s' h' hsame
  exact .yes rfl (.returns (hnext s' h' hsame))

/-- The loop ends at the closing bracket. -/
theorem yields_closing (h : s.Starts (.sign glued (Group.ofMatrix kind).closing :: qs))
    (m : MatrixRows) :
    Yields s qs (fun m' => m'.toRows = m.toRows) (parseMatrixFrom sub kind span (gas + 1) m s) := by
  rw [parseMatrixFrom]
  refine .read rfl (.yes ?_ (.next h fun s' h' _ _ => .pure h' rfl))
  rw [h.current_kind]
  exact beq_self_eq_true _

/-! Rows, whatever their elements are written like. -/

/-- In a literal, the loop reads a row of these elements where the pieces `ps` are ahead, and goes on
behind them. The parser of elements can have fewer than `n` pieces ahead. -/
def ReadsRow (sub : SubParser) (n : Nat) (kind : MatrixKind) (span : Span) (ps : List Piece)
    (row : List Expr) : Prop :=
  ∀ {s : State} {rs qs : List Piece} {Q : MatrixRows → Prop} {gas : Nat} (m : MatrixRows),
    s.groups.head? = some (Group.ofMatrix kind) → isCloser (kindAt rs 0) = true →
    s.Starts (ps ++ rs) → (ps ++ rs).length < n → (ps ++ rs).length < gas →
    (∀ s' gas' m', s'.Sees rs → Same s s' → rs.length < gas' → m'.rows = m.rows →
      m'.row.reverse.map Expr.unplaced = (m.row.reverse ++ row).map Expr.unplaced →
        Yields s' qs Q (parseMatrixFrom sub kind span gas' m' s')) →
    Yields s qs Q (parseMatrixFrom sub kind span gas m s)

/-- A row behind the first one: the piece that ends the row before it, and its own pieces. -/
structure LaterRow where
  ending : Piece
  pieces : List Piece
  row : List Expr

structure LaterRow.Reads (r : LaterRow) (sub : SubParser) (n : Nat) (kind : MatrixKind)
    (span : Span) : Prop where
  ends : r.ending.kind = .sign .semicolon ∨ r.ending.kind = .newline
  goesOn : ∀ {s : State} {rs : List Piece}, s.Starts (r.ending :: (r.pieces ++ rs)) →
    atMatrixEnd s = (false, s)
  ne_nil : r.row ≠ []
  reads : ReadsRow sub n kind span r.pieces r.row

def laterPieces (rows : List LaterRow) : List Piece :=
  rows.flatMap fun r => r.ending :: r.pieces

theorem isCloser_laterPieces {rows : List LaterRow} (hrows : ∀ r ∈ rows, r.Reads sub n kind span)
    (glued : Bool) (group : Group) (qs : List Piece) :
    isCloser (kindAt (laterPieces rows ++ .sign glued group.closing :: qs) 0) = true := by
  cases rows with
  | nil => exact isCloser_closing group
  | cons r rows =>
    change isCloser r.ending.kind = true
    rcases (hrows r List.mem_cons_self).ends with hkind | hkind <;> rw [hkind] <;> rfl

theorem MatrixRows.toRows_of_row {m : MatrixRows} (h : m.row ≠ []) :
    m.toRows = m.rows.reverse ++ [m.row.reverse] := by
  have hrow : m.row.isEmpty = false := by rwa [List.isEmpty_eq_false_iff]
  simp [MatrixRows.toRows, MatrixRows.endRow, hrow]

/-- The loop reads a row from its start and, if it reads the rows behind it, all of them. -/
theorem yields_firstRow {row : List Expr} (hrow : ReadsRow sub n kind span ps row) (hne : row ≠ [])
    (rows : List (List Expr)) {rs : List Piece}
    (hgroups : s.groups.head? = some (Group.ofMatrix kind)) (hrs : isCloser (kindAt rs 0) = true)
    (h : s.Starts (ps ++ rs)) (hlength : (ps ++ rs).length < n) (hgas : (ps ++ rs).length < gas)
    (m : MatrixRows) (hm : m.row = [])
    (hmore : ∀ s' gas' m', s'.groups.head? = some (Group.ofMatrix kind) → s'.Sees rs →
      rs.length < gas' → Yields s' qs (fun m'' => m''.toRows.map (List.map Expr.unplaced) =
        (m'.toRows ++ rows).map (List.map Expr.unplaced))
        (parseMatrixFrom sub kind span gas' m' s')) :
    Yields s qs (fun m' => m'.toRows.map (List.map Expr.unplaced) =
      (m.rows.reverse ++ row :: rows).map (List.map Expr.unplaced))
      (parseMatrixFrom sub kind span gas m s) := by
  refine hrow m hgroups hrs h hlength hgas ?_
  intro s' gas' m' h' hsame hgas' hrows' hrow'
  refine (hmore s' gas' m' (by rwa [hsame.groups]) h' hgas').mono fun m'' hm'' => ?_
  have hm' : m'.row ≠ [] := by
    intro hnil
    simp [hnil, hm] at hrow'
    exact hne hrow'
  rw [hm'', MatrixRows.toRows_of_row hm', hrows']
  simp only [List.map_append, List.map_cons, List.map_nil, hrow', hm]
  simp

/-- The loop reads the rows behind the first one, through the closing bracket. -/
theorem yields_laterRows {rows : List LaterRow} (hrows : ∀ r ∈ rows, r.Reads sub n kind span)
    (hgroups : s.groups.head? = some (Group.ofMatrix kind))
    (h : s.Starts (laterPieces rows ++ .sign glued (Group.ofMatrix kind).closing :: qs))
    (hlength : (laterPieces rows ++ .sign glued (Group.ofMatrix kind).closing :: qs).length < n)
    (hgas : (laterPieces rows ++ .sign glued (Group.ofMatrix kind).closing :: qs).length < gas)
    (m : MatrixRows) :
    Yields s qs (fun m' => m'.toRows.map (List.map Expr.unplaced) =
      (m.toRows ++ rows.map LaterRow.row).map (List.map Expr.unplaced))
      (parseMatrixFrom sub kind span gas m s) := by
  induction rows generalizing s gas m with
  | nil =>
    obtain ⟨gas, rfl⟩ := Nat.exists_eq_succ_of_ne_zero (Nat.ne_of_gt (Nat.zero_lt_of_lt hgas))
    refine (yields_closing h m).mono fun m' hm' => ?_
    rw [hm', List.map_nil, List.append_nil]
  | cons r rows ih =>
    obtain ⟨gas, rfl⟩ := Nat.exists_eq_succ_of_ne_zero (Nat.ne_of_gt (Nat.zero_lt_of_lt hgas))
    obtain ⟨hr, hrows⟩ := List.forall_mem_cons.mp hrows
    simp only [laterPieces, List.flatMap_cons, List.cons_append, List.append_assoc,
      List.length_cons] at h hlength hgas
    refine yields_rowEnd h hr.ends (hr.goesOn h) fun s₁ h₁ hsame₁ => ?_
    refine yields_firstRow hr.reads hr.ne_nil (rows.map LaterRow.row) (by rwa [hsame₁.groups])
      (isCloser_laterPieces hrows glued _ qs) h₁.starts (Nat.lt_of_succ_lt hlength)
      (Nat.lt_of_succ_lt_succ hgas) m.endRow rfl fun s' gas' m' hgroups' h' hgas' => ?_
    refine ih hrows hgroups' h'.starts ?_ hgas' m'
    simp [laterPieces] at hlength ⊢
    omega

/-- The loop reads all rows of a literal. -/
theorem yields_rows {row : List Expr} (hrow : ReadsRow sub n kind span ps row) (hne : row ≠ [])
    {rows : List LaterRow} (hrows : ∀ r ∈ rows, r.Reads sub n kind span)
    (hgroups : s.groups.head? = some (Group.ofMatrix kind))
    (h : s.Starts (ps ++ (laterPieces rows ++ .sign glued (Group.ofMatrix kind).closing :: qs)))
    (hlength : (ps ++ (laterPieces rows ++ .sign glued (Group.ofMatrix kind).closing :: qs)).length < n)
    (hgas : n ≤ gas) (stop : Position) :
    Yields s qs (fun m => m.toRows.map (List.map Expr.unplaced) =
      (row :: rows.map LaterRow.row).map (List.map Expr.unplaced))
      (parseMatrixFrom sub kind span gas ⟨[], [], stop, true⟩ s) := by
  refine yields_firstRow hrow hne (rows.map LaterRow.row) hgroups
    (isCloser_laterPieces hrows glued _ qs) h hlength (Nat.lt_of_lt_of_le hlength hgas)
    ⟨[], [], stop, true⟩ rfl fun s' gas' m' hgroups' h' hgas' => ?_
  refine yields_laterRows hrows hgroups' h'.starts ?_ hgas' m'
  rw [List.length_append] at hlength
  omega

/-- A literal is read if its rows are. -/
theorem yields_literal {rows : List (List Expr)}
    (h : s.Starts (.sign glued (Group.ofMatrix kind).opening :: ps))
    (hrows : ∀ s' span, s'.Starts ps → s'.groups.head? = some (Group.ofMatrix kind) →
      Yields s' qs (fun m => m.toRows.map (List.map Expr.unplaced) = rows.map (List.map Expr.unplaced))
        (parseMatrixFrom sub kind span gas ⟨[], [], span.stop, true⟩ s')) (span : Span) :
    Yields s qs (fun e => e.unplaced = (Expr.matrix kind rows span).unplaced)
      (parseMatrix gas sub kind s) := by
  refine .next h fun s₁ h₁ _ _ => ?_
  have hstarts : State.Starts { s₁ with groups := Group.ofMatrix kind :: s₁.groups } ps :=
    ⟨h₁.eof_kind, h₁.fits.weaken⟩
  exact .bind (.inside (hrows _ s.current.span hstarts rfl)) fun m s' h' _ hm => .pure h' (by simp [hm])

/-! Literals with commas between elements and semicolons between rows. -/

theorem readsRow_items (hsub : SubReads sub n) {es : List Expr} (hes : ∀ e ∈ es, IsElement e)
    (hne : es ≠ []) (glued : Bool) :
    ReadsRow sub n kind span (itemPieces glued es) es := by
  intro s rs qs Q gas m hgroups hrs h hlength hgas hnext
  induction es generalizing s glued gas m with
  | nil => contradiction
  | cons e es ih =>
    obtain ⟨gas, rfl⟩ := Nat.exists_eq_succ_of_ne_zero (Nat.ne_of_gt (Nat.zero_lt_of_lt hgas))
    obtain ⟨⟨hbare, hlex, hstart⟩, hes⟩ := List.forall_mem_cons.mp hes
    obtain ⟨p, rest, hpieces, hfront⟩ := hbare.front hlex glued
    rw [itemPieces, List.append_assoc] at h hlength hgas
    have hbehind : isCloser (kindAt (moreItemPieces es ++ rs) 0) = true := by
      cases es with
      | nil => exact hrs
      | cons e es => rfl
    have hopen : s.groups ≠ [] := by rintro hnil; simp [hnil] at hgroups
    have hahead : Ahead s .bracketed e glued (moreItemPieces es ++ rs) :=
      ⟨by decide, hbare, hlex, fun _ => hopen, h⟩
    have hread := hsub.toCloser hahead hlength hbehind
    rw [hpieces] at h hlength hgas
    refine yields_element h hfront.isCloser_eq (by rw [hfront.isKeyword_eq, hstart]) hread ?_
    intro s₁ e' h₁ hsame₁ he
    cases es with
    | nil =>
      refine hnext s₁ gas (m.push e') h₁ hsame₁ ?_ rfl (by simp [MatrixRows.push, he])
      simp [moreItemPieces] at hgas
      omega
    | cons e₂ es =>
      obtain ⟨gas, rfl⟩ : ∃ gas', gas = gas' + 1 := by
        refine Nat.exists_eq_succ_of_ne_zero ?_
        simp [moreItemPieces] at hgas
        omega
      refine yields_comma h₁.starts rfl fun s₂ h₂ hsame₂ => ?_
      have hmore : (itemPieces false (e₂ :: es) ++ rs).length + 2 ≤
          (p :: rest ++ (moreItemPieces (e₂ :: es) ++ rs)).length := by
        simp [itemPieces, moreItemPieces]
      refine ih hes (List.cons_ne_nil _ _) false _ (by rwa [hsame₂.groups, hsame₁.groups]) h₂.starts
        (by omega) (by omega) ?_
      intro s' gas' m' h' hsame' hgas' hrows hrow
      refine hnext s' gas' m' h' ((hsame₁.trans hsame₂).trans hsame') hgas' hrows ?_
      simp [hrow, MatrixRows.push, he]

/-- A row behind a semicolon and a blank. -/
def itemRow (row : List Expr) : LaterRow := ⟨.sign true .semicolon, itemPieces false row, row⟩

theorem laterPieces_itemRow (rows : List (List Expr)) :
    laterPieces (rows.map itemRow) = moreRowPieces rows := by
  induction rows with
  | nil => rfl
  | cons row rows ih =>
    rw [moreRowPieces, ← ih]
    rfl

theorem map_row_itemRow (rows : List (List Expr)) : (rows.map itemRow).map LaterRow.row = rows := by
  rw [List.map_map]
  exact List.map_id' rows

theorem itemRow_reads (hsub : SubReads sub n) {row : List Expr} (hrow : ∀ e ∈ row, IsElement e)
    (hne : row ≠ []) : (itemRow row).Reads sub n kind span where
  ends := .inl rfl
  goesOn := by
    intro s rs h
    have hkind : s.current.kind = .sign .semicolon := h.current_kind
    exact atMatrixEnd_eq_false (by rw [hkind]; rfl) (by rw [hkind]; rfl) (by rw [hkind]; rfl)
  ne_nil := hne
  reads := readsRow_items hsub hrow hne false

theorem yields_matrix (hsub : SubReads sub n) {rows : List (List Expr)}
    (hrows : ∀ row ∈ rows, ∀ e ∈ row, IsElement e) (hne : ∀ row ∈ rows, row ≠ [])
    (h : s.Starts ((Expr.matrix kind rows span).pieces glued ++ qs))
    (hlength : ((Expr.matrix kind rows span).pieces glued ++ qs).length ≤ n) (hgas : n ≤ gas) :
    Yields s qs (fun e => e.unplaced = (Expr.matrix kind rows span).unplaced)
      (parseMatrix gas sub kind s) := by
  simp only [Expr.pieces, List.cons_append, List.append_assoc, List.nil_append, List.length_cons]
    at h hlength
  refine yields_literal h (fun s' openSpan h' hgroups => ?_) span
  cases rows with
  | nil =>
    have hnone : ∀ r ∈ ([] : List LaterRow), r.Reads sub n kind openSpan := List.forall_mem_nil _
    exact yields_laterRows hnone hgroups h' hlength (Nat.lt_of_lt_of_le hlength hgas)
      ⟨[], [], openSpan.stop, true⟩
  | cons row rows =>
    obtain ⟨hrow, hrows⟩ := List.forall_mem_cons.mp hrows
    obtain ⟨hne₁, hne⟩ := List.forall_mem_cons.mp hne
    have hreads : ∀ r ∈ rows.map itemRow, r.Reads sub n kind openSpan := by
      intro r hr
      obtain ⟨row', hrow', rfl⟩ := List.mem_map.mp hr
      exact itemRow_reads hsub (hrows row' hrow') (hne row' hrow')
    rw [rowPieces, List.append_assoc, ← laterPieces_itemRow] at h' hlength
    have hread := yields_rows (readsRow_items hsub hrow hne₁ true) hne₁ hreads hgroups h' hlength hgas
      openSpan.stop
    rwa [map_row_itemRow] at hread

/-! Functions without a name, and handles. -/

/-- The loop of parameters goes over one that is written. -/
theorem yields_param {param : String} {Q : List String → Prop}
    (h : s.Starts (.word glued param :: ps)) (hparam : IsNameText param) (params : List String)
    (hnext : ∀ s', s'.Sees ps → Same s s' →
      Yields s' qs Q (parseAnonymousParams span gas (param :: params) s')) :
    Yields s qs Q (parseAnonymousParams span (gas + 1) params s) := by
  have hcloser : isCloser (Lexeme.nameKind param) = false := Expr.isCloser_of_isName hparam.isName
  have hkind : s.current.kind = Lexeme.nameKind param := h.current_kind
  have htext : s.current.text = param := h.current_text
  rw [parseAnonymousParams]
  refine .acceptNo h (beq_of_isCloser hcloser rfl) (.no Bool.false_ne_true (.read rfl (.no ?_ ?_)))
  · rw [hkind, isNewlineOrEnd_of_isCloser hcloser]
    decide
  refine .next h fun s' h' hsame _ => .yes (by rw [Token.isName, hkind, hparam.isName]) ?_
  rw [htext]
  exact hnext s' h' hsame

theorem yields_moreParams {names : List String} (hnames : ∀ name ∈ names, IsNameText name)
    (h : s.Starts (moreNamePieces names ++ .sign true .closeParen :: qs))
    (hgas : (moreNamePieces names ++ .sign true .closeParen :: qs).length < gas)
    (params : List String) :
    Yields s qs (fun result => result = params.reverse ++ names)
      (parseAnonymousParams span gas params s) := by
  induction names generalizing s gas params with
  | nil =>
    obtain ⟨gas, rfl⟩ := Nat.exists_eq_succ_of_ne_zero (Nat.ne_of_gt (Nat.zero_lt_of_lt hgas))
    rw [parseAnonymousParams]
    exact .acceptYes h rfl fun s' h' _ => .yes rfl (.pure h' (by simp))
  | cons name names ih =>
    obtain ⟨hname, hnames⟩ := List.forall_mem_cons.mp hnames
    obtain ⟨gas, rfl⟩ : ∃ gas', gas = gas' + 2 := by
      simp [moreNamePieces] at hgas
      exact ⟨gas - 2, by omega⟩
    have hkind : s.current.kind = .sign .comma := h.current_kind
    rw [parseAnonymousParams]
    refine .acceptNo h rfl (.no Bool.false_ne_true (.read rfl (.no (by rw [hkind]; decide) ?_)))
    refine .next h fun s₁ h₁ hsame₁ _ => .no (by rw [Token.isName, hkind]; decide) ?_
    refine .no (by rw [hkind]; decide) (yields_param h₁.starts hname params fun s₂ h₂ _ => ?_)
    refine (ih hnames h₂.starts (by simp [moreNamePieces] at hgas ⊢; omega) (name :: params)).mono ?_
    intro result hresult
    rw [hresult]
    simp

theorem yields_params {names : List String} (hnames : ∀ name ∈ names, IsNameText name)
    (h : s.Starts (namePieces names ++ .sign true .closeParen :: qs))
    (hgas : (namePieces names ++ .sign true .closeParen :: qs).length < gas) :
    Yields s qs (fun result => result = names) (parseAnonymousParams span gas [] s) := by
  cases names with
  | nil => exact yields_moreParams hnames h hgas []
  | cons name names =>
    obtain ⟨gas, rfl⟩ := Nat.exists_eq_succ_of_ne_zero (Nat.ne_of_gt (Nat.zero_lt_of_lt hgas))
    obtain ⟨hname, hnames⟩ := List.forall_mem_cons.mp hnames
    refine yields_param h hname [] fun s' h' _ => ?_
    exact yields_moreParams hnames h'.starts (by simp [namePieces] at hgas ⊢; omega) [name]

theorem yields_anonymous (hsub : SubReads sub n) {place : Expr.Place} {params : List String}
    {body : Expr} (hbare : body.Bare place) (hplace : place ≠ .argument)
    (hlex : (Expr.anonymous params (some body) span).Lexical)
    (hgroups : place ≠ .outside → s.groups ≠ [])
    (h : s.Starts ((Expr.anonymous params (some body) span).pieces glued ++ qs))
    (hlength : ((Expr.anonymous params (some body) span).pieces glued ++ qs).length ≤ n)
    (hgas : ((Expr.anonymous params (some body) span).pieces glued ++ qs).length < gas)
    (hqs : Follows qs 0) :
    Yields s qs (IsRead (.anonymous params (some body) span)) (parseAt gas sub s) := by
  simp only [Expr.pieces, paramPieces, List.cons_append, List.append_assoc, List.nil_append,
    List.length_cons] at h hlength hgas
  refine .next h fun s₁ h₁ hsame₁ _ => .read rfl (.yes ?_ ?_)
  · rw [h₁.starts.current_kind]
    rfl
  refine .next h₁.starts fun s₂ h₂ hsame₂ _ => ?_
  refine .bind (yields_params hlex.head h₂.starts (by omega)) ?_
  rintro _ s₃ h₃ hsame₃ rfl
  have hahead : Ahead s₃ place body false qs := by
    refine ⟨hplace, hbare, hlex.ofAnonymous, fun hne => ?_, h₃.starts⟩
    rw [hsame₃.groups, hsame₂.groups, hsame₁.groups]
    exact hgroups hne
  have hfollows : Follows qs (min 0 body.edge) := by rwa [Nat.zero_min]
  refine .bind (hsub hahead (by simp at hlength ⊢; omega) body.level_pos hfollows) ?_
  rintro _ s₄ h₄ - ⟨body', rfl, hbody⟩
  refine .no Bool.false_ne_true (.read rfl (.pure h₄ ⟨_, rfl, ?_⟩))
  simp [hbody]

theorem yields_handle {function : Variable} (hname : IsNameText function.name)
    (h : s.Starts ((Expr.handle function span).pieces glued ++ qs)) (gas : Nat) :
    Yields s qs (IsRead (.handle function span)) (parseAt gas sub s) := by
  refine .next h fun s₁ h₁ _ _ => ?_
  have hkind : s₁.current.kind = Lexeme.nameKind function.name := h₁.starts.current_kind
  have htext : s₁.current.text = function.name := h₁.starts.current_text
  refine .read rfl (.no ?_ (.read rfl (.yes ?_ ?_)))
  · rw [hkind, beq_iff_eq]
    exact Lexeme.nameKind_ne_sign _ _
  · rw [Token.isName, hkind, hname.isName]
  · refine .next h₁.starts fun s₂ h₂ _ _ => .pure h₂ ⟨_, rfl, ?_⟩
    simp [Expr.unplaced, Variable.unplaced, htext]

end

end MatrixScript.Parser
