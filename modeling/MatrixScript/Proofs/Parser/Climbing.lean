import MatrixScript.Proofs.Parser.Operand

/-! Parsing written expressions by precedence.

Main statement: where the pieces of a bare expression are ahead, the parser reads that expression. -/
namespace MatrixScript.Parser

open Piece

variable {s : State} {gas : Nat} {glued : Bool} {place : Expr.Place} {e : Expr} {qs : List Piece}

/-! Operands. -/

theorem isClosedString_of_isClosedLiteral {text : String} (h : isClosedLiteral text = true) :
    isClosedString text = true := by
  unfold isClosedLiteral at h
  unfold isClosedString
  rw [← String.length_toList]
  cases hchars : text.toList with
  | nil => simp [hchars] at h
  | cons quote body =>
    rw [hchars] at h
    have hlast := Lexeme.getLast?_of_closes h
    cases body with
    | nil => contradiction
    | cons c body => simpa using hlast.symm

section

variable {sub : SubParser} {n : Nat}

theorem yields_number {text : String} {span : Span}
    (h : s.Starts ((Expr.number text span).pieces glued ++ qs)) (gas : Nat) :
    Yields s qs (IsRead (.number text span)) (parsePrimary gas sub s) := by
  have hkind : s.current.kind = .number := h.current_kind
  have htext : s.current.text = text := h.current_text
  refine .read rfl ?_
  rw [hkind]
  exact .next h fun s' h' _ _ => .pure h' ⟨_, rfl, by simp [Expr.unplaced, htext]⟩

theorem yields_string {text : String} {span : Span}
    (h : s.Starts ((Expr.string text span).pieces glued ++ qs))
    (hclosed : isClosedLiteral text = true) (gas : Nat) :
    Yields s qs (IsRead (.string text span)) (parsePrimary gas sub s) := by
  have hkind : s.current.kind = .string := h.current_kind
  have htext : s.current.text = text := h.current_text
  have hstring : isClosedString s.current.text = true := by
    rw [htext]
    exact isClosedString_of_isClosedLiteral hclosed
  refine .read rfl ?_
  rw [hkind]
  refine .nextString h fun s' h' => .no (by simp [hstring]) (.pure h' ⟨_, rfl, ?_⟩)
  simp [Expr.unplaced, htext]

theorem yields_mark {mark : Mark} {span : Span}
    (h : s.Starts ((Expr.mark mark span).pieces glued ++ qs)) (hmark : mark ≠ .ignored)
    (hgroups : s.groups ≠ []) (gas : Nat) :
    Yields s qs (IsRead (.mark mark span)) (parsePrimary gas sub s) := by
  have hopen : ¬s.groups.isEmpty = true := by rwa [List.isEmpty_iff]
  have hparse : Yields s qs (IsRead (.mark mark span)) (parseMark mark s) := by
    refine .read rfl (.yes (by simp [hopen]) (.next h fun s' h' _ _ => .pure h' ⟨_, rfl, ?_⟩))
    simp [Expr.unplaced]
  refine .read rfl ?_
  cases mark with
  | whole =>
    have hkind : s.current.kind = .sign .colon := h.current_kind
    rwa [hkind]
  | last =>
    have hkind : s.current.kind = .keyword .endAny :=
      h.current_kind.trans (Lexeme.nameKind_spelling .endAny)
    rwa [hkind]
  | ignored => contradiction

theorem yields_primaryName (hsub : SubReads sub n) {use : NameUse Expr}
    (h : Ahead s place (.name use) glued qs) (hends : endsName (kindAt qs 0) (kindAt qs 1) = true)
    (hlength : ((Expr.name use).pieces glued ++ qs).length ≤ n) :
    Yields s qs (IsRead (.name use)) (parsePrimary (n + 1) sub s) := by
  have hkind : s.current.kind = Lexeme.nameKind use.root := by
    rw [h.starts.current_kind]
    obtain ⟨root, fields, span, args, native, command⟩ := use
    cases args <;> rfl
  obtain ⟨hroot, -⟩ := h.lexical.head
  have hread : Yields s qs (IsRead (.name use))
      ((do return some (.name (← parseName (n + 1) sub)) : Parser (Option Expr)) s) := by
    refine .bind (yields_name hsub h.bare h.lexical h.starts hends hlength (Nat.lt_succ_of_le hlength))
      fun use' s' h' _ huse => .pure h' ⟨_, rfl, ?_⟩
    simp [huse]
  refine .read rfl ?_
  rw [hkind]
  rcases hroot.kind_cases with hword | hword <;> rw [hword] <;> exact hread

/-- A literal in brackets or braces is an operand. -/
theorem yields_primaryLiteral {kind : MatrixKind}
    (hkind : s.current.kind = .sign (Group.ofMatrix kind).opening)
    (hread : Yields s qs (fun e' => e'.unplaced = e.unplaced) (parseMatrix gas sub kind s)) :
    Yields s qs (IsRead e) (parsePrimary gas sub s) := by
  refine .read rfl ?_
  rw [hkind]
  cases kind <;> exact .bind hread fun e' s' h' _ he => .pure h' ⟨e', rfl, he⟩

theorem yields_primaryMatrix (hsub : SubReads sub n) {kind : MatrixKind} {rows : List (List Expr)}
    {span : Span} (h : Ahead s place (.matrix kind rows span) glued qs)
    (hlength : ((Expr.matrix kind rows span).pieces glued ++ qs).length ≤ n) :
    Yields s qs (IsRead (.matrix kind rows span)) (parsePrimary (n + 1) sub s) := by
  have hrows : ∀ row ∈ rows, ∀ e ∈ row, IsElement e := by
    intro row hrow e he
    cases h.bare with
    | matrix hbare hstart =>
      exact ⟨hbare row hrow e he, h.lexical.ofMatrix row hrow e he, hstart row hrow e he⟩
  exact yields_primaryLiteral h.starts.current_kind
    (yields_matrix hsub hrows h.lexical.head h.starts hlength (Nat.le_succ n))

/-! Operands with their transposes and prefixes. -/

/-- An operand with its transposes. -/
def parseOperand (gas : Nat) (sub : SubParser) : Parser (Option Expr) := do
  match ← parsePrimary gas sub with
  | none => return none
  | some operand => return some (← parseTransposes gas operand)

theorem yields_transpose (op : TransposeOp) {ps : List Piece} {Q : Expr → Prop}
    (h : s.Starts (op.pieces ++ ps)) (operand : Expr) (hnext : ∀ s' span, s'.Sees ps → Same s s' →
      Yields s' qs Q (parseTransposes gas (.transposed op operand span) s')) :
    Yields s qs Q (parseTransposes (gas + 1) operand s) := by
  rw [parseTransposes]
  refine .read rfl (.read rfl ?_)
  cases op with
  | conjugate =>
    have hkind : s.current.kind = .transpose := h.current_kind
    refine .yes (by rw [hkind]; rfl) (.next h fun s' h' hsame _ => ?_)
    exact hnext s' _ h' hsame
  | plain =>
    have hkind : s.current.kind = .sign .period := h.current_kind
    have hquote : (s.ahead 1).kind = .transpose := h.kind_ahead 1
    have hadjacent : s.current.adjacent (s.ahead 1) = true := h.adjacent
    have hplain : isPlainTranspose s.current (s.ahead 1) = true := by
      simp [isPlainTranspose, Token.is, hkind, hquote, hadjacent]
    refine .no (by rw [hkind]; decide) (.yes hplain ?_)
    refine .next h fun s₁ h₁ hsame₁ _ => .next h₁.starts fun s₂ h₂ hsame₂ _ => ?_
    exact hnext s₂ _ h₂ (hsame₁.trans hsame₂)

theorem parseTransposes_end (hgas : 0 < gas) {bound : Nat} (h : s.Starts qs)
    (hqs : Follows qs bound) (operand : Expr) :
    parseTransposes gas operand s = (operand, s) := by
  obtain ⟨gas, rfl⟩ := Nat.exists_eq_succ_of_ne_zero (Nat.ne_of_gt hgas)
  have hends := hqs.ends
  rw [← h.current_kind, ← h.kind_ahead 1] at hends
  exact parseTransposes_stop hends gas operand

theorem edge_of_takesTranspose {op : TransposeOp} (h : e.takesTranspose op = true) :
    e.edge ≠ 0 := by
  cases e with
  | binary | prefixed | anonymous | named => contradiction
  | _ => exact nofun

/-- The operand is read, and the loop of transposes goes on behind it. -/
theorem yields_operand (hsub : SubReads sub n) {e : Expr} {place : Expr.Place} {s : State} {glued : Bool}
    {qs rs : List Piece} {R : Expr → Prop} (h : Ahead s place e glued qs) (hoperand : e.isOperand = true)
    (hends : endsName (kindAt qs 0) (kindAt qs 1) = true) (hbody : e.edge = 0 → Follows qs 0)
    (hlength : (e.pieces glued ++ qs).length ≤ n)
    (hnext : ∀ s' e' gas, s'.Sees qs → Same s s' → e'.unplaced = e.unplaced → qs.length < gas →
      Yields s' rs R (parseTransposes gas e' s')) :
    Yields s rs (fun value => ∃ e', value = some e' ∧ R e') (parseOperand (n + 1) sub s) := by
  have hprimary (hread : Yields s qs (IsRead e) (parsePrimary (n + 1) sub s)) :
      Yields s rs (fun value => ∃ e', value = some e' ∧ R e') (parseOperand (n + 1) sub s) := by
    refine .bind hread ?_
    rintro _ s' h' hsame ⟨e', rfl, he⟩
    have hqs : qs.length < n + 1 := by simp at hlength; omega
    exact .bind (hnext s' e' (n + 1) h' hsame he hqs) fun e'' s'' h'' _ he'' => .pure h'' ⟨e'', rfl, he''⟩
  cases e with
  | name use => exact hprimary (yields_primaryName hsub h hends hlength)
  | number text span => exact hprimary (yields_number h.starts _)
  | string text span =>
    cases h.bare with
    | string hclosed => exact hprimary (yields_string h.starts hclosed _)
  | matrix kind rows span => exact hprimary (yields_primaryMatrix hsub h hlength)
  | mark mark span =>
    cases h.bare with
    | mark hplace hmark => exact hprimary (yields_mark h.starts hmark (h.groups hplace) _)
  | handle function span =>
    have hkind : s.current.kind = .sign .atSign := h.starts.current_kind
    refine hprimary (.read rfl ?_)
    rw [hkind]
    exact yields_handle h.lexical.head h.starts _
  | anonymous params body span =>
    have hkind : s.current.kind = .sign .atSign := by
      rw [h.starts.current_kind]
      cases body <;> rfl
    refine hprimary (.read rfl ?_)
    rw [hkind]
    cases h.bare with
    | anonymous params hbare =>
      refine yields_anonymous hsub hbare ?_ h.lexical ?_ h.starts hlength (Nat.lt_succ_of_le hlength)
        (hbody rfl)
      · cases place <;> decide
      · intro hplace
        exact h.groups (by rintro rfl; exact hplace rfl)
  | transposed op operand span =>
    cases h.bare with
    | transposed hbare htakes =>
      have hstarts := h.starts
      rw [Expr.pieces, List.append_assoc] at hstarts hlength
      have hahead : Ahead s place.part operand glued (op.pieces ++ qs) := by
        refine ⟨by cases place <;> decide, hbare, h.lexical.ofTransposed, fun hplace => ?_, hstarts⟩
        exact h.groups (by rintro rfl; exact hplace rfl)
      refine yields_operand hsub hahead (Expr.isOperand_of_takesTranspose htakes)
        (endsName_transpose op qs) (fun hedge => absurd hedge (edge_of_takesTranspose htakes)) hlength ?_
      intro s' e' gas h' hsame he hgas
      obtain ⟨gas, rfl⟩ := Nat.exists_eq_succ_of_ne_zero (Nat.ne_of_gt (Nat.zero_lt_of_lt hgas))
      refine yields_transpose op h'.starts e' fun s'' span' h'' hsame' => ?_
      refine hnext s'' _ gas h'' (hsame.trans hsame') (by simp [Expr.unplaced, he]) ?_
      have hpos : 0 < op.pieces.length := by cases op <;> decide
      rw [List.length_append] at hgas
      omega
  | binary | prefixed | named => contradiction
termination_by sizeOf e

theorem prefixAt_sign {op : PrefixOp} {ps : List Piece} (h : s.Starts (.sign glued op.sign :: ps)) :
    prefixAt s.current = some op := by
  have hkind : s.current.kind = .sign op.sign := h.current_kind
  rw [prefixAt, hkind]
  cases op <;> rfl

theorem prefixAt_operand (h : Ahead s place e glued qs) (hoperand : e.isOperand = true) :
    prefixAt s.current = none := by
  obtain ⟨p, ps, hpieces, hfront⟩ := h.bare.front h.lexical glued
  have hkind : s.current.kind = p.kind := by
    rw [h.starts.current_kind, hpieces]
    rfl
  rw [prefixAt, hkind]
  cases hsign : p.kind with
  | sign sign => exact hfront.not_prefix hoperand sign hsign
  | _ => rfl

/-- All but operators between operands is read as one operand. -/
theorem yields_unary (hsub : SubReads sub n) (h : Ahead s place e glued qs)
    (hlevel : e.level = Expr.tightest) (hqs : Follows qs e.edge)
    (hlength : (e.pieces glued ++ qs).length ≤ n) :
    Yields s qs (IsRead e) (parseUnary (n + 1) sub s) := by
  cases hoperand : e.isOperand with
  | true =>
    refine .read rfl ?_
    rw [prefixAt_operand h hoperand]
    refine yields_operand hsub h hoperand hqs.endsName (fun hedge => hedge ▸ hqs) hlength ?_
    intro s' e' gas h' hsame he hgas
    rw [parseTransposes_end (Nat.zero_lt_of_lt hgas) h'.starts hqs]
    exact .pure h' he
  | false =>
    cases e with
    | prefixed op operand span =>
      cases h.bare with
      | prefixed hbare hlevel =>
        refine .read rfl ?_
        rw [prefixAt_sign h.starts]
        refine .next h.starts fun s₁ h₁ hsame₁ _ => ?_
        have hahead : Ahead s₁ place.part operand true qs := by
          refine ⟨by cases place <;> decide, hbare, h.lexical.ofPrefixed, fun hplace => ?_, h₁.starts⟩
          rw [hsame₁.groups]
          exact h.groups (by rintro rfl; exact hplace rfl)
        refine .bind (hsub hahead hlength hlevel hqs) ?_
        rintro _ s₂ h₂ - ⟨operand', rfl, hoperand'⟩
        exact .pure h₂ ⟨_, rfl, by simp [Expr.unplaced, hoperand']⟩
    | binary op left right span =>
      exact absurd hlevel (Nat.ne_of_lt op.precedence_lt)
    | named value =>
      cases h.bare
      exact absurd rfl h.not_argument
    | _ => contradiction

/-! Operators between operands. -/

theorem yields_advanceBy (ps : List Piece) (h : s.Sees (ps ++ qs)) :
    Yields s qs (fun _ => True) (advanceBy ps.length s) := by
  induction ps generalizing s with
  | nil => exact .pure h trivial
  | cons p ps ih => exact .next h.starts fun s' h' _ _ => ih h'

theorem length_pieces (op : BinaryOp) : op.pieces.length = op.signs.length := by
  cases op <;> rfl

/-- A plus or minus between two operands has a blank behind it. -/
theorem atElementSeparator_pieces {op : BinaryOp} {q : Piece} (h : s.Starts (op.pieces ++ q :: qs))
    (hq : q.glued = op.isTight) :
    atElementSeparator s = (false, s) := by
  have hnot : (s.current.is .plus || s.current.is .minus) = false ∨
      s.current.adjacent (s.ahead 1) = false := by
    by_cases hop : op = .add ∨ op = .subtract
    · right
      rcases hop with rfl | rfl <;> exact h.adjacent.trans hq
    · left
      rw [Token.is, Token.is, h.current_kind]
      cases op <;> first | rfl | exact absurd (by decide) hop
  change (s.groups.head?.any Group.isMatrix && (s.current.is .plus || s.current.is .minus) &&
    !s.previous.adjacent s.current && s.current.adjacent (s.ahead 1), s) = (false, s)
  rcases hnot with hnot | hnot <;> simp [hnot]

/-- One round of the loop: the operator and its right operand are read. -/
theorem yields_operator (hsub : SubReads sub n) {op : BinaryOp} {right : Expr} {rs : List Piece}
    {R : Expr → Prop} (hplace : place ≠ .argument) (hbare : right.Bare place) (hlex : right.Lexical)
    (hgroups : place ≠ .outside → s.groups ≠ [])
    (h : s.Sees (op.pieces ++ (right.pieces op.isTight ++ qs)))
    (hlevel : op.precedence < right.level) (hqs : Follows qs (min op.precedence right.edge))
    (hlength : (right.pieces op.isTight ++ qs).length < n) {least : Nat}
    (hleast : least < op.precedence) (left : Expr)
    (hnext : ∀ s' right' span, s'.Sees qs → Same s s' → right'.unplaced = right.unplaced →
      Yields s' rs R (parseOperators sub least gas (.binary op left right' span) s')) :
    Yields s rs R (parseOperators sub least (gas + 1) left s) := by
  obtain ⟨q, ps, hpieces, hfront⟩ := hbare.front hlex op.isTight
  have hstarts := h.starts
  rw [hpieces] at hstarts
  have hoperator : peekOperator s = (some (op, op.signs.length), s) :=
    congrArg (·, s) (operatorAt_pieces hstarts hfront.glued_eq)
  rw [parseOperators]
  refine .read hoperator (.no (Nat.not_le_of_lt hleast) ?_)
  refine .read (atElementSeparator_pieces hstarts hfront.glued_eq) (.no Bool.false_ne_true (.read rfl ?_))
  rw [← length_pieces]
  refine .bind (yields_advanceBy op.pieces h) fun _ s₁ h₁ hsame₁ _ => ?_
  have hahead : Ahead s₁ place right op.isTight qs := by
    refine ⟨hplace, hbare, hlex, fun hne => ?_, h₁.starts⟩
    rw [hsame₁.groups]
    exact hgroups hne
  refine .bind (hsub hahead hlength hlevel hqs) ?_
  rintro _ s₂ h₂ hsame₂ ⟨right', rfl, hright⟩
  exact hnext s₂ right' _ h₂ (hsame₁.trans hsame₂) hright

theorem parseOperators_end (hgas : 0 < gas) {least : Nat} (h : s.Starts qs) (hqs : Follows qs least)
    (left : Expr) :
    parseOperators sub least gas left s = (left, s) := by
  obtain ⟨gas, rfl⟩ := Nat.exists_eq_succ_of_ne_zero (Nat.ne_of_gt hgas)
  exact parseOperators_stop (hqs.operator s h) gas left

/-- An expression of operators stronger than `least`. -/
def climb (gas : Nat) (sub : SubParser) (least : Nat) : Parser (Option Expr) := do
  match ← parseUnary gas sub with
  | none => return none
  | some left => return some (← parseOperators sub least gas left)

/-- The expression is read, and the loop of operators goes on behind it. The operators on its left
edge are read in the same loop, each with the ones before it as its left operand. -/
theorem yields_climb (hsub : SubReads sub n) {e : Expr} {place : Expr.Place} {s : State} {glued : Bool}
    {qs rs : List Piece} {least : Nat} {R : Expr → Prop} (h : Ahead s place e glued qs)
    (hlevel : least < e.level) (hqs : Follows qs e.edge) (hlength : (e.pieces glued ++ qs).length ≤ n)
    (hnext : ∀ s' e' gas, s'.Sees qs → Same s s' → e'.unplaced = e.unplaced → qs.length < gas →
      Yields s' rs R (parseOperators sub least gas e' s')) :
    Yields s rs (fun value => ∃ e', value = some e' ∧ R e') (climb (n + 1) sub least s) := by
  have hunary (hlevel : e.level = Expr.tightest) :
      Yields s rs (fun value => ∃ e', value = some e' ∧ R e') (climb (n + 1) sub least s) := by
    refine .bind (yields_unary hsub h hlevel hqs hlength) ?_
    rintro _ s' h' hsame ⟨e', rfl, he⟩
    have hqs : qs.length < n + 1 := by simp at hlength; omega
    exact .bind (hnext s' e' (n + 1) h' hsame he hqs) fun e'' s'' h'' _ he'' => .pure h'' ⟨e'', rfl, he''⟩
  cases e with
  | binary op left right span =>
    have hpart : place.part ≠ .argument := by cases place <;> decide
    cases h.bare with
    | binary hleft hright hedge hright' hmodulus =>
      have hstarts := h.starts
      rw [Expr.pieces, List.append_assoc, List.append_assoc] at hstarts hlength
      have hgroups : place.part ≠ .outside → s.groups ≠ [] := fun hne =>
        h.groups (by rintro rfl; exact hne rfl)
      have hahead : Ahead s place.part left glued (op.pieces ++ (right.pieces op.isTight ++ qs)) :=
        ⟨hpart, hleft, h.lexical.left, hgroups, hstarts⟩
      have hfollows : Follows (op.pieces ++ (right.pieces op.isTight ++ qs)) left.edge := by
        obtain ⟨q, ps, hpieces, hfront⟩ := hright.front h.lexical.right op.isTight
        rw [hpieces]
        exact (Follows.of_operator _ hfront.glued_eq).mono hedge
      have hleast : least < left.level := (hlevel.trans_le hedge).trans_le left.edge_le_level
      refine yields_climb hsub hahead hleast hfollows hlength ?_
      intro s' left' gas h' hsame hleft' hgas
      obtain ⟨gas, rfl⟩ := Nat.exists_eq_succ_of_ne_zero (Nat.ne_of_gt (Nat.zero_lt_of_lt hgas))
      have hpos : 0 < op.pieces.length := by cases op <;> decide
      simp only [List.length_append] at hlength hgas
      refine yields_operator hsub hpart hright h.lexical.right (by rwa [hsame.groups]) h' hright' hqs
        (by rw [List.length_append]; omega) hlevel left' ?_
      intro s'' right' span' h'' hsame' hright''
      refine hnext s'' _ gas h'' (hsame.trans hsame') ?_ (by omega)
      simp [Expr.unplaced, hleft', hright'']
  | _ => exact hunary rfl
termination_by sizeOf e

end

/-- The parser of expressions reads every bare expression that is ahead. -/
theorem parseExpression_reads (gas : Nat) : SubReads (parseExpression gas) gas := by
  induction gas with
  | zero =>
    intro s place e glued qs least _ hlength
    contradiction
  | succ gas ih =>
    intro s place e glued qs least h hlength hlevel hqs
    refine yields_climb ih h hlevel (hqs.mono (min_le_right _ _)) (Nat.le_of_lt_succ hlength) ?_
    intro s' e' gas' h' _ he hgas'
    rw [parseOperators_end (Nat.zero_lt_of_lt hgas') h'.starts (hqs.mono (min_le_left _ _))]
    exact .pure h' he

theorem yields_expression (h : Ahead s place e glued qs)
    (hgas : (e.pieces glued ++ qs).length < gas) (hqs : isCloser (kindAt qs 0) = true) :
    Yields s qs (IsRead e) (parseExpression gas 0 s) :=
  SubReads.toCloser (parseExpression_reads gas) h hgas hqs

end MatrixScript.Parser
