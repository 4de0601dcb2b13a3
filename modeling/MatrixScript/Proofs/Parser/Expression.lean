import MatrixScript.Parser.Expression
import MatrixScript.Proofs.Parser.Beside

/-! Expressions in two runs beside each other. -/
namespace MatrixScript.Parser

variable {F : Frame} {s t : State} {gas gas' loopGas loopGas' : Nat} {sub sub' : SubParser}

/-- An expression in the first run is the same one further down in the second. Where there is one, it
has taken a token. -/
def OptionalExpr (F : Frame) (start : Nat) (a b : Option Expr) (n : Nat) : Prop :=
  b = a.map (Expr.down F.lines) ∧ (a.isSome = true → start < n)

/-- Two parsers for the expressions inside others go the same way, as long as there is gas. -/
def SubParsers (F : Frame) (gas gas' : Nat) (sub sub' : SubParser) : Prop :=
  ∀ (least : Nat) (s t : State), Beside F s t → Enough F s gas gas' →
    Outcome F s (OptionalExpr F s.pos) (sub least s) (sub' least t)

theorem expectedExpression_beside (h : Beside F s t) {after after' : Token}
    (hafter : after' = after.down F.lines) :
    Outcome F s (fun _ _ _ => True) (expectedExpression after s) (expectedExpression after' t) := by
  subst hafter
  refine h.check (.inr rfl) (fun _ => ?_) (fun hends => ?_)
  · exact (h.report _ rfl).mono fun _ _ _ _ _ => trivial
  · have hcurrent := h.current.eq_down_of_kind_ne fun hk => by
      rw [hk] at hends
      contradiction
    refine Outcome.read rfl rfl ?_
    exact (h.reportHere (by rw [hcurrent, Token.text_down]) hcurrent).mono fun _ _ _ _ _ => trivial

theorem assigns_sees (before equals : Token) {following following' : Token}
    (h : F.Sees following following') :
    assigns (before.down F.lines) (equals.down F.lines) following' =
      assigns before equals following := by
  simp only [assigns, h.is, h.adjacent, Token.is_down, Token.adjacent_down]

theorem isName_kind_ne {token : Token} (h : token.isName = true) : token.kind ≠ .eof := fun hk => by
  simp [Token.isName, Token.Kind.isName, hk] at h

theorem isNamedValue_beside (h : Beside F s t) :
    isNamedValue t.current (t.ahead 1) (t.ahead 2) =
      isNamedValue s.current (s.ahead 1) (s.ahead 2) := by
  unfold isNamedValue
  rw [h.current.isName]
  cases hname : s.current.isName with
  | false => rfl
  | true =>
    have hkind := isName_kind_ne hname
    have hlen := List.length_pos_iff.mpr (h.rest_ne_nil hkind)
    have hsees := h.ahead (n := 1) hlen
    rw [hsees.is]
    cases hequals : (s.ahead 1).is .equals with
    | false => rfl
    | true =>
      have hkind₁ : (s.ahead 1).kind ≠ .eof := fun hk => by simp [Token.is, hk] at hequals
      rw [h.current.eq_down_of_kind_ne hkind, hsees.eq_down_of_kind_ne hkind₁,
        assigns_sees _ _ (h.ahead (h.lt_of_kind_ne hkind₁))]

theorem two_le_of_isNamedValue (h : Beside F s t)
    (hn : isNamedValue s.current (s.ahead 1) (s.ahead 2) = true) : 2 ≤ s.rest.length := by
  refine h.lt_of_kind_ne fun hk => ?_
  simp [isNamedValue, Token.is, hk] at hn

theorem parseNamedValue_beside (hsub : SubParsers F gas gas' sub sub') (h : Beside F s t)
    (hgas : Enough F s (gas + 1) (gas' + 1)) (hlen : 2 ≤ s.rest.length) :
    Outcome F s (fun a b n => b = a.down F.lines ∧ s.pos < n) (parseNamedValue sub s)
      (parseNamedValue sub' t) := by
  refine h.next (List.ne_nil_of_length_pos (by omega)) fun s₁ t₁ h₁ hpos₁ => ?_
  have hleft := h₁.left
  refine h₁.beside.next (List.ne_nil_of_length_pos (by omega)) fun s₂ t₂ h₂ hpos₂ => ?_
  refine Outcome.bind (hsub 0 s₂ t₂ h₂.beside (hgas.consume (h₁.trans h₂) (by omega))) ?_
  rintro value _ s₃ t₃ h₃ ⟨rfl, _⟩
  have hpos₃ := h₃.pos_le
  have hspan : (value.map (Expr.down F.lines)).elim (s₁.current.down F.lines).span Expr.span = _ :=
    Expr.elim_span_down F.lines value s₁.current.span
  refine Outcome.bind (h₃.beside.expectValue value _ s₁.current.span) ?_
  intro _ _ s₄ t₄ h₄ hpos₄
  exact Outcome.pure h₄.beside ⟨by rw [hspan]; rfl, by omega⟩

theorem skipArgument_beside (h : Beside F s t) (group : Group) :
    Outcome F s (fun _ _ _ => True) (skipArgument group s) (skipArgument group t) :=
  ⟨h.skipUntil (.inr (by simp [isNewlineOrEnd])), trivial⟩

/-- An argument takes a token, unless it is missing before a comma. -/
theorem parseArgument_beside (hsub : SubParsers F gas gas' sub sub') (h : Beside F s t)
    (hgas : Enough F s gas gas') (group : Group) (stop : Position)
    (hclosing : s.current.kind ≠ .sign group.closing) (hend : isNewlineOrEnd s.current.kind = false) :
    Outcome F s (fun a b n => b = (a.1.map (Expr.down F.lines), a.2.down F.lines) ∧
        (s.pos < n ∨ n = s.pos ∧ s.current.kind = .sign .comma))
      (parseArgument sub group stop s) (parseArgument sub' group (stop.down F.lines) t) := by
  have hkind : s.current.kind ≠ .eof := fun hk => by simp [hk, isNewlineOrEnd] at hend
  refine Outcome.read rfl rfl (Outcome.read rfl rfl (Outcome.read rfl rfl ?_))
  refine Outcome.cond (isNamedValue_beside h) (fun hnamed => ?_) (fun _ => ?_)
  · refine Outcome.bind (parseNamedValue_beside hsub h hgas.succ (two_le_of_isNamedValue h hnamed)) ?_
    rintro value _ s₁ t₁ h₁ ⟨rfl, hlt⟩
    refine Outcome.pure h₁.beside ⟨?_, .inl hlt⟩
    rw [Option.map_some, Expr.down_named]
  refine Outcome.read rfl rfl ?_
  refine Outcome.bind (hsub 0 s t h hgas) ?_
  rintro (_ | arg) _ s₁ t₁ h₁ ⟨rfl, hlt⟩
  · refine Outcome.read rfl rfl ?_
    refine Outcome.cond (congrArg not (h.pos_beq h₁.beside)) (fun hmoved => ?_) (fun hstayed => ?_)
    · have hlt : s.pos < s₁.pos := by
        have := h₁.pos_le
        simp at hmoved
        omega
      refine Outcome.bind (skipArgument_beside h₁.beside group) ?_
      intro _ _ s₂ t₂ h₂ _
      exact Outcome.pure h₂.beside ⟨rfl, .inl (Nat.lt_of_lt_of_le hlt h₂.pos_le)⟩
    · have hpos₁ : s₁.pos = s.pos := by simpa using hstayed
      have hcurrent := h₁.current_eq hpos₁
      have hsees := h₁.beside.current.eq_down_of_kind_ne (hcurrent ▸ hkind)
      refine h₁.beside.check (.inr rfl) (fun hcomma => ?_) (fun _ => ?_)
      · have hcomma : s.current.kind = .sign .comma := by simpa [hcurrent, hclosing] using hcomma
        refine Outcome.bind (h₁.beside.reportHere rfl hsees) ?_
        intro _ _ s₂ t₂ h₂ hpos₂
        exact Outcome.pure h₂.beside ⟨rfl, .inr ⟨by omega, hcomma⟩⟩
      · refine h₁.beside.next (h₁.beside.rest_ne_nil (hcurrent ▸ hkind)) fun s₂ t₂ h₂ hpos₂ => ?_
        refine Outcome.bind (h₂.beside.report _ rfl) ?_
        intro _ _ s₃ t₃ h₃ hpos₃
        refine Outcome.bind (skipArgument_beside h₃.beside group) ?_
        intro _ _ s₄ t₄ h₄ _
        exact Outcome.pure h₄.beside ⟨rfl, .inl (by have := h₄.pos_le; omega)⟩
  · refine Outcome.pure h₁.beside ⟨?_, .inl (hlt rfl)⟩
    rw [Option.map_some, Expr.span_down]
    rfl

theorem toList_append_down (n : Nat) (arg : Option Expr) (args : List Expr) :
    (arg.map (Expr.down n)).toList ++ args.map (Expr.down n) =
      (arg.toList ++ args).map (Expr.down n) := by
  cases arg <;> rfl

/-- Every round takes a token, so the rounds come to an end. -/
theorem parseArgumentsFrom_beside (hsub : SubParsers F gas gas' sub sub') (group : Group)
    (openSpan : Span) (args : List Expr) (stop : Position) (h : Beside F s t)
    (hgas : Enough F s gas gas') (hloop : Enough F s loopGas loopGas') :
    Outcome F s (fun a b _ => b = (a.1.map (Expr.down F.lines), a.2.down F.lines))
      (parseArgumentsFrom sub group openSpan loopGas args stop s)
      (parseArgumentsFrom sub' group (openSpan.down F.lines) loopGas'
        (args.map (Expr.down F.lines)) (stop.down F.lines) t) := by
  induction loopGas generalizing loopGas' s t args stop with
  | zero => exact absurd hloop.lt (Nat.not_lt_zero _)
  | succ g ih =>
    obtain ⟨_, g', _, rfl⟩ := hloop.exists_succ
    rw [parseArgumentsFrom, parseArgumentsFrom]
    refine h.check (.inr rfl) (fun hclosing => ?_) (fun hclosing => ?_)
    · have hkind : s.current.kind ≠ .eof := fun hk => by simp [hk] at hclosing
      refine h.next (h.rest_ne_nil hkind) fun s₁ t₁ h₁ _ => ?_
      exact Outcome.pure h₁.beside (by rw [List.map_reverse]; rfl)
    refine h.check (.inr rfl) (fun _ => ?_) (fun hend => ?_)
    · refine Outcome.bind (h.report _ rfl) ?_
      intro _ _ s₁ t₁ h₁ _
      exact Outcome.pure h₁.beside (by rw [List.map_reverse])
    refine Outcome.bind
      (parseArgument_beside hsub h hgas group stop (by simpa using hclosing) hend) ?_
    rintro ⟨arg, stop₁⟩ _ s₁ t₁ h₁ ⟨rfl, hprogress⟩
    dsimp only
    rw [toList_append_down]
    have next : ∀ s₂ t₂, Step F s s₂ t₂ → s.pos < s₂.pos → Outcome F s₂ _ _ _ :=
      fun s₂ t₂ h₂ hlt => ih (arg.toList ++ args) stop₁ h₂.beside (hgas.step h₂)
        (hloop.consume h₂ hlt)
    refine h₁.beside.accept rfl (.inr rfl) (fun s₂ t₂ h₂ hpos₂ _ => ?_) (fun hcomma => ?_)
    · exact next s₂ t₂ (h₁.trans h₂) (by have := h₁.pos_le; omega)
    have hlt : s.pos < s₁.pos := hprogress.resolve_right fun ⟨hpos₁, hk⟩ => by
      simp [h₁.current_eq hpos₁, hk] at hcomma
    refine h₁.beside.check (.inr rfl) (fun _ => ?_) (fun hopen => ?_)
    · exact next s₁ t₁ h₁ hlt
    · have hsees := h₁.beside.current.eq_down_of_kind_ne fun hk => by
        simp [hk, isNewlineOrEnd] at hopen
      refine Outcome.bind (h₁.beside.reportHere rfl hsees) ?_
      intro _ _ s₂ t₂ h₂ _
      refine Outcome.bind (skipArgument_beside h₂.beside group) ?_
      intro _ _ s₃ t₃ h₃ _
      have h₁₃ := h₁.trans (h₂.trans h₃)
      have hlt₃ := Nat.lt_of_lt_of_le hlt (h₂.trans h₃).pos_le
      refine h₃.beside.accept rfl (.inr rfl) (fun s₄ t₄ h₄ hpos₄ _ => ?_) (fun _ => ?_)
      · exact next s₄ t₄ (h₁₃.trans h₄) (by omega)
      · exact next s₃ t₃ h₁₃ hlt₃

theorem parseArguments_beside (hsub : SubParsers F gas gas' sub sub') (group : Group)
    (h : Beside F s t) (hgas : Enough F s gas gas') (hloop : Enough F s loopGas loopGas')
    (hne : s.rest ≠ []) :
    Outcome F s (fun a b n => b = (a.1.map (Expr.down F.lines), a.2.down F.lines) ∧ s.pos < n)
      (parseArguments loopGas sub group s) (parseArguments loopGas' sub' group t) := by
  refine h.next hne fun s₁ t₁ h₁ hpos₁ => ?_
  have hlist := h₁.beside.inside group fun s₂ t₂ h₂ _ hrest =>
    parseArgumentsFrom_beside hsub group s.current.span [] s.current.span.stop h₂
      ((hgas.step h₁).of_rest hrest) ((hloop.step h₁).of_rest hrest)
  exact hlist.mono fun _ _ n hn hv => ⟨hv, by omega⟩

theorem isField_beside (h : Beside F s t) (hstart : F.start < s.pos) :
    isField t.previous t.current (t.ahead 1) = isField s.previous s.current (s.ahead 1) := by
  unfold isField
  rw [h.current.is]
  cases hpoint : s.current.is .period with
  | false => rfl
  | true =>
    have hkind : s.current.kind ≠ .eof := fun hk => by simp [Token.is, hk] at hpoint
    have hsees := h.ahead (n := 1) (List.length_pos_iff.mpr (h.rest_ne_nil hkind))
    rw [h.previous hstart, h.current.eq_down_of_kind_ne hkind, hsees.isName, hsees.adjacent,
      Token.adjacent_down]

theorem two_le_of_isField (h : Beside F s t)
    (hf : isField s.previous s.current (s.ahead 1) = true) : 2 ≤ s.rest.length := by
  refine h.lt_of_kind_ne fun hk => ?_
  simp [isField, Token.isName, Token.Kind.isName, hk] at hf

theorem argumentGroup?_kind_ne {kind : Token.Kind} {group : Group}
    (hg : argumentGroup? kind = some group) : kind ≠ .eof := by
  rintro rfl
  contradiction

theorem getD_append_down (n : Nat) (args : Option (List Expr)) (more : List Expr) :
    (args.map (List.map (Expr.down n))).getD [] ++ more.map (Expr.down n) =
      (args.getD [] ++ more).map (Expr.down n) := by
  cases args <;> simp

theorem parseNameFrom_beside {listGas listGas' : Nat} (hsub : SubParsers F gas gas' sub sub')
    (use : NameUse Expr) (h : Beside F s t) (hstart : F.start < s.pos)
    (hgas : Enough F s gas gas') (hlist : Enough F s listGas listGas')
    (hloop : Enough F s loopGas loopGas') :
    Outcome F s (fun a b _ => b = a.down F.lines) (parseNameFrom listGas sub loopGas use s)
      (parseNameFrom listGas' sub' loopGas' (use.down F.lines) t) := by
  induction loopGas generalizing loopGas' s t use with
  | zero => exact absurd hloop.lt (Nat.not_lt_zero _)
  | succ g ih =>
    obtain ⟨_, g', _, rfl⟩ := hloop.exists_succ
    rw [parseNameFrom, parseNameFrom]
    refine Outcome.read rfl rfl (Outcome.read rfl rfl (Outcome.read rfl rfl ?_))
    have next : ∀ (use₁ : NameUse Expr) (s₁ t₁ : State), Step F s s₁ t₁ → s.pos < s₁.pos →
        Outcome F s₁ _ _ _ := fun use₁ s₁ t₁ h₁ hlt =>
      ih use₁ h₁.beside (Nat.lt_trans hstart hlt) (hgas.step h₁) (hlist.step h₁)
        (hloop.consume h₁ hlt)
    refine Outcome.cond (isField_beside h hstart) (fun hfield => ?_) (fun _ => ?_)
    · have hlen := two_le_of_isField h hfield
      refine h.next (List.ne_nil_of_length_pos (by omega)) fun s₁ t₁ h₁ hpos₁ => ?_
      have hleft := h₁.left
      refine h₁.beside.next (List.ne_nil_of_length_pos (by omega)) fun s₂ t₂ h₂ hpos₂ => ?_
      exact next _ s₂ t₂ (h₁.trans h₂) (by omega)
    rw [h.current.kind argumentGroup? (.inr rfl)]
    cases hgroup : argumentGroup? s.current.kind with
    | none => exact Outcome.pure h rfl
    | some group =>
      have hkind := argumentGroup?_kind_ne hgroup
      refine Outcome.read rfl rfl ?_
      refine Outcome.cond ?_ (fun _ => ?_) (fun _ => ?_)
      · rw [h.groups, h.previous hstart, h.current.adjacent]
      · exact Outcome.pure h rfl
      · refine Outcome.bind
          (parseArguments_beside hsub group h hgas hlist (h.rest_ne_nil hkind)) ?_
        rintro ⟨args, stop⟩ _ s₁ t₁ h₁ ⟨rfl, hlt⟩
        have hargs := getD_append_down F.lines use.args args
        have hnext := next { use with
          args := some (use.args.getD [] ++ args), span := ⟨use.span.start, stop⟩ } s₁ t₁ h₁ hlt
        simp only [NameUse.down, Option.map_some, ← hargs] at hnext
        exact hnext

theorem parseName_beside (hsub : SubParsers F gas gas' sub sub') (h : Beside F s t)
    (hgas : Enough F s (gas + 1) (gas' + 1)) (hloop : Enough F s loopGas loopGas')
    (hne : s.rest ≠ []) :
    Outcome F s (fun a b n => b = a.down F.lines ∧ s.pos < n) (parseName loopGas sub s)
      (parseName loopGas' sub' t) := by
  refine h.next hne fun s₁ t₁ h₁ hpos₁ => ?_
  have hstart : F.start < s₁.pos := by have := h.start_le; omega
  have hfrom := parseNameFrom_beside hsub
    ⟨s.current.text, [], s.current.span, none, s.current.kind == .native, false⟩ h₁.beside hstart
    (hgas.consume h₁ (by omega)) (hloop.step h₁) (hloop.step h₁)
  exact hfrom.mono fun _ _ n hn hv => ⟨hv, by omega⟩

theorem parseGrouping_beside (hsub : SubParsers F gas gas' sub sub') (h : Beside F s t)
    (hgas : Enough F s (gas + 1) (gas' + 1)) (hne : s.rest ≠ []) :
    Outcome F s (OptionalExpr F s.pos) (parseGrouping sub s) (parseGrouping sub' t) := by
  refine h.next hne fun s₁ t₁ h₁ hpos₁ => ?_
  have hgas₁ := hgas.consume h₁ (by omega)
  refine Outcome.bind (h₁.beside.inside .paren fun s₂ t₂ h₂ hpos hrest =>
    hpos ▸ hsub 0 s₂ t₂ h₂ (hgas₁.of_rest hrest)) ?_
  rintro (_ | inner) _ s₂ t₂ h₂ ⟨rfl, hlt⟩
  · refine Outcome.bind (expectedExpression_beside h₂.beside rfl) ?_
    intro _ _ s₃ t₃ h₃ _
    exact Outcome.pure h₃.beside ⟨rfl, nofun⟩
  · have hlt := hlt rfl
    refine Outcome.bind (h₂.beside.expectSign .closeParen _ s.current.span) ?_
    intro _ _ s₃ t₃ h₃ _
    exact Outcome.pure h₃.beside ⟨rfl, fun _ => by have := h₃.pos_le; omega⟩

/-! Literals stand in the first run only where no code follows. -/

def MatrixRows.down (n : Nat) (m : MatrixRows) : MatrixRows :=
  ⟨m.rows.map (List.map (Expr.down n)), m.row.map (Expr.down n), m.stop.down n, m.expectsElement⟩

theorem MatrixRows.endRow_down (n : Nat) (m : MatrixRows) :
    (m.down n).endRow = m.endRow.down n := by
  unfold endRow down
  cases m.row <;> simp

theorem MatrixRows.push_down (n : Nat) (m : MatrixRows) (e : Expr) :
    (m.down n).push (e.down n) = (m.push e).down n := by
  simp [push, down]

theorem MatrixRows.toRows_down (n : Nat) (m : MatrixRows) :
    (m.down n).toRows = m.toRows.map (List.map (Expr.down n)) := by
  rw [toRows, endRow_down, toRows, List.map_reverse]
  rfl

theorem keywordOnNextLine_beside (h : Beside F s t) (htail : F.tail = []) :
    keywordOnNextLine t = keywordOnNextLine s := by
  unfold keywordOnNextLine
  rw [h.rest, htail, List.append_nil]
  cases s.rest with
  | nil => rfl
  | cons x xs =>
    rw [List.map_cons]
    simp only [List.dropWhile_map, List.head?_map, Option.any_map]
    rfl

theorem parseMatrixFrom_beside (htail : F.tail = []) (hsub : SubParsers F gas gas' sub sub')
    (kind : MatrixKind) (openSpan : Span) (m : MatrixRows) (h : Beside F s t)
    (hgas : Enough F s gas gas') (hloop : Enough F s loopGas loopGas') :
    Outcome F s (fun a b _ => b = a.down F.lines) (parseMatrixFrom sub kind openSpan loopGas m s)
      (parseMatrixFrom sub' kind (openSpan.down F.lines) loopGas' (m.down F.lines) t) := by
  induction loopGas generalizing loopGas' s t m with
  | zero => exact absurd hloop.lt (Nat.not_lt_zero _)
  | succ g ih =>
    obtain ⟨_, g', _, rfl⟩ := hloop.exists_succ
    rw [parseMatrixFrom, parseMatrixFrom]
    have next : ∀ (m₁ : MatrixRows) (s₁ t₁ : State), Step F s s₁ t₁ → s.pos < s₁.pos →
        Outcome F s₁ _ _ _ := fun m₁ s₁ t₁ h₁ hlt =>
      ih m₁ h₁.beside (hgas.step h₁) (hloop.consume h₁ hlt)
    refine h.check (.inl htail) (fun hclosing => ?_) (fun _ => ?_)
    · have hkind : s.current.kind ≠ .eof := fun hk => by simp [hk] at hclosing
      refine h.next (h.rest_ne_nil hkind) fun s₁ t₁ h₁ _ => ?_
      exact Outcome.pure h₁.beside rfl
    refine Outcome.read rfl rfl ?_
    refine Outcome.cond ?_ (fun _ => ?_) (fun hend => ?_)
    · rw [h.current.eq_down htail, keywordOnNextLine_beside h htail]
      rfl
    · refine Outcome.bind (h.report _ rfl) ?_
      intro _ _ s₁ t₁ h₁ _
      exact Outcome.pure h₁.beside rfl
    have hkind : s.current.kind ≠ .eof := fun hk => by simp [hk] at hend
    refine h.accept rfl (.inl htail) (fun s₁ t₁ h₁ hpos₁ _ => ?_) (fun _ => ?_)
    · rw [MatrixRows.endRow_down]
      exact next m.endRow s₁ t₁ h₁ (by omega)
    refine h.check (.inl htail) (fun _ => ?_) (fun _ => ?_)
    · refine h.next (h.rest_ne_nil hkind) fun s₁ t₁ h₁ hpos₁ => ?_
      refine Outcome.cond rfl (fun _ => ?_) (fun _ => ?_)
      · refine Outcome.bind (h₁.beside.report _ rfl) ?_
        intro _ _ s₂ t₂ h₂ _
        exact next { m with expectsElement := true } s₂ t₂ (h₁.trans h₂) (by omega)
      · exact next { m with expectsElement := true } s₁ t₁ h₁ (by omega)
    refine Outcome.read rfl rfl ?_
    refine Outcome.bind (hsub 0 s t h hgas) ?_
    rintro (_ | element) _ s₁ t₁ h₁ ⟨rfl, hlt⟩
    · refine Outcome.read rfl rfl ?_
      refine Outcome.cond (h.pos_beq h₁.beside) (fun hstayed => ?_) (fun hmoved => ?_)
      · have hcurrent := h₁.current_eq (by simpa using hstayed)
        refine h₁.beside.next (h₁.beside.rest_ne_nil (hcurrent ▸ hkind)) fun s₂ t₂ h₂ hpos₂ => ?_
        refine Outcome.bind (h₂.beside.report _ rfl) ?_
        intro _ _ s₃ t₃ h₃ _
        exact next m s₃ t₃ (h₁.trans (h₂.trans h₃)) (by have := h₁.pos_le; omega)
      · have hne : s₁.pos ≠ s.pos := by simpa using hmoved
        exact next m s₁ t₁ h₁ (Nat.lt_of_le_of_ne h₁.pos_le hne.symm)
    · rw [Option.map_some]
      dsimp only
      rw [MatrixRows.push_down]
      exact next (m.push element) s₁ t₁ h₁ (hlt rfl)

theorem parseMatrix_beside (htail : F.tail = []) (hsub : SubParsers F gas gas' sub sub')
    (kind : MatrixKind) (h : Beside F s t) (hgas : Enough F s (gas + 1) (gas' + 1))
    (hloop : Enough F s loopGas loopGas') (hne : s.rest ≠ []) :
    Outcome F s (fun a b n => b = a.down F.lines ∧ s.pos < n) (parseMatrix loopGas sub kind s)
      (parseMatrix loopGas' sub' kind t) := by
  refine h.next hne fun s₁ t₁ h₁ hpos₁ => ?_
  refine Outcome.bind (h₁.beside.inside (Group.ofMatrix kind) fun s₂ t₂ h₂ _ hrest =>
    parseMatrixFrom_beside htail hsub kind s.current.span ⟨[], [], s.current.span.stop, true⟩ h₂
      ((hgas.consume h₁ (by omega)).of_rest hrest) ((hloop.step h₁).of_rest hrest)) ?_
  rintro m _ s₂ t₂ h₂ rfl
  refine Outcome.pure h₂.beside ⟨?_, by have := h₂.pos_le; omega⟩
  rw [MatrixRows.toRows_down, Expr.down_matrix]
  rfl

/-! Function handles, and what stands alone. -/

theorem parseAnonymousParams_beside (openSpan : Span) (params : List String) (h : Beside F s t)
    (hloop : Enough F s loopGas loopGas') :
    Outcome F s (fun a b _ => a = b) (parseAnonymousParams openSpan loopGas params s)
      (parseAnonymousParams (openSpan.down F.lines) loopGas' params t) := by
  induction loopGas generalizing loopGas' s t params with
  | zero => exact absurd hloop.lt (Nat.not_lt_zero _)
  | succ g ih =>
    obtain ⟨_, g', _, rfl⟩ := hloop.exists_succ
    rw [parseAnonymousParams, parseAnonymousParams]
    refine h.accept rfl (.inr rfl) (fun s₁ t₁ h₁ _ _ => Outcome.pure h₁.beside rfl) (fun _ => ?_)
    refine h.check (.inr rfl) (fun _ => ?_) (fun hend => ?_)
    · refine Outcome.bind (h.report _ rfl) ?_
      intro _ _ s₁ t₁ h₁ _
      exact Outcome.pure h₁.beside rfl
    have hkind : s.current.kind ≠ .eof := fun hk => by simp [hk, isNewlineOrEnd] at hend
    refine h.next (h.rest_ne_nil hkind) fun s₁ t₁ h₁ hpos₁ => ?_
    refine Outcome.cond rfl (fun _ => ?_) (fun _ => ?_)
    · exact ih _ h₁.beside (hloop.consume h₁ (by omega))
    · refine Outcome.cond rfl (fun _ => ?_) (fun _ => ?_)
      · refine Outcome.bind (h₁.beside.report _ rfl) ?_
        intro _ _ s₂ t₂ h₂ _
        exact ih _ h₂.beside (hloop.consume (h₁.trans h₂) (by omega))
      · exact ih _ h₁.beside (hloop.consume h₁ (by omega))

theorem parseAt_beside (hsub : SubParsers F gas gas' sub sub') (h : Beside F s t)
    (hgas : Enough F s (gas + 1) (gas' + 1)) (hloop : Enough F s loopGas loopGas')
    (hne : s.rest ≠ []) :
    Outcome F s (OptionalExpr F s.pos) (parseAt loopGas sub s) (parseAt loopGas' sub' t) := by
  refine h.next hne fun s₁ t₁ h₁ hpos₁ => ?_
  refine h₁.beside.check (.inr rfl) (fun hparen => ?_) (fun _ => ?_)
  · have hkind : s₁.current.kind ≠ .eof := fun hk => by simp [hk] at hparen
    refine h₁.beside.next (h₁.beside.rest_ne_nil hkind) fun s₂ t₂ h₂ hpos₂ => ?_
    refine Outcome.bind
      (parseAnonymousParams_beside s₁.current.span [] h₂.beside ((hloop.step h₁).step h₂)) ?_
    rintro params _ s₃ t₃ h₃ rfl
    have hpos₃ := h₃.pos_le
    refine Outcome.bind (hsub 0 s₃ t₃ h₃.beside
      (hgas.consume (h₁.trans (h₂.trans h₃)) (by omega))) ?_
    rintro body _ s₄ t₄ h₄ ⟨rfl, _⟩
    have hpos₄ := h₄.pos_le
    have hstart : F.start < s₄.pos := by have := h.start_le; omega
    have value {s₅ t₅ : State} (h₅ : Step F s₄ s₅ t₅) :
        some (Expr.anonymous params (body.map (Expr.down F.lines)) ⟨(s.current.down F.lines).span.start,
          ((body.map (Expr.down F.lines)).elim t₅.previous.span Expr.span).stop⟩) =
        (some (Expr.anonymous params body ⟨s.current.span.start,
          (body.elim s₅.previous.span Expr.span).stop⟩)).map (Expr.down F.lines) := by
      rw [h₅.beside.previous (Nat.lt_of_lt_of_le hstart h₅.pos_le), Token.span_down, Token.span_down,
        Expr.elim_span_down, Option.map_some, Expr.down_anonymous]
      rfl
    refine Outcome.cond (by cases body <;> rfl) (fun _ => ?_) (fun _ => ?_)
    · refine Outcome.read rfl rfl ?_
      refine Outcome.bind (expectedExpression_beside h₄.beside (h₄.beside.previous hstart)) ?_
      intro _ _ s₅ t₅ h₅ _
      have hpos₅ := h₅.pos_le
      exact Outcome.read rfl rfl (Outcome.pure h₅.beside ⟨value h₅, fun _ => by omega⟩)
    · exact Outcome.read rfl rfl
        (Outcome.pure h₄.beside ⟨value (.refl h₄.beside), fun _ => by omega⟩)
  · refine Outcome.read rfl rfl ?_
    refine Outcome.cond h₁.beside.current.isName (fun hname => ?_) (fun _ => ?_)
    · have hkind : s₁.current.kind ≠ .eof := fun hk => by
        simp [Token.isName, Token.Kind.isName, hk] at hname
      refine h₁.beside.next (h₁.beside.rest_ne_nil hkind) fun s₂ t₂ h₂ hpos₂ => ?_
      refine Outcome.pure h₂.beside ⟨?_, fun _ => by omega⟩
      rw [Token.span_down, Token.span_down, Span.down_merge, Option.map_some, Expr.down]
      rfl
    · refine Outcome.bind (h₁.beside.report _ rfl) ?_
      intro _ _ s₂ t₂ h₂ _
      exact Outcome.pure h₂.beside ⟨rfl, nofun⟩

theorem parseMark_beside (mark : Mark) (h : Beside F s t) (hne : s.rest ≠ []) :
    Outcome F s (OptionalExpr F s.pos) (parseMark mark s) (parseMark mark t) := by
  refine Outcome.read rfl rfl ?_
  refine Outcome.cond (by rw [h.groups]) (fun _ => ?_) (fun _ => Outcome.pure h ⟨rfl, nofun⟩)
  refine h.next hne fun s₁ t₁ h₁ hpos₁ => ?_
  exact Outcome.pure h₁.beside ⟨by rw [Option.map_some, Expr.down]; rfl, fun _ => by omega⟩

/-- The primaries of the first run are those of plain code where more code follows. -/
theorem parsePrimary_beside (hsub : SubParsers F gas gas' sub sub') (h : Beside F s t)
    (hgas : Enough F s (gas + 1) (gas' + 1)) (hloop : Enough F s loopGas loopGas') :
    Outcome F s (OptionalExpr F s.pos) (parsePrimary loopGas sub s)
      (parsePrimary loopGas' sub' t) := by
  refine Outcome.read rfl rfl ?_
  by_cases hne : s.rest = []
  · have hkind : s.current.kind = .eof := by
      by_contra hk
      exact h.rest_ne_nil hk hne
    have hkind' : t.current.kind = .eof ∨ t.current.kind = .newline := by
      cases h.current with
      | same hsame => exact .inl (by rw [hsame, Token.kind_down, hkind])
      | newline _ _ hline _ => exact .inr hline
    obtain hkind' | hkind' := hkind' <;> rw [hkind, hkind'] <;> exact Outcome.pure h ⟨rfl, nofun⟩
  have hcurrent := h.current.eq_down_of_kind_ne (h.current_kind_ne hne)
  have htail (hk : s.current.kind.isPlain = false) : F.tail = [] := by
    by_contra htail
    rw [h.current_plain htail] at hk
    contradiction
  rw [hcurrent, Token.kind_down]
  cases hk : s.current.kind with
  | number =>
    refine h.next hne fun s₁ t₁ h₁ hpos₁ => ?_
    exact Outcome.pure h₁.beside ⟨by rw [Option.map_some, Expr.down]; rfl, fun _ => by omega⟩
  | string =>
    refine Outcome.bind (h.takeString hne) ?_
    rintro s.current _ s₁ t₁ h₁ ⟨-, rfl, hpos₁⟩
    refine Outcome.cond rfl (fun _ => ?_) (fun _ => ?_)
    · refine Outcome.bind (h₁.beside.report _ rfl) ?_
      intro _ _ s₂ t₂ h₂ hpos₂
      exact Outcome.pure h₂.beside ⟨by rw [Option.map_some, Expr.down]; rfl, fun _ => by omega⟩
    · exact Outcome.pure h₁.beside ⟨by rw [Option.map_some, Expr.down]; rfl, fun _ => by omega⟩
  | identifier | native =>
    refine Outcome.bind (parseName_beside hsub h hgas hloop hne) ?_
    rintro use _ s₁ t₁ h₁ ⟨rfl, hlt⟩
    exact Outcome.pure h₁.beside ⟨by rw [Option.map_some, Expr.down_name], fun _ => hlt⟩
  | sign sign =>
    cases sign with
    | openParen => exact parseGrouping_beside hsub h hgas hne
    | openBracket =>
      refine Outcome.bind (parseMatrix_beside (htail (by rw [hk]; rfl)) hsub .vector h hgas hloop hne) ?_
      rintro e _ s₁ t₁ h₁ ⟨rfl, hlt⟩
      exact Outcome.pure h₁.beside ⟨rfl, fun _ => hlt⟩
    | openBrace =>
      refine Outcome.bind (parseMatrix_beside (htail (by rw [hk]; rfl)) hsub .cell h hgas hloop hne) ?_
      rintro e _ s₁ t₁ h₁ ⟨rfl, hlt⟩
      exact Outcome.pure h₁.beside ⟨rfl, fun _ => hlt⟩
    | atSign => exact parseAt_beside hsub h hgas hloop hne
    | colon => exact parseMark_beside .whole h hne
    | _ => exact Outcome.pure h ⟨rfl, nofun⟩
  | keyword word =>
    cases word with
    | endAny => exact parseMark_beside .last h hne
    | _ => exact Outcome.pure h ⟨rfl, nofun⟩
  | _ => exact Outcome.pure h ⟨rfl, nofun⟩

/-! Operators. -/

theorem isPlainTranspose_beside (h : Beside F s t) :
    isPlainTranspose t.current (t.ahead 1) = isPlainTranspose s.current (s.ahead 1) := by
  unfold isPlainTranspose
  rw [h.current.is]
  cases hpoint : s.current.is .period with
  | false => rfl
  | true =>
    have hkind : s.current.kind ≠ .eof := fun hk => by simp [Token.is, hk] at hpoint
    have hsees := h.ahead (n := 1) (List.length_pos_iff.mpr (h.rest_ne_nil hkind))
    rw [h.current.eq_down_of_kind_ne hkind, hsees.kind (· == .transpose) (.inr rfl), hsees.adjacent]

theorem parseTransposes_beside (operand : Expr) (h : Beside F s t)
    (hloop : Enough F s loopGas loopGas') :
    Outcome F s (fun a b _ => b = a.down F.lines) (parseTransposes loopGas operand s)
      (parseTransposes loopGas' (operand.down F.lines) t) := by
  induction loopGas generalizing loopGas' s t operand with
  | zero => exact absurd hloop.lt (Nat.not_lt_zero _)
  | succ g ih =>
    obtain ⟨_, g', _, rfl⟩ := hloop.exists_succ
    rw [parseTransposes, parseTransposes]
    refine Outcome.read rfl rfl (Outcome.read rfl rfl ?_)
    refine Outcome.cond (h.current.kind (· == .transpose) (.inr rfl)) (fun hquote => ?_) (fun _ => ?_)
    · have hkind : s.current.kind ≠ .eof := fun hk => by simp [hk] at hquote
      refine h.next (h.rest_ne_nil hkind) fun s₁ t₁ h₁ hpos₁ => ?_
      have hnext := ih (.transposed .conjugate operand (operand.span.merge s.current.span)) h₁.beside
        (hloop.consume h₁ (by omega))
      rw [h.current.eq_down_of_kind_ne hkind, Token.span_down, Expr.span_down, Span.down_merge]
      rwa [Expr.down] at hnext
    refine Outcome.cond (isPlainTranspose_beside h) (fun hquote => ?_)
      (fun _ => Outcome.pure h rfl)
    have hkind₁ : (s.ahead 1).kind ≠ .eof := fun hk => by simp [isPlainTranspose, hk] at hquote
    have hlen := h.lt_of_kind_ne hkind₁
    refine h.next (List.ne_nil_of_length_pos (by omega)) fun s₁ t₁ h₁ hpos₁ => ?_
    have hleft := h₁.left
    refine h₁.beside.next (List.ne_nil_of_length_pos (by omega)) fun s₂ t₂ h₂ hpos₂ => ?_
    have hnext := ih (.transposed .plain operand (operand.span.merge (s.ahead 1).span)) h₂.beside
      (hloop.consume (h₁.trans h₂) (by omega))
    rw [(h.ahead (Nat.le_of_lt hlen)).eq_down_of_kind_ne hkind₁, Token.span_down, Expr.span_down,
      Span.down_merge]
    rwa [Expr.down] at hnext

theorem prefixAt_kind_ne {token : Token} {op : PrefixOp} (h : prefixAt token = some op) :
    token.kind ≠ .eof := by
  intro hk
  simp [prefixAt, hk] at h

theorem Frame.Sees.prefixAt {x y : Token} (h : F.Sees x y) : prefixAt y = prefixAt x := by
  cases h with
  | same h => rw [h]; rfl
  | newline _ hx hy => simp only [Parser.prefixAt, hx, hy]

theorem parseUnary_beside (hsub : SubParsers F gas gas' sub sub') (h : Beside F s t)
    (hgas : Enough F s (gas + 1) (gas' + 1)) (hloop : Enough F s loopGas loopGas') :
    Outcome F s (OptionalExpr F s.pos) (parseUnary loopGas sub s) (parseUnary loopGas' sub' t) := by
  refine Outcome.read rfl rfl ?_
  rw [h.current.prefixAt]
  cases hop : prefixAt s.current with
  | some op =>
    refine h.next (h.rest_ne_nil (prefixAt_kind_ne hop)) fun s₁ t₁ h₁ hpos₁ => ?_
    refine Outcome.bind (hsub _ s₁ t₁ h₁.beside (hgas.consume h₁ (by omega))) ?_
    rintro (_ | operand) _ s₂ t₂ h₂ ⟨rfl, hlt⟩
    · refine Outcome.bind (expectedExpression_beside h₂.beside rfl) ?_
      intro _ _ s₃ t₃ h₃ _
      exact Outcome.pure h₃.beside ⟨rfl, nofun⟩
    · refine Outcome.pure h₂.beside ⟨?_, fun _ => by have := hlt rfl; omega⟩
      rw [Token.span_down, Expr.span_down, Span.down_merge, Option.map_some, Expr.down]
  | none =>
    refine Outcome.bind (parsePrimary_beside hsub h hgas hloop) ?_
    rintro (_ | operand) _ s₁ t₁ h₁ ⟨rfl, hlt⟩
    · exact Outcome.pure h₁.beside ⟨rfl, nofun⟩
    · refine Outcome.bind (parseTransposes_beside operand h₁.beside (hloop.step h₁)) ?_
      rintro e _ s₂ t₂ h₂ rfl
      exact Outcome.pure h₂.beside ⟨rfl, fun _ => Nat.lt_of_lt_of_le (hlt rfl) h₂.pos_le⟩

theorem advanceBy_beside (h : Beside F s t) {n : Nat} (hn : n ≤ s.rest.length) :
    Outcome F s (fun _ _ m => m = s.pos + n) (advanceBy n s) (advanceBy n t) := by
  induction n generalizing s t with
  | zero => exact Outcome.pure h rfl
  | succ n ih =>
    refine h.next (List.ne_nil_of_length_pos (by omega)) fun s₁ t₁ h₁ hpos₁ => ?_
    have hleft := h₁.left
    exact (ih h₁.beside (by omega)).mono fun _ _ _ _ hm => by omega

/-- An operator is spelled by one sign or by two. -/
theorem operatorAt_eq_some {x y : Token} {op : BinaryOp} {width : Nat}
    (h : operatorAt x y = some (op, width)) : ∃ first, x.kind = .sign first ∧
      (width = 1 ∧ BinaryOp.ofSign? first = some op ∨
        width = 2 ∧ ∃ second, y.kind = .sign second ∧ BinaryOp.ofSigns? first second = some op) := by
  unfold operatorAt at h
  split at h
  case h_2 => contradiction
  case h_1 first hfirst =>
    refine ⟨first, hfirst, ?_⟩
    split at h
    case h_2 =>
      obtain ⟨_, hop, heq⟩ := Option.map_eq_some_iff.mp h
      cases heq
      exact .inl ⟨rfl, hop⟩
    case h_1 hdouble =>
      cases h
      unfold doubleOperatorAt at hdouble
      split at hdouble
      case h_2 => contradiction
      case h_1 second hsecond =>
        split_ifs at hdouble
        exact .inr ⟨rfl, second, hsecond, hdouble⟩

theorem operatorAt_width (h : Beside F s t) {op : BinaryOp} {width : Nat}
    (hop : operatorAt s.current (s.ahead 1) = some (op, width)) :
    0 < width ∧ width ≤ s.rest.length := by
  obtain ⟨first, hfirst, ⟨rfl, _⟩ | ⟨rfl, second, hsecond, _⟩⟩ := operatorAt_eq_some hop
  · have hne := h.rest_ne_nil (by rw [hfirst]; exact nofun)
    exact ⟨Nat.one_pos, List.length_pos_iff.mpr hne⟩
  · exact ⟨Nat.two_pos, h.lt_of_kind_ne (by rw [hsecond]; exact nofun)⟩

theorem doubleOperatorAt_sees (first : Sign) (x : Token) {y y' : Token} (h : F.Sees y y') :
    doubleOperatorAt first (x.down F.lines) y' = doubleOperatorAt first x y := by
  cases h with
  | same h => simp only [h, doubleOperatorAt, Token.kind_down, Token.adjacent_down]
  | newline _ hy hy' => simp only [doubleOperatorAt, hy, hy']

theorem operatorAt_beside (h : Beside F s t) :
    operatorAt t.current (t.ahead 1) = operatorAt s.current (s.ahead 1) := by
  unfold operatorAt
  by_cases hkind : s.current.kind = .eof
  · cases h.current with
    | same hsame => rw [hsame, Token.kind_down, hkind]
    | newline _ _ hline _ => rw [hkind, hline]
  · have hsees := h.ahead (n := 1) (List.length_pos_iff.mpr (h.rest_ne_nil hkind))
    simp only [h.current.eq_down_of_kind_ne hkind, Token.kind_down, doubleOperatorAt_sees _ _ hsees]

theorem elementSeparator_beside (h : Beside F s t) (hstart : F.start < s.pos) (hne : s.rest ≠ []) :
    (t.groups.head?.any Group.isMatrix && (t.current.is .plus || t.current.is .minus) &&
        !t.previous.adjacent t.current && t.current.adjacent (t.ahead 1)) =
      (s.groups.head?.any Group.isMatrix && (s.current.is .plus || s.current.is .minus) &&
        !s.previous.adjacent s.current && s.current.adjacent (s.ahead 1)) := by
  have hsees := h.ahead (n := 1) (List.length_pos_iff.mpr hne)
  rw [h.groups, h.current.is, h.current.is, h.previous hstart, h.current.adjacent,
    h.current.eq_down_of_kind_ne (h.current_kind_ne hne), hsees.adjacent]

theorem parseOperators_beside (hsub : SubParsers F gas gas' sub sub') (least : Nat) (left : Expr)
    (h : Beside F s t) (hstart : F.start < s.pos) (hgas : Enough F s (gas + 1) (gas' + 1))
    (hloop : Enough F s loopGas loopGas') :
    Outcome F s (fun a b _ => b = a.down F.lines) (parseOperators sub least loopGas left s)
      (parseOperators sub' least loopGas' (left.down F.lines) t) := by
  induction loopGas generalizing loopGas' s t left with
  | zero => exact absurd hloop.lt (Nat.not_lt_zero _)
  | succ g ih =>
    obtain ⟨_, g', _, rfl⟩ := hloop.exists_succ
    rw [parseOperators, parseOperators]
    refine Outcome.read rfl rfl ?_
    rw [operatorAt_beside h]
    cases hop : operatorAt s.current (s.ahead 1) with
    | none => exact Outcome.pure h rfl
    | some found =>
      obtain ⟨op, width⟩ := found
      obtain ⟨hwidth, hlen⟩ := operatorAt_width h hop
      have hne : s.rest ≠ [] := List.ne_nil_of_length_pos (by omega)
      refine Outcome.ite (fun _ => Outcome.pure h rfl) (fun _ => ?_)
      refine Outcome.read rfl rfl ?_
      refine Outcome.cond (elementSeparator_beside h hstart hne) (fun _ => Outcome.pure h rfl)
        (fun _ => ?_)
      refine Outcome.read rfl rfl ?_
      refine Outcome.bind (advanceBy_beside h hlen) ?_
      intro _ _ s₁ t₁ h₁ hpos₁
      refine Outcome.bind (hsub _ s₁ t₁ h₁.beside (hgas.consume h₁ (by omega))) ?_
      rintro (_ | right) _ s₂ t₂ h₂ ⟨rfl, hlt⟩
      · have hafter := h.current.eq_down_of_kind_ne (h.current_kind_ne hne)
        refine Outcome.bind (expectedExpression_beside h₂.beside hafter) ?_
        intro _ _ s₃ t₃ h₃ _
        exact Outcome.pure h₃.beside rfl
      · have hlt := hlt rfl
        have h₁₂ := h₁.trans h₂
        have hnext := ih (.binary op left right (left.span.merge right.span)) h₂.beside (by omega)
          (hgas.step h₁₂) (hloop.consume h₁₂ (by omega))
        rw [Expr.down, ← Span.down_merge, ← Expr.span_down, ← Expr.span_down] at hnext
        exact hnext

/-- With gas for all tokens, the depth of expressions is no limit. -/
theorem parseExpression_beside (gas gas' : Nat) :
    SubParsers F gas gas' (parseExpression gas) (parseExpression gas') := by
  induction gas generalizing gas' with
  | zero => exact fun _ _ _ _ hgas => absurd hgas.lt (Nat.not_lt_zero _)
  | succ g ih =>
    intro least s t h hgas
    obtain ⟨_, g', _, rfl⟩ := hgas.exists_succ
    rw [parseExpression, parseExpression]
    refine Outcome.bind (parseUnary_beside (ih g') h hgas hgas) ?_
    rintro (_ | left) _ s₁ t₁ h₁ ⟨rfl, hlt⟩
    · exact Outcome.pure h₁.beside ⟨rfl, nofun⟩
    · have hlt := hlt rfl
      have hstart : F.start < s₁.pos := Nat.lt_of_le_of_lt h.start_le hlt
      refine Outcome.bind (parseOperators_beside (ih g') least left h₁.beside hstart
        (hgas.step h₁) (hgas.step h₁)) ?_
      rintro e _ s₂ t₂ h₂ rfl
      exact Outcome.pure h₂.beside ⟨rfl, fun _ => Nat.lt_of_lt_of_le hlt h₂.pos_le⟩

end MatrixScript.Parser
