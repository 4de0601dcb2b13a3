import MatrixScript.Proofs.Parser.Lookahead

/-! How the parsers of expressions come back.

Main statement: they leave the open brackets and the earlier reports as they were. With an expression they
have taken a token. Without one they have done nothing, or they have taken a token and reported an error. -/
namespace MatrixScript.Parser

variable {s s₁ : State} {α : Type} {gas : Nat}

/-- A parser of expressions has come back from `s` with an expression or without one. -/
structure ComesBack (s : State) (x : Option Expr × State) : Prop where
  groups_eq : x.2.groups = s.groups
  /-- Reports are only added. -/
  appended : s.diagnostics.toList <+: x.2.diagnostics.toList
  pos_lt : x.1.isSome = true → s.pos < x.2.pos
  none : x.1 = none → x.2.pos = s.pos ∧ x.2.diagnostics = s.diagnostics ∨
    s.pos < x.2.pos ∧ ∃ d ∈ x.2.diagnostics.toList.drop s.diagnostics.size, d.isError = true
  /-- No loop was left before its end. -/
  faults_eq : x.2.faults = []

/-! Where there is no expression. -/

/-- The parser has taken a token. -/
structure Takes (s s' : State) : Prop extends Extends s s' where
  pos_lt : s.pos < s'.pos

theorem Takes.trans (h : Takes s s₁) {s₂ : State} (h' : Extends s₁ s₂) : Takes s s₂ :=
  ⟨h.toExtends.trans h', Nat.lt_of_lt_of_le h.pos_lt h'.pos_le⟩

/-- Without an expression the parser has done nothing, or it has taken a token and reported an error. -/
def Declines (s : State) (x : Option Expr × State) : Prop :=
  x.1 = none → x.2 = s ∨
    s.pos < x.2.pos ∧ ∃ d ∈ x.2.diagnostics.toList.drop s.diagnostics.size, d.isError = true

namespace Declines

theorem stay : Declines s ((pure none : Parser (Option Expr)) s) := fun _ => .inl rfl

theorem some (e : Expr) : Declines s ((pure (some e) : Parser (Option Expr)) s₁) := nofun

theorem bind {p : Parser α} {f : α → Parser (Option Expr)} (h : ∀ a s₂, Declines s (f a s₂)) :
    Declines s ((p >>= f) s₁) := h _ _

theorem ite {c : Prop} [Decidable c] {p q : Parser (Option Expr)} (yes : c → Declines s (p s₁))
    (no : ¬c → Declines s (q s₁)) : Declines s ((if c then p else q) s₁) := by
  split_ifs with hc
  · exact yes hc
  · exact no hc

/-- The first token is taken. -/
theorem next {f : Token → Parser (Option Expr)} (hne : s.rest ≠ [])
    (h : ∀ t s₁, Takes s s₁ → Declines s (f t s₁)) : Declines s ((advance >>= f) s) :=
  h _ _ ⟨.advance s, Nat.lt_of_lt_of_eq (Nat.lt_succ_self _) (advance_pos hne).symm⟩

theorem later {p : Parser α} {f : α → Parser (Option Expr)} (hs : Takes s s₁) (hp : Extends s₁ (p s₁).2)
    (h : ∀ a s₂, Takes s s₂ → Declines s (f a s₂)) : Declines s ((p >>= f) s₁) :=
  h _ _ (hs.trans hp)

theorem error (hs : Takes s s₁) {problem : Problem} (hproblem : problem.severity = .error) (span : Span) :
    Declines s (none, (report problem span s₁).2) := by
  refine fun _ => .inr ⟨hs.pos_lt, problem.toDiagnostic span, ?_, ?_⟩
  · have hle : s.diagnostics.size ≤ s₁.diagnostics.toList.length := hs.diagnostics.length_le
    change _ ∈ ((s₁.diagnostics.push _).toList).drop _
    rw [Array.toList_push, List.drop_append_of_le_length hle]
    exact List.mem_append_right _ (List.mem_singleton_self _)
  · rw [Problem.toDiagnostic, Diagnostic.isError, hproblem]
    rfl

theorem expected (hs : Takes s s₁) (after : Token) :
    Declines s ((expectedExpression after >>= fun _ => pure none) s₁) := by
  change Declines s (none, ((if endsStatement s₁.current.kind = true then _ else _ : Parser Unit) s₁).2)
  split_ifs
  · exact error hs rfl after.span
  · exact error hs rfl s₁.current.span

/-- What follows an expression makes another one of it. -/
theorem through {p : Parser (Option Expr)} {f : Option Expr → Parser (Option Expr)} (hp : Declines s (p s))
    (hnone : ∀ s', f none s' = (none, s')) (hsome : ∀ e s', Declines s (f (Option.some e) s')) :
    Declines s ((p >>= f) s) := by
  change Declines s (f (p s).1 (p s).2)
  cases hvalue : (p s).1 with
  | none =>
    rw [hnone]
    exact fun _ => hp hvalue
  | some e => exact hsome e _

end Declines

theorem parseGrouping_declines (hne : s.rest ≠ []) : Declines s (parseGrouping (parseExpression gas) s) := by
  refine .next hne fun opening s₁ h₁ => ?_
  refine .later h₁ (Leads.inside (V := fun _ => True) ⟨parseExpression_extends gas 0 _, trivial⟩).1 fun inner s₂ h₂ => ?_
  cases inner with
  | none => exact .expected h₂ opening
  | some inner => exact .bind fun _ _ => .some inner

theorem parseAt_declines (loopGas : Nat) (hne : s.rest ≠ []) :
    Declines s (parseAt loopGas (parseExpression gas) s) := by
  refine .next hne fun sign s₁ h₁ => .ite (fun _ => ?_) (fun _ => .ite (fun _ => ?_) (fun _ => ?_))
  · refine .bind fun _ _ => .bind fun _ _ => .bind fun body _ => .ite (fun _ => ?_) (fun _ => ?_)
    · exact .bind fun _ _ => .bind fun _ _ => .bind fun _ _ => .some _
    · exact .bind fun _ _ => .some _
  · exact .bind fun _ _ => .some _
  · exact .error h₁ rfl sign.span

theorem parseMark_declines (mark : Mark) : Declines s (parseMark mark s) :=
  .ite (fun _ => .bind fun _ _ => .some _) (fun _ => .stay)

theorem parsePrimary_declines (loopGas : Nat) (heof : s.code.eof.kind = .eof) :
    Declines s (parsePrimary loopGas (parseExpression gas) s) := by
  have hne {kind : Token.Kind} (hkind : s.current.kind = kind) (h : kind ≠ .eof) : s.rest ≠ [] :=
    (Calm.refl s heof).rest_ne_nil (hkind ▸ h)
  rw [parsePrimary, current_bind]
  cases hkind : s.current.kind with
  | number => exact .bind fun _ _ => .some _
  | string =>
    exact .bind fun _ _ => .ite (fun _ => .bind fun _ _ => .some _) (fun _ => .some _)
  | identifier | native => exact .bind fun _ _ => .some _
  | sign sign =>
    cases sign with
    | openParen => exact parseGrouping_declines (hne hkind (by decide))
    | openBracket | openBrace => exact .bind fun _ _ => .some _
    | atSign => exact parseAt_declines loopGas (hne hkind (by decide))
    | colon => exact parseMark_declines .whole
    | _ => exact .stay
  | keyword word =>
    cases word with
    | endAny => exact parseMark_declines .last
    | _ => exact .stay
  | _ => exact .stay

theorem parseUnary_declines (loopGas : Nat) (heof : s.code.eof.kind = .eof) :
    Declines s (parseUnary loopGas (parseExpression gas) s) := by
  rw [parseUnary, current_bind]
  cases hop : prefixAt s.current with
  | some op =>
    refine .next ((Calm.refl s heof).rest_ne_nil (prefixAt_kind_ne hop)) fun sign s₁ h₁ => ?_
    refine .later h₁ (parseExpression_extends gas _ s₁) fun operand s₂ h₂ => ?_
    cases operand with
    | none => exact .expected h₂ sign
    | some operand => exact .some _
  | none =>
    exact .through (parsePrimary_declines loopGas heof) (fun _ => rfl) fun _ _ => .bind fun _ _ => .some _

theorem parseExpression_declines (least : Nat) (heof : s.code.eof.kind = .eof) :
    Declines s (parseExpression (gas + 1) least s) :=
  .through (parseUnary_declines (gas + 1) heof) (fun _ => rfl) fun _ _ => .bind fun _ _ => .some _

/-! All that is kept. -/

theorem ComesBack.of_outcome {p : Parser (Option Expr)} (hrun : Outcome (.reported s) s.unreported
      (OptionalExpr (.reported s) s.pos) (p s.unreported) (p s)) (hnone : Declines s (p s)) :
    ComesBack s (p s) where
  groups_eq := hrun.1.beside.groups.trans hrun.1.groups
  appended := by
    rw [hrun.1.beside.diagnostics, Array.toList_append]
    exact List.prefix_append _ _
  pos_lt := by
    rw [hrun.2.1, Option.isSome_map, hrun.1.same_pos]
    exact hrun.2.2
  none := by
    intro h
    refine (hnone h).imp_left fun hsame => ?_
    rw [hsame]
    exact ⟨rfl, rfl⟩
  faults_eq := hrun.1.beside.faults.2

/-- Wherever the parser is in the code of a text, and whatever brackets are open and whatever was reported before,
the parsers of expressions come back so. Those of brackets and handles are called at a token. -/
theorem expressions_come_back (limit : Int) (text : String) (tokens : List Token) (n gas : Nat) (s : State)
    (htokens : tokenize limit text = .ok tokens) (hcode : s.code = Code.ofTokens (tokens.take n))
    (hfaults : s.faults = []) (hgas : s.rest.length ≤ gas) :
    (∀ least, ComesBack s (parseExpression (gas + 1) least s)) ∧
    ComesBack s (parseUnary (gas + 1) (parseExpression gas) s) ∧
    ComesBack s (parsePrimary (gas + 1) (parseExpression gas) s) ∧
    (s.current.kind ≠ .eof →
      ComesBack s (parseGrouping (parseExpression gas) s) ∧
      ComesBack s (parseAt (gas + 1) (parseExpression gas) s) ∧
      ∀ kind, ComesBack s ((some <$> parseMatrix (gas + 1) (parseExpression gas) kind) s)) := by
  have hreads := ((tokenize_eq_ok_iff limit text tokens).mp htokens).1
  have heof : s.code.eof.kind = .eof := hcode ▸ Code.eof_kind _
  have hkinds : ∀ t ∈ s.code.tokens, t.kind ≠ .eof :=
    hcode ▸ Code.kind_ne_of_mem_tokens (hreads.endsOnce.sublist (List.take_sublist n tokens))
  have hbeside := Beside.unreported heof hkinds hfaults
  have henough : Enough (.reported s) s.unreported (gas + 1) (gas + 1) :=
    ⟨Nat.lt_succ_of_le hgas, Nat.lt_succ_of_le hgas⟩
  have hsub : SubParsers (.reported s) gas gas _ _ := parseExpression_beside gas gas
  refine ⟨fun least => .of_outcome (parseExpression_beside _ _ least _ _ hbeside henough)
      (parseExpression_declines least heof),
    .of_outcome (parseUnary_beside hsub hbeside henough henough) (parseUnary_declines _ heof),
    .of_outcome (parsePrimary_beside hsub hbeside henough henough) (parsePrimary_declines _ heof), ?_⟩
  intro hkind
  have hne : s.rest ≠ [] := hbeside.rest_ne_nil hkind
  refine ⟨.of_outcome (parseGrouping_beside hsub hbeside henough hne) (parseGrouping_declines hne),
    .of_outcome (parseAt_beside hsub hbeside henough henough hne) (parseAt_declines _ hne), fun kind => ?_⟩
  refine .of_outcome (.map (parseMatrix_beside rfl hsub kind hbeside henough henough hne) ?_) nofun
  exact fun _ _ _ hmatrix => ⟨congrArg some hmatrix.1, fun _ => hmatrix.2⟩

/-- At the sign in `x(1 +`, inside the parentheses. -/
def openCallState : State :=
  { (State.ofCode (Code.ofTokens (openCall.take 4))).skip 3 (by decide) with groups := [.paren] }

/-- The sign is taken, its operand is missing, and there is no expression. -/
theorem expressions_come_back_openCall : tokenize 5 "x(1 +" = .ok openCall ∧
    (parseExpression 2 0 openCallState).1.isNone = true ∧
    ComesBack openCallState (parseExpression 2 0 openCallState) :=
  ⟨rfl, by decide, (expressions_come_back 5 "x(1 +" openCall 4 1 openCallState rfl rfl rfl (by decide)).1 0⟩

end MatrixScript.Parser
