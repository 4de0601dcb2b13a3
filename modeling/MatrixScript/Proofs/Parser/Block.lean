import MatrixScript.Proofs.Parser.Line

/-! Statements with keywords, and blocks, in two runs beside each other. No other code follows in the
second run. -/
namespace MatrixScript.Parser

variable {F : Frame} {s t : State} {gas gas' loopGas loopGas' : Nat}

/-- The statements of a block, further down and up to documentation. No list among them is too
long. -/
def BlockAlike (F : Frame) (a b : List Stmt) : Prop :=
  b.map (Stmt.bareDown 0) = a.map (Stmt.bareDown F.lines) ∧ Stmt.BlockFits a

/-- Two parsers for blocks go the same way, as long as there is gas. -/
def BlockParsers (F : Frame) (gas gas' : Nat) (block block' : BlockParser) : Prop :=
  ∀ (ends : List Keyword) (s t : State), Beside F s t → s.groups = [] → Enough F s gas gas' →
    Outcome F s (fun a b _ => BlockAlike F a b) (block ends s) (block' ends t)

variable {block block' : BlockParser}

theorem findTargetsEnd_down (n depth : Nat) (ts : List Token) :
    (findTargetsEnd depth (ts.map (Token.down n))).isSome = (findTargetsEnd depth ts).isSome := by
  induction ts generalizing depth with
  | nil => rfl
  | cons x xs ih =>
    rw [List.map_cons]
    unfold findTargetsEnd
    rw [Token.kind_down]
    cases hk : x.kind with
    | sign sign =>
      dsimp only
      split_ifs
      · exact ih (depth + 1)
      · cases xs with
        | nil => rfl
        | cons equals more =>
          have hassigns := assigns_headD n x equals more .nil
          rw [List.append_nil] at hassigns
          simp only [List.map_cons, hassigns, Token.is_down]
          split_ifs <;> rfl
      · exact ih (depth - 1)
      · exact ih depth
    | eof => rfl
    | _ => exact ih depth

theorem atManyAssignment_beside (h : Beside F s t) (htail : F.tail = []) :
    (findTargetsEnd 0 t.rest).isSome = (findTargetsEnd 0 s.rest).isSome := by
  rw [h.rest, htail, List.append_nil, findTargetsEnd_down]

theorem parseTargets_beside (htail : F.tail = []) (targets : List Target) (h : Beside F s t)
    (hgas : Enough F s gas gas') (hloop : Enough F s loopGas loopGas') :
    Outcome F s (fun a b _ => b = a.map (Target.down F.lines)) (parseTargets gas loopGas targets s)
      (parseTargets gas' loopGas' (targets.map (Target.down F.lines)) t) := by
  induction loopGas generalizing loopGas' s t targets with
  | zero => exact absurd hloop.lt (Nat.not_lt_zero _)
  | succ g ih =>
    obtain ⟨_, g', _, rfl⟩ := hloop.exists_succ
    rw [parseTargets, parseTargets]
    refine h.check (.inl htail) (fun _ => Outcome.pure h (by rw [List.map_reverse])) (fun hend => ?_)
    have hkind : s.current.kind ≠ .eof := fun hk => by simp [hk, isTargetsEnd] at hend
    have hne := h.rest_ne_nil hkind
    have next (targets₁ : List Target) {s₁ t₁ : State} (h₁ : Step F s s₁ t₁) (hlt : s.pos < s₁.pos) :=
      ih targets₁ h₁.beside (hgas.step h₁) (hloop.consume h₁ hlt)
    have other (problem : Problem) : Outcome F s (fun a b _ => b = a.map (Target.down F.lines))
        ((do let _ ← advance; report problem s.current.span; parseTargets gas g targets) s)
        ((do
          let _ ← advance
          report problem (s.current.down F.lines).span
          parseTargets gas' g' (targets.map (Target.down F.lines))) t) := by
      refine h.next hne fun s₁ t₁ h₁ hpos₁ => ?_
      refine Outcome.bind (h₁.beside.report _ rfl) ?_
      intro _ _ s₂ t₂ h₂ _
      exact next targets (h₁.trans h₂) (by omega)
    refine Outcome.read rfl rfl ?_
    rw [h.current.eq_down htail, Token.kind_down]
    cases hk : s.current.kind with
    | identifier | native =>
      refine Outcome.bind
        (parseName_beside (parseExpression_beside gas gas') h hgas.succ hgas hne) ?_
      rintro use _ s₁ t₁ h₁ ⟨rfl, hlt⟩
      exact next (.name use :: targets) h₁ hlt
    | newline =>
      refine h.next hne fun s₁ t₁ h₁ hpos₁ => ?_
      exact next targets h₁ (by omega)
    | sign sign =>
      cases sign with
      | tilde | bang =>
        refine h.next hne fun s₁ t₁ h₁ hpos₁ => ?_
        exact next (.ignored s.current.span :: targets) h₁ (by omega)
      | comma =>
        refine h.next hne fun s₁ t₁ h₁ hpos₁ => ?_
        exact next targets h₁ (by omega)
      | _ => exact other _
    | _ => exact other _

theorem parseManyAssignment_beside (htail : F.tail = []) (h : Beside F s t)
    (hgroups : s.groups = []) (hne : s.rest ≠ []) (hgas : Enough F s gas gas') :
    Outcome F s (fun a b _ => StmtAlike F a b)
      (parseManyAssignment gas s) (parseManyAssignment gas' t) := by
  refine h.next hne fun s₁ t₁ h₁ _ => ?_
  refine Outcome.bind
    (parseTargets_beside htail [] h₁.beside (hgas.step h₁) (hgas.step h₁)) ?_
  rintro targets _ s₂ t₂ h₂ rfl
  refine Outcome.bind (h₂.beside.expectSign .closeBracket _ s.current.span) ?_
  intro _ _ s₃ t₃ h₃ _
  refine Outcome.bind (h₃.beside.advance_or_stay htail) ?_
  rintro equals _ s₄ t₄ h₄ rfl
  have h₁₄ := h₁.trans (h₂.trans (h₃.trans h₄))
  refine Outcome.bind (parseAssigned_beside h₄.beside (h₁₄.groups.trans hgroups) equals
    (hgas.step h₁₄)) ?_
  rintro ⟨value, stop⟩ _ s₅ t₅ h₅ rfl
  refine Outcome.bind (finishAssignment_beside h₅.beside ((h₁₄.trans h₅).groups.trans hgroups)
    ⟨s.current.span.start, stop⟩) ?_
  rintro silent _ s₆ t₆ h₆ rfl
  refine Outcome.pure h₆.beside ⟨?_, .of_bodies_eq_nil rfl⟩
  simp only [Stmt.bareDown, Target.down_zero_eq_id, List.map_id, Expr.down_zero_eq_id,
    Option.map_id, id_eq, Span.down_zero]
  rfl

/-! Statements of a single keyword. -/

theorem parseJump_beside (jump : Jump) (h : Beside F s t) (hgroups : s.groups = [])
    (hne : s.rest ≠ []) :
    Outcome F s (fun a b _ => StmtAlike F a b) (parseJump jump s) (parseJump jump t) := by
  refine h.next hne fun s₁ t₁ h₁ _ => ?_
  refine Outcome.bind (finishStatement_beside h₁.beside (h₁.groups.trans hgroups)) ?_
  intro _ _ s₂ t₂ h₂ _
  refine Outcome.pure h₂.beside ⟨?_, .of_bodies_eq_nil rfl⟩
  rw [Stmt.bareDown, Stmt.bareDown, Span.down_zero]
  rfl

theorem parseDeclared_beside (names : List Variable) (h : Beside F s t)
    (hgas : Enough F s gas gas') (hloop : Enough F s loopGas loopGas') :
    Outcome F s (fun a b _ => b = a.map (Variable.down F.lines)) (parseDeclared gas loopGas names s)
      (parseDeclared gas' loopGas' (names.map (Variable.down F.lines)) t) := by
  induction loopGas generalizing loopGas' s t names with
  | zero => exact absurd hloop.lt (Nat.not_lt_zero _)
  | succ g ih =>
    obtain ⟨_, g', _, rfl⟩ := hloop.exists_succ
    rw [parseDeclared, parseDeclared]
    refine Outcome.read rfl rfl ?_
    refine Outcome.cond (congrArg not h.current.isName) (fun _ => Outcome.pure h rfl) (fun hname => ?_)
    refine h.next (h.rest_ne_nil (isName_kind_ne (by simpa using hname))) fun s₁ t₁ h₁ hpos₁ => ?_
    have next {s₂ t₂ : State} (h₂ : Step F s₁ s₂ t₂) :=
      ih (⟨s.current.text, s.current.span⟩ :: names) h₂.beside (hgas.step (h₁.trans h₂))
        (hloop.consume (h₁.trans h₂) (by have := h₂.pos_le; omega))
    refine h₁.beside.check (.inr rfl) (fun hequals => ?_) (fun _ => next (.refl h₁.beside))
    have hkind₁ : s₁.current.kind ≠ .eof := fun hk => by simp [hk] at hequals
    refine h₁.beside.next (h₁.beside.rest_ne_nil hkind₁) fun s₂ t₂ h₂ _ => ?_
    refine Outcome.bind (parseExpression_beside gas gas' 0 s₂ t₂ h₂.beside
      (hgas.step (h₁.trans h₂))) ?_
    rintro value _ s₃ t₃ h₃ ⟨rfl, _⟩
    refine Outcome.cond (by cases value <;> rfl) (fun _ => ?_) (fun _ => next (h₂.trans h₃))
    refine Outcome.bind (expectedExpression_beside h₃.beside rfl) ?_
    intro _ _ s₄ t₄ h₄ _
    exact next (h₂.trans (h₃.trans h₄))

theorem parseDeclaration_beside (storage : Storage) (h : Beside F s t) (hgroups : s.groups = [])
    (hne : s.rest ≠ []) (hgas : Enough F s gas gas') :
    Outcome F s (fun a b _ => StmtAlike F a b) (parseDeclaration gas storage s)
      (parseDeclaration gas' storage t) := by
  refine h.next hne fun s₁ t₁ h₁ _ => ?_
  refine Outcome.bind (parseDeclared_beside [] h₁.beside (hgas.step h₁) (hgas.step h₁)) ?_
  rintro names _ s₂ t₂ h₂ rfl
  refine Outcome.bind (finishStatement_beside h₂.beside ((h₁.trans h₂).groups.trans hgroups)) ?_
  intro _ _ s₃ t₃ h₃ _
  refine Outcome.pure h₃.beside ⟨?_, .of_bodies_eq_nil rfl⟩
  have hstop : ((names.map (Variable.down F.lines)).head?.elim (s.current.down F.lines).span (·.span)) =
      (names.head?.elim s.current.span (·.span)).down F.lines := by
    cases names <;> rfl
  rw [hstop]
  simp only [Stmt.bareDown, Variable.down_zero_eq_id, List.map_id, Span.down_zero, List.map_reverse]
  rfl

/-! Parts of the statements that have blocks. -/

theorem dropSeparator_beside {α : Type} {V : α → α → Nat → Prop} {a b : α} (h : Beside F s t)
    (hv : ∀ n, V a b n) :
    Outcome F s V ((do let _ ← accept isCommaOrSemicolon; return a : Parser α) s)
      ((do let _ ← accept isCommaOrSemicolon; return b : Parser α) t) := by
  refine Outcome.bind (h.accepts rfl (.inr rfl)) ?_
  intro _ _ s₁ t₁ h₁ _
  exact Outcome.pure h₁.beside (hv _)

theorem parseCondition_beside (htail : F.tail = []) (word : Keyword) (keyword : Token)
    (h : Beside F s t) (hgroups : s.groups = []) (hgas : Enough F s gas gas') :
    Outcome F s (fun a b _ => b = a.map (Expr.down F.lines)) (parseCondition gas word keyword s)
      (parseCondition gas' word (keyword.down F.lines) t) := by
  refine h.check (.inr rfl) (fun _ => ?_) (fun _ => ?_)
  · refine Outcome.bind (h.report _ rfl) ?_
    intro _ _ s₁ t₁ h₁ _
    exact dropSeparator_beside h₁.beside fun _ => rfl
  refine Outcome.bind (parseExpression_beside gas gas' 0 s t h hgas) ?_
  rintro condition _ s₁ t₁ h₁ ⟨rfl, _⟩
  refine Outcome.cond (by cases condition <;> rfl) (fun _ => ?_)
    (fun _ => dropSeparator_beside h₁.beside fun _ => rfl)
  refine Outcome.bind (h₁.beside.reportHere rfl (h₁.beside.current.eq_down htail)) ?_
  intro _ _ s₂ t₂ h₂ _
  refine Outcome.bind (synchronize_beside h₂.beside ((h₁.trans h₂).groups.trans hgroups)) ?_
  intro _ _ s₃ t₃ h₃ _
  exact dropSeparator_beside h₃.beside fun _ => rfl

theorem parseGuard_beside (keyword : Token) (h : Beside F s t) (hgroups : s.groups = [])
    (hgas : Enough F s gas gas') :
    Outcome F s (fun a b _ => b = a.map (Expr.down F.lines)) (parseGuard gas keyword s)
      (parseGuard gas' (keyword.down F.lines) t) := by
  refine Outcome.bind (parseExpression_beside gas gas' 0 s t h hgas) ?_
  rintro guard _ s₁ t₁ h₁ ⟨rfl, _⟩
  refine Outcome.cond (by cases guard <;> rfl) (fun _ => ?_)
    (fun _ => dropSeparator_beside h₁.beside fun _ => rfl)
  refine Outcome.bind (h₁.beside.report _ rfl) ?_
  intro _ _ s₂ t₂ h₂ _
  refine Outcome.bind (synchronize_beside h₂.beside ((h₁.trans h₂).groups.trans hgroups)) ?_
  intro _ _ s₃ t₃ h₃ _
  exact dropSeparator_beside h₃.beside fun _ => rfl

theorem isWord_kind_ne {token : Token} {words : List Keyword} (h : token.isWord words = true) :
    token.kind ≠ .eof := fun hk => by
  simp [Token.isWord, hk] at h

theorem closeBlock_beside (word : Keyword) (keyword : Token) (h : Beside F s t)
    (hstart : F.start < s.pos) :
    Outcome F s (fun a b _ => b = a.down F.lines) (closeBlock word keyword s)
      (closeBlock word (keyword.down F.lines) t) := by
  refine Outcome.cond (h.current.isWord _) (fun hword => ?_) (fun _ => ?_)
  · refine h.next (h.rest_ne_nil (isWord_kind_ne hword)) fun s₁ t₁ h₁ _ => ?_
    exact Outcome.pure h₁.beside rfl
  · refine Outcome.bind (h.report _ rfl) ?_
    intro _ _ s₁ t₁ h₁ _
    refine Outcome.read rfl rfl ?_
    refine Outcome.pure h₁.beside ?_
    rw [h₁.beside.previous (Nat.lt_of_lt_of_le hstart h₁.pos_le)]
    rfl

/-- The branches of a statement, further down and up to documentation. -/
def BranchesAlike (F : Frame) (a b : List (Branch Stmt)) : Prop :=
  b.map (Branch.bareDown 0) = a.map (Branch.bareDown F.lines) ∧ ∀ x ∈ a, Stmt.BlockFits x.body

theorem BlockAlike.of_rel {a b : Option (List Stmt)} (h : Option.Rel (BlockAlike F) a b) :
    b.map (List.map (Stmt.bareDown 0)) = a.map (List.map (Stmt.bareDown F.lines)) ∧
      ∀ body ∈ a, Stmt.BlockFits body := by
  cases h with
  | none => exact ⟨rfl, nofun⟩
  | some h => exact ⟨congrArg some h.1, fun _ hx => Option.mem_some.mp hx ▸ h.2⟩

theorem BranchesAlike.nil (F : Frame) : BranchesAlike F [] [] :=
  ⟨rfl, nofun⟩

theorem BranchesAlike.cons {bs bs' : List (Branch Stmt)} {body body' : List Stmt}
    (guard : Option Expr) (span : Span) (h : BranchesAlike F bs bs') (hbody : BlockAlike F body body') :
    BranchesAlike F (⟨guard, body, span⟩ :: bs)
      (⟨guard.map (Expr.down F.lines), body', span.down F.lines⟩ :: bs') := by
  refine ⟨?_, List.forall_mem_cons.mpr ⟨hbody.2, h.2⟩⟩
  rw [List.map_cons, List.map_cons, h.1]
  simp [Branch.bareDown, hbody.1]

theorem BranchesAlike.reverse {bs bs' : List (Branch Stmt)} (h : BranchesAlike F bs bs') :
    BranchesAlike F bs.reverse bs'.reverse :=
  ⟨by rw [List.map_reverse, h.1, List.map_reverse], fun x hx => h.2 x (List.mem_reverse.mp hx)⟩

theorem parseElseIfs_beside {exprGas exprGas' : Nat} (htail : F.tail = [])
    (hblock : BlockParsers F gas gas' block block') {clauses clauses' : List (Branch Stmt)}
    (hclauses : BranchesAlike F clauses clauses') (h : Beside F s t) (hgroups : s.groups = [])
    (hexpr : Enough F s exprGas exprGas') (hgas : Enough F s gas gas')
    (hloop : Enough F s loopGas loopGas') :
    Outcome F s (fun a b _ => BranchesAlike F a b) (parseElseIfs exprGas block loopGas clauses s)
      (parseElseIfs exprGas' block' loopGas' clauses' t) := by
  induction loopGas generalizing loopGas' s t clauses clauses' with
  | zero => exact absurd hloop.lt (Nat.not_lt_zero _)
  | succ g ih =>
    obtain ⟨_, g', _, rfl⟩ := hloop.exists_succ
    rw [parseElseIfs, parseElseIfs]
    refine Outcome.cond (congrArg not (h.current.isWord _))
      (fun _ => Outcome.pure h hclauses.reverse) (fun hword => ?_)
    have hne := h.rest_ne_nil (isWord_kind_ne (by simpa using hword))
    refine h.next hne fun s₁ t₁ h₁ hpos₁ => ?_
    refine Outcome.bind (parseCondition_beside htail _ s.current h₁.beside (h₁.groups.trans hgroups)
      (hexpr.step h₁)) ?_
    rintro guard _ s₂ t₂ h₂ rfl
    have h₁₂ := h₁.trans h₂
    refine Outcome.bind (hblock _ s₂ t₂ h₂.beside (h₁₂.groups.trans hgroups) (hgas.step h₁₂)) ?_
    intro body body' s₃ t₃ h₃ hbody
    have h₁₃ := h₁₂.trans h₃
    have hlt : s.pos < s₃.pos := by
      have := (h₂.trans h₃).pos_le
      omega
    refine Outcome.read rfl rfl ?_
    rw [h₃.beside.previous (Nat.lt_of_le_of_lt h.start_le hlt)]
    exact ih (hclauses.cons guard ⟨s.current.span.start, s₃.previous.span.stop⟩ hbody) h₃.beside
      (h₁₃.groups.trans hgroups) (hexpr.step h₁₃) (hgas.step h₁₃) (hloop.consume h₁₃ hlt)

theorem parseElse_beside (hblock : BlockParsers F gas gas' block block') (h : Beside F s t)
    (hgroups : s.groups = []) (hgas : Enough F s gas gas') :
    Outcome F s (fun a b _ => Option.Rel (BlockAlike F) a b)
      (parseElse block s) (parseElse block' t) := by
  refine Outcome.cond (h.current.isWord _) (fun hword => ?_) (fun _ => Outcome.pure h .none)
  refine h.next (h.rest_ne_nil (isWord_kind_ne hword)) fun s₁ t₁ h₁ _ => ?_
  refine Outcome.bind (hblock _ s₁ t₁ h₁.beside (h₁.groups.trans hgroups) (hgas.step h₁)) ?_
  intro body body' s₂ t₂ h₂ hbody
  exact Outcome.pure h₂.beside (.some hbody)

theorem parseLoopHeader_beside (htail : F.tail = []) (keyword : Token) (h : Beside F s t)
    (hgas : Enough F s gas gas') :
    Outcome F s
      (fun a b _ => b = (a.1.map (Variable.down F.lines), a.2.map (Expr.down F.lines)))
      (parseLoopHeader gas keyword s) (parseLoopHeader gas' (keyword.down F.lines) t) := by
  refine Outcome.read rfl rfl ?_
  refine Outcome.cond (congrArg not h.current.isName) (fun _ => ?_) (fun hname => ?_)
  · refine Outcome.bind (h.report _ rfl) ?_
    intro _ _ s₁ t₁ h₁ _
    exact Outcome.pure h₁.beside rfl
  refine h.next (h.rest_ne_nil (isName_kind_ne (by simpa using hname))) fun s₁ t₁ h₁ _ => ?_
  refine Outcome.cond (congrArg not (h₁.beside.current.kind (· == .sign .equals) (.inr rfl)))
    (fun _ => ?_) (fun hequals => ?_)
  · refine Outcome.bind (h₁.beside.reportHere rfl (h₁.beside.current.eq_down htail)) ?_
    intro _ _ s₂ t₂ h₂ _
    exact Outcome.pure h₂.beside rfl
  have hkind : s₁.current.kind ≠ .eof := fun hk => by simp [hk] at hequals
  refine h₁.beside.next (h₁.beside.rest_ne_nil hkind) fun s₂ t₂ h₂ _ => ?_
  refine Outcome.bind (parseExpression_beside gas gas' 0 s₂ t₂ h₂.beside
    (hgas.step (h₁.trans h₂))) ?_
  rintro iterable _ s₃ t₃ h₃ ⟨rfl, _⟩
  refine Outcome.bind (h₃.beside.expectValue iterable _ s₁.current.span) ?_
  intro _ _ s₄ t₄ h₄ _
  exact Outcome.pure h₄.beside rfl

theorem parseLoopHeaderOrGroup_beside (htail : F.tail = []) (keyword : Token) (h : Beside F s t)
    (hgas : Enough F s gas gas') :
    Outcome F s
      (fun a b _ => b = (a.1.map (Variable.down F.lines), a.2.map (Expr.down F.lines)))
      (parseLoopHeaderOrGroup gas keyword s)
      (parseLoopHeaderOrGroup gas' (keyword.down F.lines) t) := by
  refine Outcome.read rfl rfl (Outcome.read rfl rfl (Outcome.read rfl rfl ?_))
  refine Outcome.cond ?_ (fun hopen => ?_) (fun _ => parseLoopHeader_beside htail keyword h hgas)
  · rw [h.ahead_eq htail, h.ahead_eq htail, h.current.eq_down htail]
    rfl
  have hkind : s.current.kind ≠ .eof := fun hk => by simp [hk] at hopen
  refine h.next (h.rest_ne_nil hkind) fun s₁ t₁ h₁ _ => ?_
  refine Outcome.bind (h₁.beside.inside .paren fun s' t' h' _ hrest =>
    parseLoopHeader_beside htail keyword h' ((hgas.step h₁).of_rest hrest)) ?_
  rintro header _ s₂ t₂ h₂ rfl
  refine Outcome.bind (h₂.beside.expectSign .closeParen _ s.current.span) ?_
  intro _ _ s₃ t₃ h₃ _
  exact Outcome.pure h₃.beside rfl

theorem parseForHeader_beside (htail : F.tail = []) (keyword : Token) (h : Beside F s t)
    (hgroups : s.groups = []) (hgas : Enough F s gas gas') :
    Outcome F s
      (fun a b _ => b = (a.1.map (Variable.down F.lines), a.2.map (Expr.down F.lines)))
      (parseForHeader gas keyword s) (parseForHeader gas' (keyword.down F.lines) t) := by
  refine Outcome.bind (parseLoopHeaderOrGroup_beside htail keyword h hgas) ?_
  rintro ⟨loopVar, iterable⟩ _ s₁ t₁ h₁ rfl
  refine Outcome.cond (by cases loopVar <;> cases iterable <;> rfl) (fun _ => ?_)
    (fun _ => dropSeparator_beside h₁.beside fun _ => rfl)
  refine Outcome.bind (synchronize_beside h₁.beside (h₁.groups.trans hgroups)) ?_
  intro _ _ s₂ t₂ h₂ _
  exact dropSeparator_beside h₂.beside fun _ => rfl

theorem parseBranches_beside {exprGas exprGas' : Nat} (htail : F.tail = [])
    (hblock : BlockParsers F gas gas' block block') {cases cases' : List (Branch Stmt)}
    {otherwise otherwise' : Option (List Stmt)} (hcases : BranchesAlike F cases cases')
    (hotherwise : Option.Rel (BlockAlike F) otherwise otherwise') (h : Beside F s t)
    (hgroups : s.groups = []) (hexpr : Enough F s exprGas exprGas') (hgas : Enough F s gas gas')
    (hloop : Enough F s loopGas loopGas') :
    Outcome F s (fun a b _ => BranchesAlike F a.1 b.1 ∧ Option.Rel (BlockAlike F) a.2 b.2)
      (parseBranches exprGas block loopGas cases otherwise s)
      (parseBranches exprGas' block' loopGas' cases' otherwise' t) := by
  induction loopGas generalizing loopGas' s t cases cases' otherwise otherwise' with
  | zero => exact absurd hloop.lt (Nat.not_lt_zero _)
  | succ g ih =>
    obtain ⟨_, g', _, rfl⟩ := hloop.exists_succ
    rw [parseBranches, parseBranches]
    refine Outcome.bind (V := fun _ _ _ => True) ⟨h.skipUntil (.inl htail), trivial⟩ ?_
    intro _ _ s₁ t₁ h₁ _
    have next {cases₁ cases₁' : List (Branch Stmt)} {otherwise₁ otherwise₁' : Option (List Stmt)}
        {s₂ t₂ : State} (hcases₁ : BranchesAlike F cases₁ cases₁')
        (hotherwise₁ : Option.Rel (BlockAlike F) otherwise₁ otherwise₁') (h₂ : Step F s₁ s₂ t₂)
        (hlt : s₁.pos < s₂.pos) :=
      have h₁₂ := h₁.trans h₂
      ih hcases₁ hotherwise₁ h₂.beside (h₁₂.groups.trans hgroups) (hexpr.step h₁₂) (hgas.step h₁₂)
        (hloop.consume h₁₂ (Nat.lt_of_le_of_lt h₁.pos_le hlt))
    have hnext (hkind : s₁.current.kind ≠ .eof) := h₁.beside.advance (h₁.beside.rest_ne_nil hkind)
    have other (hkind : s₁.current.kind ≠ .eof) :
        Outcome F s₁ (fun a b _ => BranchesAlike F a.1 b.1 ∧ Option.Rel (BlockAlike F) a.2 b.2)
          ((do
            let _ ← advance
            report (.ofToken s₁.current) s₁.current.span
            synchronize
            parseBranches exprGas block g cases otherwise) s₁)
          ((do
            let _ ← advance
            report (.ofToken s₁.current) (s₁.current.down F.lines).span
            synchronize
            parseBranches exprGas' block' g' cases' otherwise') t₁) := by
      refine Outcome.bind (hnext hkind) ?_
      rintro _ _ s₂ t₂ h₂ ⟨-, -, hpos₂⟩
      refine Outcome.bind (h₂.beside.report _ rfl) ?_
      intro _ _ s₃ t₃ h₃ _
      have h₂₃ := h₂.trans h₃
      refine Outcome.bind
        (synchronize_beside h₃.beside ((h₁.trans h₂₃).groups.trans hgroups)) ?_
      intro _ _ s₄ t₄ h₄ _
      exact next hcases hotherwise (h₂₃.trans h₄) (by have := (h₃.trans h₄).pos_le; omega)
    refine Outcome.read rfl rfl ?_
    rw [h₁.beside.current.eq_down htail, Token.kind_down]
    cases hk : s₁.current.kind with
    | eof => exact Outcome.pure h₁.beside ⟨hcases.reverse, hotherwise⟩
    | keyword word =>
      have hkind : s₁.current.kind ≠ .eof := by simp [hk]
      cases word with
      | endAny | endSwitch => exact Outcome.pure h₁.beside ⟨hcases.reverse, hotherwise⟩
      | caseBranch =>
        refine Outcome.bind (hnext hkind) ?_
        rintro _ _ s₂ t₂ h₂ ⟨-, -, hpos₂⟩
        have h₁₂ := h₁.trans h₂
        refine Outcome.bind (parseGuard_beside s₁.current h₂.beside (h₁₂.groups.trans hgroups)
          (hexpr.step h₁₂)) ?_
        rintro guard _ s₃ t₃ h₃ rfl
        have h₁₃ := h₁₂.trans h₃
        refine Outcome.bind
          (hblock _ s₃ t₃ h₃.beside (h₁₃.groups.trans hgroups) (hgas.step h₁₃)) ?_
        intro body body' s₄ t₄ h₄ hbody
        have hlt : s₁.pos < s₄.pos := by
          have := (h₃.trans h₄).pos_le
          omega
        refine Outcome.read rfl rfl ?_
        rw [h₄.beside.previous (Nat.lt_of_le_of_lt h₁.beside.start_le hlt)]
        exact next (hcases.cons guard ⟨s₁.current.span.start, s₄.previous.span.stop⟩ hbody) hotherwise
          (h₂.trans (h₃.trans h₄)) hlt
      | otherwiseBranch =>
        refine Outcome.bind (hnext hkind) ?_
        rintro _ _ s₂ t₂ h₂ ⟨-, -, hpos₂⟩
        have h₁₂ := h₁.trans h₂
        refine Outcome.bind
          (hblock _ s₂ t₂ h₂.beside (h₁₂.groups.trans hgroups) (hgas.step h₁₂)) ?_
        intro body body' s₃ t₃ h₃ hbody
        exact next hcases (.some hbody) (h₂.trans h₃) (by have := h₃.pos_le; omega)
      | _ => exact other hkind
    | _ => exact other (by simp [hk])

theorem parseErrorVariable_beside (htail : F.tail = []) (keyword : Token) (h : Beside F s t) :
    Outcome F s (fun a b _ => b = a.map (Variable.down F.lines)) (parseErrorVariable keyword s)
      (parseErrorVariable (keyword.down F.lines) t) := by
  refine Outcome.read rfl rfl (Outcome.read rfl rfl ?_)
  rw [h.ahead_eq htail, h.current.eq_down htail]
  refine Outcome.cond ?_ (fun hvar => ?_) (fun _ => Outcome.pure h rfl)
  · have hline : ((s.current.down F.lines).span.start.line ==
        (keyword.down F.lines).span.start.line) =
        (s.current.span.start.line == keyword.span.start.line) := by
      rw [Bool.eq_iff_iff, beq_iff_eq, beq_iff_eq]
      exact Int.add_left_inj _
    rw [hline, Token.isName_down, Token.kind_down]
  · have hkind := isName_kind_ne (by simp_all : s.current.isName = true)
    refine h.next (h.rest_ne_nil hkind) fun s₁ t₁ h₁ _ => ?_
    exact Outcome.pure h₁.beside rfl

theorem parseCatch_beside (htail : F.tail = []) (hblock : BlockParsers F gas gas' block block')
    (h : Beside F s t) (hgroups : s.groups = []) (hgas : Enough F s gas gas') :
    Outcome F s (fun a b _ => b.1 = a.1.map (Variable.down F.lines) ∧ BlockAlike F a.2 b.2)
      (parseCatch block s) (parseCatch block' t) := by
  refine Outcome.cond (h.current.isWord _) (fun hword => ?_)
    (fun _ => Outcome.pure h ⟨rfl, rfl, .nil⟩)
  refine h.next (h.rest_ne_nil (isWord_kind_ne hword)) fun s₁ t₁ h₁ _ => ?_
  refine Outcome.bind (parseErrorVariable_beside htail s.current h₁.beside) ?_
  rintro errorVar _ s₂ t₂ h₂ rfl
  have h₁₂ := h₁.trans h₂
  refine Outcome.bind (hblock _ s₂ t₂ h₂.beside (h₁₂.groups.trans hgroups) (hgas.step h₁₂)) ?_
  intro body body' s₃ t₃ h₃ hbody
  exact Outcome.pure h₃.beside ⟨rfl, hbody⟩

/-! Statements that have blocks. A keyword stands in front, so that the gas of a block inside, which is
one less, is enough for it. -/

section

variable (htail : F.tail = []) (hblock : BlockParsers F gas gas' block block') (h : Beside F s t)
  (hgroups : s.groups = []) (hne : s.rest ≠ []) (hgas : Enough F s (gas + 1) (gas' + 1))

include htail hblock h hgroups hne hgas

theorem parseIf_beside : Outcome F s (fun a b _ => StmtAlike F a b) (parseIf (gas + 1) block s)
    (parseIf (gas' + 1) block' t) := by
  refine h.next hne fun s₁ t₁ h₁ hpos₁ => ?_
  have hinner := hgas.consume h₁ (by omega)
  refine Outcome.bind (parseCondition_beside htail _ s.current h₁.beside (h₁.groups.trans hgroups)
    (hgas.step h₁)) ?_
  rintro condition _ s₂ t₂ h₂ rfl
  refine Outcome.bind
    (hblock _ s₂ t₂ h₂.beside ((h₁.trans h₂).groups.trans hgroups) (hinner.step h₂)) ?_
  intro body body' s₃ t₃ h₃ hbody
  have h₂₃ := h₂.trans h₃
  have h₁₃ := h₁.trans h₂₃
  refine Outcome.bind (parseElseIfs_beside htail hblock (.nil F) h₃.beside
    (h₁₃.groups.trans hgroups) (hgas.step h₁₃) (hinner.step h₂₃) (hgas.step h₁₃)) ?_
  intro clauses clauses' s₄ t₄ h₄ hclauses
  have h₂₄ := h₂₃.trans h₄
  refine Outcome.bind (parseElse_beside hblock h₄.beside ((h₁.trans h₂₄).groups.trans hgroups)
    (hinner.step h₂₄)) ?_
  intro otherwise otherwise' s₅ t₅ h₅ hotherwise
  have hlt := h.start_lt hpos₁ (h₂₄.trans h₅)
  refine Outcome.bind (closeBlock_beside _ s.current h₅.beside hlt) ?_
  rintro stop _ s₆ t₆ h₆ rfl
  obtain ⟨hother, hfits⟩ := BlockAlike.of_rel hotherwise
  refine Outcome.pure h₆.beside ⟨?_, .of_bodies ?_⟩
  · simp only [Stmt.bareDown, Stmt.bareDownList_eq, Stmt.bareDownBranches_eq,
      Stmt.bareDownOption_eq, hbody.1, hclauses.1, hother, Expr.down_zero_eq_id, Option.map_id,
      id_eq, Span.down_zero]
    rfl
  · simp only [Stmt.bodies, List.cons_append, List.forall_mem_cons, List.forall_mem_append,
      List.forall_mem_map, Option.mem_toList]
    exact ⟨hbody.2, hclauses.2, hfits⟩

theorem parseFor_beside : Outcome F s (fun a b _ => StmtAlike F a b) (parseFor (gas + 1) block s)
    (parseFor (gas' + 1) block' t) := by
  refine h.next hne fun s₁ t₁ h₁ hpos₁ => ?_
  have hinner := hgas.consume h₁ (by omega)
  refine Outcome.bind (parseForHeader_beside htail s.current h₁.beside (h₁.groups.trans hgroups)
    (hgas.step h₁)) ?_
  rintro ⟨loopVar, iterable⟩ _ s₂ t₂ h₂ rfl
  refine Outcome.bind
    (hblock _ s₂ t₂ h₂.beside ((h₁.trans h₂).groups.trans hgroups) (hinner.step h₂)) ?_
  intro body body' s₃ t₃ h₃ hbody
  have hlt := h.start_lt hpos₁ (h₂.trans h₃)
  refine Outcome.bind (closeBlock_beside _ s.current h₃.beside hlt) ?_
  rintro stop _ s₄ t₄ h₄ rfl
  refine Outcome.pure h₄.beside ⟨?_, .of_bodies (List.forall_mem_singleton.mpr hbody.2)⟩
  simp only [Stmt.bareDown, Stmt.bareDownList_eq, hbody.1, Expr.down_zero_eq_id,
    Variable.down_zero_eq_id, Option.map_id, id_eq, Span.down_zero]
  rfl

theorem parseWhile_beside : Outcome F s (fun a b _ => StmtAlike F a b) (parseWhile (gas + 1) block s)
    (parseWhile (gas' + 1) block' t) := by
  refine h.next hne fun s₁ t₁ h₁ hpos₁ => ?_
  have hinner := hgas.consume h₁ (by omega)
  refine Outcome.bind (parseCondition_beside htail _ s.current h₁.beside (h₁.groups.trans hgroups)
    (hgas.step h₁)) ?_
  rintro condition _ s₂ t₂ h₂ rfl
  refine Outcome.bind
    (hblock _ s₂ t₂ h₂.beside ((h₁.trans h₂).groups.trans hgroups) (hinner.step h₂)) ?_
  intro body body' s₃ t₃ h₃ hbody
  have hlt := h.start_lt hpos₁ (h₂.trans h₃)
  refine Outcome.bind (closeBlock_beside _ s.current h₃.beside hlt) ?_
  rintro stop _ s₄ t₄ h₄ rfl
  refine Outcome.pure h₄.beside ⟨?_, .of_bodies (List.forall_mem_singleton.mpr hbody.2)⟩
  simp only [Stmt.bareDown, Stmt.bareDownList_eq, hbody.1, Expr.down_zero_eq_id, Option.map_id,
    id_eq, Span.down_zero]
  rfl

theorem parseDoUntil_beside : Outcome F s (fun a b _ => StmtAlike F a b) (parseDoUntil (gas + 1) block s)
    (parseDoUntil (gas' + 1) block' t) := by
  refine h.next hne fun s₁ t₁ h₁ hpos₁ => ?_
  have hinner := hgas.consume h₁ (by omega)
  refine Outcome.bind (hblock _ s₁ t₁ h₁.beside (h₁.groups.trans hgroups) hinner) ?_
  intro body body' s₂ t₂ h₂ hbody
  have hfits (condition : Option Expr) (span : Span) : (Stmt.doUntil body condition span).Fits :=
    .of_bodies (List.forall_mem_singleton.mpr hbody.2)
  have h₁₂ := h₁.trans h₂
  refine Outcome.cond (h₂.beside.current.isWord _) (fun hword => ?_) (fun _ => ?_)
  · refine h₂.beside.next (h₂.beside.rest_ne_nil (isWord_kind_ne hword)) fun s₃ t₃ h₃ _ => ?_
    have h₁₃ := h₁₂.trans h₃
    refine Outcome.bind (parseCondition_beside htail _ s₂.current h₃.beside
      (h₁₃.groups.trans hgroups) (hgas.step h₁₃)) ?_
    rintro condition _ s₄ t₄ h₄ rfl
    have hspan : (condition.map (Expr.down F.lines)).elim (s₂.current.down F.lines).span Expr.span =
        _ := Expr.elim_span_down F.lines condition s₂.current.span
    refine Outcome.pure h₄.beside ⟨?_, hfits _ _⟩
    rw [hspan]
    simp only [Stmt.bareDown, Stmt.bareDownList_eq, hbody.1, Expr.down_zero_eq_id, Option.map_id,
      id_eq, Span.down_zero]
    rfl
  · refine Outcome.bind (h₂.beside.report _ rfl) ?_
    intro _ _ s₃ t₃ h₃ _
    have hlt := h.start_lt hpos₁ (h₂.trans h₃)
    refine Outcome.read rfl rfl ?_
    rw [h₃.beside.previous hlt]
    refine Outcome.pure h₃.beside ⟨?_, hfits _ _⟩
    simp only [Stmt.bareDown, Stmt.bareDownList_eq, hbody.1, Option.map_none, Span.down_zero]
    rfl

theorem parseSwitch_beside : Outcome F s (fun a b _ => StmtAlike F a b) (parseSwitch (gas + 1) block s)
    (parseSwitch (gas' + 1) block' t) := by
  refine h.next hne fun s₁ t₁ h₁ hpos₁ => ?_
  have hinner := hgas.consume h₁ (by omega)
  refine Outcome.bind (parseCondition_beside htail _ s.current h₁.beside (h₁.groups.trans hgroups)
    (hgas.step h₁)) ?_
  rintro subject _ s₂ t₂ h₂ rfl
  have h₁₂ := h₁.trans h₂
  refine Outcome.bind (parseBranches_beside htail hblock (.nil F) .none h₂.beside
    (h₁₂.groups.trans hgroups) (hgas.step h₁₂) (hinner.step h₂) (hgas.step h₁₂)) ?_
  rintro ⟨cases, otherwise⟩ ⟨cases', otherwise'⟩ s₃ t₃ h₃ ⟨hcases, hotherwise⟩
  have hlt := h.start_lt hpos₁ (h₂.trans h₃)
  refine Outcome.bind (closeBlock_beside _ s.current h₃.beside hlt) ?_
  rintro stop _ s₄ t₄ h₄ rfl
  obtain ⟨hother, hfits⟩ := BlockAlike.of_rel hotherwise
  refine Outcome.pure h₄.beside ⟨?_, .of_bodies ?_⟩
  · simp only [Stmt.bareDown, Stmt.bareDownBranches_eq, Stmt.bareDownOption_eq, hcases.1, hother,
      Expr.down_zero_eq_id, Option.map_id, id_eq, Span.down_zero]
    rfl
  · simp only [Stmt.bodies, List.forall_mem_append, List.forall_mem_map, Option.mem_toList]
    exact ⟨hcases.2, hfits⟩

theorem parseTry_beside : Outcome F s (fun a b _ => StmtAlike F a b) (parseTry block s) (parseTry block' t) := by
  refine h.next hne fun s₁ t₁ h₁ hpos₁ => ?_
  have hinner := hgas.consume h₁ (by omega)
  refine Outcome.bind (h₁.beside.accepts rfl (.inr rfl)) ?_
  intro _ _ s₂ t₂ h₂ _
  refine Outcome.bind
    (hblock _ s₂ t₂ h₂.beside ((h₁.trans h₂).groups.trans hgroups) (hinner.step h₂)) ?_
  intro body body' s₃ t₃ h₃ hbody
  have h₂₃ := h₂.trans h₃
  refine Outcome.bind (parseCatch_beside htail hblock h₃.beside
    ((h₁.trans h₂₃).groups.trans hgroups) (hinner.step h₂₃)) ?_
  rintro ⟨errorVar, handler⟩ ⟨errorVar', handler'⟩ s₄ t₄ h₄ ⟨rfl, hhandler⟩
  have hlt := h.start_lt hpos₁ (h₂₃.trans h₄)
  refine Outcome.bind (closeBlock_beside _ s.current h₄.beside hlt) ?_
  rintro stop _ s₅ t₅ h₅ rfl
  refine Outcome.pure h₅.beside ⟨?_, .of_bodies (by simpa [Stmt.bodies] using ⟨hbody.2, hhandler.2⟩)⟩
  simp only [Stmt.bareDown, Stmt.bareDownList_eq, hbody.1, hhandler.1, Variable.down_zero_eq_id,
    Option.map_id, id_eq, Span.down_zero]
  rfl

end

end MatrixScript.Parser
