import MatrixScript.Proofs.Parser.Block

/-! Functions in two runs beside each other. No other code follows in the second run. -/
namespace MatrixScript.Parser

variable {F : Frame} {s t : State} {gas gas' loopGas loopGas' : Nat} {block block' : BlockParser}

theorem parseOutputsFrom_beside (htail : F.tail = []) (outputs : List Output) (h : Beside F s t)
    (hloop : Enough F s loopGas loopGas') :
    Outcome F s (fun a b _ => b = a.map (Output.down F.lines)) (parseOutputsFrom loopGas outputs s)
      (parseOutputsFrom loopGas' (outputs.map (Output.down F.lines)) t) := by
  induction loopGas generalizing loopGas' s t outputs with
  | zero => exact absurd hloop.lt (Nat.not_lt_zero _)
  | succ g ih =>
    obtain ⟨_, g', _, rfl⟩ := hloop.exists_succ
    rw [parseOutputsFrom, parseOutputsFrom]
    refine h.check (.inl htail) (fun _ => Outcome.pure h (by rw [List.map_reverse])) (fun hend => ?_)
    have hkind : s.current.kind ≠ .eof := fun hk => by simp [hk, isOutputsEnd] at hend
    refine h.next (h.rest_ne_nil hkind) fun s₁ t₁ h₁ hpos₁ => ?_
    have next (outputs₁ : List Output) {s₂ t₂ : State} (h₂ : Step F s₁ s₂ t₂) :=
      have hlt : s.pos < s₂.pos := by have := h₂.pos_le; omega
      ih outputs₁ h₂.beside (hloop.consume (h₁.trans h₂) hlt)
    have other : Outcome F s₁ (fun a b _ => b = a.map (Output.down F.lines))
        ((do report (.inOutputs s.current.text) s.current.span; parseOutputsFrom g outputs) s₁)
        ((do
          report (.inOutputs s.current.text) (s.current.down F.lines).span
          parseOutputsFrom g' (outputs.map (Output.down F.lines))) t₁) := by
      refine Outcome.bind (h₁.beside.report _ rfl) ?_
      intro _ _ s₂ t₂ h₂ _
      exact next outputs h₂
    rw [Token.kind_down]
    cases hk : s.current.kind with
    | identifier | native => exact next (.variable ⟨s.current.text, s.current.span⟩ :: outputs) (.refl h₁.beside)
    | sign sign =>
      cases sign with
      | tilde | bang => exact next (.ignored s.current.span :: outputs) (.refl h₁.beside)
      | comma => exact next outputs (.refl h₁.beside)
      | _ => exact other
    | _ => exact other

theorem parseOutputs_beside (htail : F.tail = []) (h : Beside F s t) (hne : s.rest ≠ [])
    (hgas : Enough F s gas gas') :
    Outcome F s (fun a b _ => b = a.map (Output.down F.lines)) (parseOutputs gas s)
      (parseOutputs gas' t) := by
  refine h.next hne fun s₁ t₁ h₁ _ => ?_
  refine Outcome.bind (parseOutputsFrom_beside htail [] h₁.beside (hgas.step h₁)) ?_
  rintro outputs _ s₂ t₂ h₂ rfl
  refine Outcome.bind (h₂.beside.expectSign .closeBracket _ s.current.span) ?_
  intro _ _ s₃ t₃ h₃ _
  refine h₃.beside.accept rfl (.inr rfl) (fun _ _ h₄ _ _ => Outcome.pure h₄.beside rfl) (fun _ => ?_)
  refine Outcome.bind (h₃.beside.reportHere rfl (h₃.beside.current.eq_down htail)) ?_
  intro _ _ s₄ t₄ h₄ _
  exact Outcome.pure h₄.beside rfl

theorem parseHeaderOutputs_beside (htail : F.tail = []) (h : Beside F s t)
    (hgas : Enough F s gas gas') :
    Outcome F s (fun a b _ => b = a.map (Output.down F.lines)) (parseHeaderOutputs gas s)
      (parseHeaderOutputs gas' t) := by
  refine h.check (.inr rfl) (fun hopen => ?_) (fun _ => ?_)
  · refine parseOutputs_beside htail h (h.rest_ne_nil fun hk => ?_) hgas
    simp [hk] at hopen
  refine Outcome.read rfl rfl (Outcome.read rfl rfl ?_)
  refine Outcome.cond ?_ (fun hname => ?_) (fun _ => Outcome.pure h rfl)
  · rw [h.ahead_eq htail, h.current.isName]
    rfl
  have hkind := isName_kind_ne (by simp_all : s.current.isName = true)
  have hlen : 1 < s.rest.length := h.lt_of_kind_ne fun hk => by simp [Token.is, hk] at hname
  refine h.next (h.rest_ne_nil hkind) fun s₁ t₁ h₁ hpos₁ => ?_
  have hleft := h₁.left
  refine h₁.beside.next (List.ne_nil_of_length_pos (by omega)) fun s₂ t₂ h₂ _ => ?_
  exact Outcome.pure h₂.beside rfl

theorem parseFunctionName_beside (keyword : Token) (h : Beside F s t) :
    Outcome F s (fun a b _ => b = a.down F.lines) (parseFunctionName keyword s)
      (parseFunctionName (keyword.down F.lines) t) := by
  refine Outcome.read rfl rfl ?_
  refine Outcome.cond h.current.isName (fun hname => ?_) (fun _ => ?_)
  · refine h.next (h.rest_ne_nil (isName_kind_ne hname)) fun s₁ t₁ h₁ _ => ?_
    exact Outcome.pure h₁.beside rfl
  · refine Outcome.bind (h.report _ rfl) ?_
    intro _ _ s₁ t₁ h₁ _
    exact Outcome.pure h₁.beside rfl

theorem parseNamedParam_beside (name : Token) (h : Beside F s t) (hgas : Enough F s gas gas') :
    Outcome F s (fun a b _ => b = a.down F.lines) (parseNamedParam gas name s)
      (parseNamedParam gas' (name.down F.lines) t) := by
  refine h.check (.inr rfl) (fun hequals => ?_) (fun _ => Outcome.pure h rfl)
  have hkind : s.current.kind ≠ .eof := fun hk => by simp [hk] at hequals
  refine h.next (h.rest_ne_nil hkind) fun s₁ t₁ h₁ _ => ?_
  refine Outcome.bind (parseExpression_beside gas gas' 0 s₁ t₁ h₁.beside (hgas.step h₁)) ?_
  rintro value _ s₂ t₂ h₂ ⟨rfl, _⟩
  refine Outcome.bind (h₂.beside.expectValue value _ s.current.span) ?_
  intro _ _ s₃ t₃ h₃ _
  have hspan : (value.map (Expr.down F.lines)).elim (s.current.down F.lines).span Expr.span = _ :=
    Expr.elim_span_down F.lines value s.current.span
  exact Outcome.pure h₃.beside (by rw [hspan]; rfl)

theorem parseParam_beside (h : Beside F s t) (hne : s.rest ≠ []) (hgas : Enough F s gas gas') :
    Outcome F s (fun a b n => b = a.map (Param.down F.lines) ∧ s.pos < n) (parseParam gas s)
      (parseParam gas' t) := by
  refine h.next hne fun s₁ t₁ h₁ hpos₁ => ?_
  have other : Outcome F s₁ (fun a b n => b = a.map (Param.down F.lines) ∧ s.pos < n)
      ((do report (.invalidParameter s.current.text) s.current.span; return none : Parser _) s₁)
      ((do
        report (.invalidParameter s.current.text) (s.current.down F.lines).span
        return none : Parser _) t₁) := by
    refine Outcome.bind (h₁.beside.report _ rfl) ?_
    intro _ _ s₂ t₂ h₂ hpos₂
    exact Outcome.pure h₂.beside ⟨rfl, by omega⟩
  rw [Token.kind_down]
  cases hk : s.current.kind with
  | identifier | native =>
    have hparam := parseNamedParam_beside s.current h₁.beside (hgas.step h₁)
    refine ⟨hparam.1, congrArg some hparam.2, ?_⟩
    have := hparam.1.pos_le
    exact Nat.lt_of_lt_of_le (by omega) this
  | sign sign =>
    cases sign with
    | tilde | bang => exact Outcome.pure h₁.beside ⟨rfl, by omega⟩
    | _ => exact other
  | _ => exact other

theorem parseParamEnd_beside (h : Beside F s t) :
    Outcome F s (fun _ _ _ => True) (parseParamEnd s) (parseParamEnd t) := by
  refine h.accept rfl (.inr rfl) (fun _ _ h₁ _ _ => Outcome.pure h₁.beside trivial) (fun _ => ?_)
  refine h.check (.inr rfl) (fun _ => Outcome.pure h trivial) (fun hend => ?_)
  have hkind : s.current.kind ≠ .eof := fun hk => by simp [hk, isNewlineOrEnd] at hend
  refine h.next (h.rest_ne_nil hkind) fun s₁ t₁ h₁ _ => ?_
  exact (h₁.beside.report _ rfl).mono fun _ _ _ _ _ => trivial

theorem parseParamsFrom_beside (openSpan : Span) (params : List Param) (h : Beside F s t)
    (hgas : Enough F s gas gas') (hloop : Enough F s loopGas loopGas') :
    Outcome F s (fun a b _ => b = a.map (Param.down F.lines))
      (parseParamsFrom gas openSpan loopGas params s)
      (parseParamsFrom gas' (openSpan.down F.lines) loopGas' (params.map (Param.down F.lines)) t) := by
  induction loopGas generalizing loopGas' s t params with
  | zero => exact absurd hloop.lt (Nat.not_lt_zero _)
  | succ g ih =>
    obtain ⟨_, g', _, rfl⟩ := hloop.exists_succ
    rw [parseParamsFrom, parseParamsFrom]
    refine h.accept rfl (.inr rfl)
      (fun _ _ h₁ _ _ => Outcome.pure h₁.beside (by rw [List.map_reverse])) (fun _ => ?_)
    refine h.check (.inr rfl) (fun _ => ?_) (fun hend => ?_)
    · refine Outcome.bind (h.report _ rfl) ?_
      intro _ _ s₁ t₁ h₁ _
      exact Outcome.pure h₁.beside (by rw [List.map_reverse])
    have hkind : s.current.kind ≠ .eof := fun hk => by simp [hk, isNewlineOrEnd] at hend
    refine Outcome.bind (parseParam_beside h (h.rest_ne_nil hkind) hgas) ?_
    rintro (_ | param) _ s₁ t₁ h₁ ⟨rfl, hlt⟩
    · exact ih params h₁.beside (hgas.step h₁) (hloop.consume h₁ hlt)
    · refine Outcome.bind (parseParamEnd_beside h₁.beside) ?_
      intro _ _ s₂ t₂ h₂ _
      have h₁₂ := h₁.trans h₂
      exact ih (param :: params) h₂.beside (hgas.step h₁₂)
        (hloop.consume h₁₂ (Nat.lt_of_lt_of_le hlt h₂.pos_le))

theorem parseParams_beside (h : Beside F s t) (hgas : Enough F s gas gas') :
    Outcome F s (fun a b _ => b = a.map (Param.down F.lines)) (parseParams gas s)
      (parseParams gas' t) := by
  refine h.check (.inr rfl) (fun hopen => ?_) (fun _ => Outcome.pure h rfl)
  have hkind : s.current.kind ≠ .eof := fun hk => by simp [hk] at hopen
  refine h.next (h.rest_ne_nil hkind) fun s₁ t₁ h₁ _ => ?_
  exact parseParamsFrom_beside s.current.span [] h₁.beside (hgas.step h₁) (hgas.step h₁)

theorem parseHeader_beside (htail : F.tail = []) (keyword : Token) (h : Beside F s t)
    (hgas : Enough F s gas gas') :
    Outcome F s (fun a b _ => b = a.down F.lines) (parseHeader gas keyword s)
      (parseHeader gas' (keyword.down F.lines) t) := by
  refine Outcome.bind (parseHeaderOutputs_beside htail h hgas) ?_
  rintro outputs _ s₁ t₁ h₁ rfl
  refine Outcome.bind (parseFunctionName_beside keyword h₁.beside) ?_
  rintro name _ s₂ t₂ h₂ rfl
  refine Outcome.bind (parseParams_beside h₂.beside (hgas.step (h₁.trans h₂))) ?_
  rintro params _ s₃ t₃ h₃ rfl
  exact Outcome.pure h₃.beside rfl

theorem finishHeader_beside (h : Beside F s t) (hgroups : s.groups = []) :
    Outcome F s (fun _ _ _ => True) (finishHeader s) (finishHeader t) := by
  refine Outcome.cond (congrArg not (h.current.kind endsStatement (.inr rfl))) (fun hmore => ?_)
    (fun _ => Outcome.pure h trivial)
  have hcurrent := h.current.eq_down_of_kind_ne fun hk => by simp [hk, endsStatement] at hmore
  refine Outcome.read rfl rfl ?_
  refine Outcome.bind (h.reportHere (by rw [hcurrent]; rfl) hcurrent) ?_
  intro _ _ s₁ t₁ h₁ _
  exact synchronize_beside h₁.beside (h₁.groups.trans hgroups)

/-- The documentation of a function may differ: it stands in comments, which are not part of the code. -/
theorem parseFunction_beside (htail : F.tail = []) (layout layout' : Layout)
    (hblock : BlockParsers F gas gas' block block') (h : Beside F s t) (hgroups : s.groups = [])
    (hne : s.rest ≠ []) (hgas : Enough F s (gas + 1) (gas' + 1)) :
    Outcome F s (fun a b _ => StmtAlike F a b) (parseFunction layout (gas + 1) block s)
      (parseFunction layout' (gas' + 1) block' t) := by
  refine h.next hne fun s₁ t₁ h₁ hpos₁ => ?_
  have hinner := hgas.consume h₁ (by omega)
  refine Outcome.bind (parseHeader_beside htail s.current h₁.beside (hgas.step h₁)) ?_
  rintro header _ s₂ t₂ h₂ rfl
  refine Outcome.read rfl rfl ?_
  refine Outcome.bind (finishHeader_beside h₂.beside ((h₁.trans h₂).groups.trans hgroups)) ?_
  intro _ _ s₃ t₃ h₃ _
  have h₂₃ := h₂.trans h₃
  refine Outcome.bind (hblock _ s₃ t₃ h₃.beside ((h₁.trans h₂₃).groups.trans hgroups)
    (hinner.step h₂₃)) ?_
  intro body body' s₄ t₄ h₄ hbody
  refine Outcome.cond (h₄.beside.current.isWord _) (fun hword => ?_) (fun _ => ?_)
  · refine h₄.beside.next (h₄.beside.rest_ne_nil (isWord_kind_ne hword)) fun s₅ t₅ h₅ _ => ?_
    refine Outcome.pure h₅.beside ⟨?_, .of_bodies (List.forall_mem_singleton.mpr hbody.2)⟩
    simp only [Stmt.bareDown, Stmt.bareDownList_eq, hbody.1, FunctionHeader.down_zero, Span.down_zero]
    rfl
  · refine Outcome.bind (h₄.beside.report _ rfl) ?_
    intro _ _ s₅ t₅ h₅ _
    have hlt := h.start_lt hpos₁ (h₂₃.trans (h₄.trans h₅))
    refine Outcome.read rfl rfl ?_
    rw [h₅.beside.previous hlt]
    refine Outcome.pure h₅.beside ⟨?_, .of_bodies (List.forall_mem_singleton.mpr hbody.2)⟩
    simp only [Stmt.bareDown, Stmt.bareDownList_eq, hbody.1, FunctionHeader.down_zero, Span.down_zero]
    rfl

end MatrixScript.Parser
