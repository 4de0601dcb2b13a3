import MatrixScript.Proofs.Parser.Function

/-! Statements of all kinds, and whole blocks, in two runs beside each other. -/
namespace MatrixScript.Parser

variable {F : Frame} {s t : State} {gas gas' loopGas loopGas' : Nat} {block block' : BlockParser}
  {layout layout' : Layout} {statement statement' : Parser (Option Stmt)}
  {ends : List Keyword}

theorem parseKeywordStatement_beside (htail : F.tail = []) (word : Keyword)
    (hblock : BlockParsers F gas gas' block block') (h : Beside F s t) (hgroups : s.groups = [])
    (hne : s.rest ≠ []) (hgas : Enough F s (gas + 1) (gas' + 1)) :
    Outcome F s (fun a b _ => Option.Rel (StmtAlike F) a b)
      (parseKeywordStatement layout (gas + 1) block s.current word s)
      (parseKeywordStatement layout' (gas' + 1) block' (s.current.down F.lines) word t) := by
  have wrap {p p' : Parser Stmt} (hp : Outcome F s (fun a b _ => StmtAlike F a b) (p s) (p' t)) :
      Outcome F s (fun a b _ => Option.Rel (StmtAlike F) a b) ((some <$> p) s) ((some <$> p') t) :=
    hp.map fun _ _ _ => .some
  unfold parseKeywordStatement
  cases word with
  | function => exact wrap (parseFunction_beside htail layout layout' hblock h hgroups hne hgas)
  | ifBlock => exact wrap (parseIf_beside htail hblock h hgroups hne hgas)
  | forLoop => exact wrap (parseFor_beside htail hblock h hgroups hne hgas)
  | whileLoop => exact wrap (parseWhile_beside htail hblock h hgroups hne hgas)
  | doBlock => exact wrap (parseDoUntil_beside htail hblock h hgroups hne hgas)
  | switchBlock => exact wrap (parseSwitch_beside htail hblock h hgroups hne hgas)
  | tryBlock => exact wrap (parseTry_beside htail hblock h hgroups hne hgas)
  | breakOut | continueOn | returnBack => exact wrap (parseJump_beside _ h hgroups hne)
  | global | persistent => exact wrap (parseDeclaration_beside _ h hgroups hne hgas)
  | _ =>
    refine h.next hne fun s₁ t₁ h₁ _ => ?_
    refine Outcome.bind (h₁.beside.report _ rfl) ?_
    intro _ _ s₂ t₂ h₂ _
    exact Outcome.pure h₂.beside .none

theorem parseNameStatement_beside (h : Beside F s t) (hgroups : s.groups = []) (hne : s.rest ≠ [])
    (hname : s.current.isName = true) (hgas : Enough F s gas gas') :
    Outcome F s (fun a b _ => Option.Rel (StmtAlike F) a b) (parseNameStatement gas s.current s)
      (parseNameStatement gas' t.current t) := by
  refine Outcome.read rfl rfl ?_
  refine Outcome.cond (atAssignment_beside h hname)
    (fun _ => parseAssignment_beside h hgroups hne hgas) (fun _ => ?_)
  refine Outcome.read rfl rfl (Outcome.read rfl rfl ?_)
  refine Outcome.cond (isCommand_beside h hne) (fun _ => ?_)
    (fun _ => parseExpressionStatement_beside h hgroups hgas)
  exact (parseCommand_beside h hgroups hne hgas).map fun _ _ _ => .some

/-- Where other code follows, the statement has neither a keyword nor a matrix in it. -/
theorem parseStatement_beside (hblock : F.tail = [] → BlockParsers F gas gas' block block')
    (h : Beside F s t) (hgroups : s.groups = []) (hne : s.rest ≠ [])
    (hgas : Enough F s (gas + 1) (gas' + 1)) :
    Outcome F s (fun a b _ => Option.Rel (StmtAlike F) a b)
      (parseStatement layout (gas + 1) block s) (parseStatement layout' (gas' + 1) block' t) := by
  have hcurrent := h.current.eq_down_of_kind_ne (h.current_kind_ne hne)
  have htail (hplain : s.current.kind.isPlain = false) : F.tail = [] := by
    by_contra htail
    rw [h.current_plain htail] at hplain
    contradiction
  refine Outcome.read rfl rfl ?_
  rw [hcurrent, Token.kind_down]
  cases hk : s.current.kind with
  | keyword word =>
    have htail := htail (by rw [hk]; rfl)
    exact parseKeywordStatement_beside htail word (hblock htail) h hgroups hne hgas
  | identifier | native =>
    rw [← hcurrent]
    exact parseNameStatement_beside h hgroups hne (by rw [Token.isName, hk]; rfl) hgas
  | sign sign =>
    cases sign with
    | openBracket =>
      have htail := htail (by rw [hk]; rfl)
      refine Outcome.read rfl rfl ?_
      refine Outcome.cond (atManyAssignment_beside h htail) (fun _ => ?_)
        (fun _ => parseExpressionStatement_beside h hgroups hgas)
      exact (parseManyAssignment_beside htail h hgroups hne hgas).map fun _ _ _ => .some
    | _ => exact parseExpressionStatement_beside h hgroups hgas
  | _ => exact parseExpressionStatement_beside h hgroups hgas

/-- Every statement takes at least one token. -/
theorem parseNext_beside (h : Beside F s t) (hne : s.rest ≠ [])
    (hstmt : Outcome F s (fun a b _ => Option.Rel (StmtAlike F) a b) (statement s) (statement' t)) :
    Outcome F s (fun a b n => Option.Rel (StmtAlike F) a b ∧ s.pos < n) (parseNext statement s)
      (parseNext statement' t) := by
  refine Outcome.read rfl rfl ?_
  refine Outcome.bind hstmt ?_
  intro stmt stmt' s₁ t₁ h₁ hstmt
  refine Outcome.read rfl rfl ?_
  refine Outcome.cond (h.pos_beq h₁.beside) (fun hstayed => ?_) (fun hmoved => ?_)
  · have hpos₁ : s₁.pos = s.pos := by simpa using hstayed
    refine h₁.beside.next (h₁.rest_eq hpos₁ ▸ hne) fun s₂ t₂ h₂ hpos₂ => ?_
    refine Outcome.bind (h₂.beside.report _ rfl) ?_
    intro _ _ s₃ t₃ h₃ hpos₃
    exact Outcome.pure h₃.beside ⟨hstmt, by omega⟩
  · have hle := h₁.pos_le
    have hne₁ : s₁.pos ≠ s.pos := by simpa using hmoved
    exact Outcome.pure h₁.beside ⟨hstmt, by omega⟩

theorem bind_apply {α β : Type} (p : Parser α) (f : α → Parser β) (s : State) :
    (p >>= f) s = f (p s).1 (p s).2 := rfl

theorem current_bind {α : Type} (f : Token → Parser α) (s : State) :
    (current >>= f) s = f s.current s := rfl

/-- One round of the loop over the statements of a block. -/
theorem parseStatements_succ (gas count : Nat) (done : List Stmt) (s : State) :
    parseStatements statement ends (gas + 1) count done s =
      let s₁ := (skipUntil (fun kind => !isSeparator kind) s).2
      let next := parseNext statement s₁
      if (s₁.current.kind == .eof || s₁.current.isWord ends) = true then (done.reverse, s₁)
      else if maxStatements ≤ count then (done.reverse, (reportHere .tooManyStatements s₁).2)
      else parseStatements statement ends gas (count + next.1.toList.length)
        (next.1.toList ++ done) next.2 := by
  rw [parseStatements, bind_apply, current_bind]
  dsimp only
  split_ifs
  · rfl
  · rfl
  · rw [bind_apply]
    cases (parseNext statement (skipUntil (fun kind => !isSeparator kind) s).2).1 <;> rfl

theorem isWord_nil (token : Token) : token.isWord [] = false := by
  unfold Token.isWord
  split <;> rfl

theorem BlockAlike.nil (F : Frame) : BlockAlike F [] [] :=
  ⟨rfl, .nil⟩

theorem BlockAlike.cons {a b : Stmt} {as bs : List Stmt} (h : StmtAlike F a b)
    (hs : BlockAlike F as bs) (hlt : as.length < maxStatements) : BlockAlike F (a :: as) (b :: bs) :=
  ⟨by rw [List.map_cons, List.map_cons, h.1, hs.1], hlt, List.forall_mem_cons.mpr ⟨h.2, hs.2.2⟩⟩

theorem BlockAlike.reverse {as bs : List Stmt} (h : BlockAlike F as bs) :
    BlockAlike F as.reverse bs.reverse :=
  ⟨by rw [List.map_reverse, h.1, List.map_reverse], by simpa using h.2.1,
    fun x hx => h.2.2 x (List.mem_reverse.mp hx)⟩

/-- Two parsers for statements go the same way, as long as there is gas. -/
def StatementParsers (F : Frame) (gas gas' : Nat) (statement statement' : Parser (Option Stmt)) :
    Prop :=
  ∀ s t : State, Beside F s t → s.groups = [] → s.rest ≠ [] → Enough F s gas gas' →
    Outcome F s (fun a b _ => Option.Rel (StmtAlike F) a b) (statement s) (statement' t)

theorem parseStatements_beside (htail : F.tail = [])
    (hstatement : StatementParsers F gas gas' statement statement') (ends : List Keyword)
    {done done' : List Stmt} (hdone : BlockAlike F done done') (h : Beside F s t)
    (hgroups : s.groups = []) (hgas : Enough F s gas gas') (hloop : Enough F s loopGas loopGas') :
    Outcome F s (fun a b _ => BlockAlike F a b)
      (parseStatements statement ends loopGas done.length done s)
      (parseStatements statement' ends loopGas' done.length done' t) := by
  induction loopGas generalizing loopGas' s t done done' with
  | zero => exact absurd hloop.lt (Nat.not_lt_zero _)
  | succ g ih =>
    obtain ⟨_, g', _, rfl⟩ := hloop.exists_succ
    rw [parseStatements, parseStatements]
    refine Outcome.bind (V := fun _ _ _ => True) ⟨h.skipUntil (.inl htail), trivial⟩ ?_
    intro _ _ s₁ t₁ h₁ _
    have hcurrent := h₁.beside.current.eq_down htail
    refine Outcome.read rfl rfl ?_
    refine Outcome.cond (by rw [hcurrent]; rfl) (fun _ => Outcome.pure h₁.beside hdone.reverse)
      (fun hmore => ?_)
    refine Outcome.ite (fun _ => ?_) (fun hlimit => ?_)
    · refine Outcome.bind (h₁.beside.reportHere rfl hcurrent) ?_
      intro _ _ s₂ t₂ h₂ _
      exact Outcome.pure h₂.beside hdone.reverse
    have hkind : s₁.current.kind ≠ .eof := fun hk => by simp [hk] at hmore
    have hne := h₁.beside.rest_ne_nil hkind
    refine Outcome.bind (parseNext_beside h₁.beside hne
      (hstatement s₁ t₁ h₁.beside (h₁.groups.trans hgroups) hne (hgas.step h₁))) ?_
    rintro stmt stmt' s₂ t₂ h₂ ⟨hstmt, hlt⟩
    have h₁₂ := h₁.trans h₂
    have next {done₁ done₁' : List Stmt} (hdone₁ : BlockAlike F done₁ done₁') :=
      ih hdone₁ h₂.beside (h₁₂.groups.trans hgroups) (hgas.step h₁₂)
        (hloop.consume h₁₂ (Nat.lt_of_le_of_lt h₁.pos_le hlt))
    cases hstmt with
    | none => exact next hdone
    | some hstmt => exact next (.cons hstmt hdone (Nat.lt_of_not_le hlimit))

theorem parseBlock_beside (htail : F.tail = []) (layout layout' : Layout) (gas gas' : Nat) :
    BlockParsers F gas gas' (parseBlock layout gas) (parseBlock layout' gas') := by
  induction gas generalizing gas' with
  | zero => exact fun _ _ _ _ _ hgas => absurd hgas.lt (Nat.not_lt_zero _)
  | succ g ih =>
    intro ends s t h hgroups hgas
    obtain ⟨_, g', _, rfl⟩ := hgas.exists_succ
    rw [parseBlock, parseBlock]
    exact parseStatements_beside htail (fun _ _ h₁ hgroups₁ hne hgas₁ =>
      parseStatement_beside (fun _ => ih g') h₁ hgroups₁ hne hgas₁) ends (.nil F) h hgroups hgas hgas

def runBlock (code : Code) (gas : Nat) : List Stmt × State :=
  parseBlock (.ofCode code) gas [] (.ofCode code)

end MatrixScript.Parser
