import MatrixScript.Parser.Statement
import MatrixScript.Proofs.Parser.Expression

/-! Statements without a keyword in two runs beside each other. -/
namespace MatrixScript

/-- The statement lists right inside a statement. -/
def Stmt.bodies : Stmt → List (List Stmt)
  | .function _ body _ _ _ | .forLoop _ _ body _ | .whileLoop _ body _ | .doUntil body _ _ => [body]
  | .ifElse _ body clauses otherwise _ => body :: clauses.map (·.body) ++ otherwise.toList
  | .switch _ cases otherwise _ => cases.map (·.body) ++ otherwise.toList
  | .tryCatch body _ handler _ => [body, handler]
  | _ => []

/-- No statement list anywhere inside is too long. -/
inductive Stmt.Fits : Stmt → Prop where
  | intro {s : Stmt} (length_le : ∀ body ∈ s.bodies, body.length ≤ maxStatements)
      (fits : ∀ body ∈ s.bodies, ∀ t ∈ body, t.Fits) : s.Fits

def Stmt.BlockFits (body : List Stmt) : Prop :=
  body.length ≤ maxStatements ∧ ∀ t ∈ body, t.Fits

theorem Stmt.BlockFits.nil : BlockFits [] :=
  ⟨Nat.zero_le _, nofun⟩

theorem Stmt.Fits.of_bodies {s : Stmt} (h : ∀ body ∈ s.bodies, BlockFits body) : s.Fits :=
  .intro (fun body hbody => (h body hbody).1) (fun body hbody => (h body hbody).2)

theorem Stmt.Fits.of_bodies_eq_nil {s : Stmt} (h : s.bodies = []) : s.Fits :=
  .of_bodies (h ▸ nofun)

namespace Parser

variable {F : Frame} {s t : State} {gas gas' loopGas loopGas' : Nat}

/-- The statement of the first run is found in the second one further down, up to documentation. -/
def StmtAlike (F : Frame) (a b : Stmt) : Prop :=
  b.bareDown 0 = a.bareDown F.lines ∧ a.Fits

/-- Outside of all brackets there are none to leave. -/
theorem synchronize_beside (h : Beside F s t) (hgroups : s.groups = []) :
    Outcome F s (fun _ _ _ => True) (synchronize s) (synchronize t) := by
  have hout : Step F s { s with groups := [] } { t with groups := [] } :=
    ⟨{ h with groups := rfl }, rfl, Nat.le_refl _, hgroups.symm⟩
  have hskip := hout.beside.skipUntil (p := fun kind => endsStatement kind || closesBlock kind)
    (.inr rfl)
  exact ⟨hout.trans hskip, trivial⟩

theorem finishStatement_beside (h : Beside F s t) (hgroups : s.groups = []) :
    Outcome F s (fun a b _ => a = b) (finishStatement s) (finishStatement t) := by
  refine h.accept rfl (.inr rfl) (fun _ _ h₁ _ _ => Outcome.pure h₁.beside rfl) (fun _ => ?_)
  refine h.accept rfl (.inr rfl) (fun _ _ h₁ _ _ => Outcome.pure h₁.beside rfl) (fun _ => ?_)
  refine h.check (.inr rfl) (fun _ => Outcome.pure h rfl) (fun hend => ?_)
  have hcurrent := h.current.eq_down_of_kind_ne fun hk => by
    simp [hk, isNewlineOrEnd] at hend
  refine Outcome.read rfl rfl ?_
  refine Outcome.bind (h.reportHere (by rw [hcurrent]; rfl) hcurrent) ?_
  intro _ _ s₁ t₁ h₁ _
  refine Outcome.bind (synchronize_beside h₁.beside (h₁.groups.trans hgroups)) ?_
  intro _ _ s₂ t₂ h₂ _
  exact h₂.beside.accepts rfl (.inr rfl)

theorem joinWord_down (n : Nat) (words : List Variable) (before token : Token) :
    joinWord (words.map (Variable.down n)) (before.down n) (token.down n) =
      (joinWord words before token).map (Variable.down n) := by
  cases words with
  | nil => rfl
  | cons word more =>
    simp only [joinWord, List.map_cons, Token.adjacent_down]
    split_ifs <;> simp [Variable.down]

theorem parseCommandWords_beside (words : List Variable) (before : Token) (h : Beside F s t)
    (hloop : Enough F s loopGas loopGas') :
    Outcome F s (fun a b _ => b = a.map (Variable.down F.lines))
      (parseCommandWords loopGas words before s)
      (parseCommandWords loopGas' (words.map (Variable.down F.lines)) (before.down F.lines) t) := by
  induction loopGas generalizing loopGas' s t words before with
  | zero => exact absurd hloop.lt (Nat.not_lt_zero _)
  | succ g ih =>
    obtain ⟨_, g', _, rfl⟩ := hloop.exists_succ
    rw [parseCommandWords, parseCommandWords]
    refine h.check (.inr rfl) (fun _ => Outcome.pure h rfl) (fun hend => ?_)
    have hkind : s.current.kind ≠ .eof := fun hk => by simp [hk, endsStatement] at hend
    refine Outcome.bind (h.takeWord (h.rest_ne_nil hkind)) ?_
    rintro token _ s₁ t₁ h₁ ⟨-, rfl, hpos₁⟩
    rw [joinWord_down]
    exact ih _ token h₁.beside (hloop.consume h₁ (by omega))

theorem parseCommand_beside (h : Beside F s t) (hgroups : s.groups = []) (hne : s.rest ≠ [])
    (hgas : Enough F s gas gas') :
    Outcome F s (fun a b _ => StmtAlike F a b) (parseCommand gas s) (parseCommand gas' t) := by
  refine h.next hne fun s₁ t₁ h₁ _ => ?_
  refine Outcome.bind (parseCommandWords_beside [] s.current h₁.beside (hgas.step h₁)) ?_
  rintro words _ s₂ t₂ h₂ rfl
  refine Outcome.bind (finishStatement_beside h₂.beside ((h₁.trans h₂).groups.trans hgroups)) ?_
  rintro silent _ s₃ t₃ h₃ rfl
  refine Outcome.pure h₃.beside ⟨?_, .of_bodies_eq_nil rfl⟩
  have hstop : ((words.map (Variable.down F.lines)).head?.elim (s.current.down F.lines).span (·.span)) =
      (words.head?.elim s.current.span (·.span)).down F.lines := by
    cases words <;> rfl
  have hargs : ((words.map (Variable.down F.lines)).reverse.map fun word =>
      Expr.string word.name word.span) =
      (words.reverse.map fun word => Expr.string word.name word.span).map (Expr.down F.lines) := by
    simp [Variable.down, Expr.down]
  rw [hstop, hargs, Stmt.bareDown, Stmt.bareDown, NameUse.down_zero]
  rfl

theorem parseAssigned_beside (h : Beside F s t) (hgroups : s.groups = []) (equals : Token)
    (hgas : Enough F s gas gas') :
    Outcome F s (fun a b _ => b = (a.1.map (Expr.down F.lines), a.2.down F.lines))
      (parseAssigned gas equals s) (parseAssigned gas' (equals.down F.lines) t) := by
  refine Outcome.bind (parseExpression_beside gas gas' 0 s t h hgas) ?_
  rintro (_ | value) _ s₁ t₁ h₁ ⟨rfl, _⟩
  · refine Outcome.bind (expectedExpression_beside h₁.beside rfl) ?_
    intro _ _ s₂ t₂ h₂ _
    refine Outcome.bind
      (synchronize_beside h₂.beside ((h₁.trans h₂).groups.trans hgroups)) ?_
    intro _ _ s₃ t₃ h₃ _
    exact Outcome.pure h₃.beside rfl
  · refine Outcome.pure h₁.beside ?_
    rw [Option.map_some, Expr.span_down]
    rfl

theorem finishAssignment_beside (h : Beside F s t) (hgroups : s.groups = []) (span : Span) :
    Outcome F s (fun a b _ => a = b) (finishAssignment span s)
      (finishAssignment (span.down F.lines) t) := by
  refine Outcome.bind (finishStatement_beside h hgroups) ?_
  rintro silent _ s₁ t₁ h₁ rfl
  refine Outcome.cond rfl (fun _ => ?_) (fun _ => Outcome.pure h₁.beside rfl)
  refine Outcome.bind (h₁.beside.report _ rfl) ?_
  intro _ _ s₂ t₂ h₂ _
  exact Outcome.pure h₂.beside rfl

theorem parseAssignment_beside (h : Beside F s t) (hgroups : s.groups = []) (hne : s.rest ≠ [])
    (hgas : Enough F s gas gas') :
    Outcome F s (fun a b _ => Option.Rel (StmtAlike F) a b)
      (parseAssignment gas s) (parseAssignment gas' t) := by
  refine Outcome.bind
    (parseName_beside (parseExpression_beside gas gas') h hgas.succ hgas hne) ?_
  rintro target _ s₁ t₁ h₁ ⟨rfl, _⟩
  have hgroups₁ := h₁.groups.trans hgroups
  refine Outcome.read rfl rfl ?_
  refine Outcome.cond (congrArg not (h₁.beside.current.kind (· == .sign .equals) (.inr rfl)))
    (fun _ => ?_) (fun hequals => ?_)
  · refine Outcome.bind (h₁.beside.report _ rfl) ?_
    intro _ _ s₂ t₂ h₂ _
    refine Outcome.bind (synchronize_beside h₂.beside (h₂.groups.trans hgroups₁)) ?_
    intro _ _ s₃ t₃ h₃ _
    refine Outcome.bind
      (finishStatement_beside h₃.beside ((h₂.trans h₃).groups.trans hgroups₁)) ?_
    intro _ _ s₄ t₄ h₄ _
    exact Outcome.pure h₄.beside .none
  · have hkind : s₁.current.kind ≠ .eof := fun hk => by simp [hk] at hequals
    refine h₁.beside.next (h₁.beside.rest_ne_nil hkind) fun s₂ t₂ h₂ _ => ?_
    have h₁₂ := h₁.trans h₂
    refine Outcome.bind (parseAssigned_beside h₂.beside (h₁₂.groups.trans hgroups) s₁.current
      (hgas.step h₁₂)) ?_
    rintro ⟨value, stop⟩ _ s₃ t₃ h₃ rfl
    refine Outcome.bind (finishAssignment_beside h₃.beside ((h₁₂.trans h₃).groups.trans hgroups)
      ⟨target.span.start, stop⟩) ?_
    rintro silent _ s₄ t₄ h₄ rfl
    refine Outcome.pure h₄.beside (.some ⟨?_, .of_bodies_eq_nil rfl⟩)
    simp only [Stmt.bareDown, NameUse.down_zero, Expr.down_zero_eq_id, Option.map_id, id_eq,
      Span.down_zero]
    rfl

theorem standAlone_alike (silent : Bool) (value : Expr) :
    StmtAlike F (standAlone silent value) (standAlone silent (value.down F.lines)) := by
  cases value with
  | name use =>
    refine ⟨?_, .of_bodies_eq_nil rfl⟩
    rw [Expr.down_name, standAlone, standAlone, Stmt.bareDown, Stmt.bareDown, NameUse.down_zero]
  | _ =>
    refine ⟨?_, .of_bodies_eq_nil rfl⟩
    rw [Expr.down]
    simp only [standAlone, Stmt.bareDown, Expr.down_zero]
    rw [Expr.down]

theorem parseExpressionStatement_beside (h : Beside F s t) (hgroups : s.groups = [])
    (hgas : Enough F s gas gas') :
    Outcome F s (fun a b _ => Option.Rel (StmtAlike F) a b) (parseExpressionStatement gas s)
      (parseExpressionStatement gas' t) := by
  refine Outcome.read rfl rfl ?_
  refine Outcome.bind (parseExpression_beside gas gas' 0 s t h hgas) ?_
  rintro (_ | value) _ s₁ t₁ h₁ ⟨rfl, _⟩
  · have hgroups₁ := h₁.groups.trans hgroups
    have hend := h₁.beside.current.kind (fun kind => endsStatement kind || closesBlock kind) (.inr rfl)
    refine Outcome.read rfl rfl (Outcome.read rfl rfl ?_)
    refine Outcome.cond (congrArg₂ (· && !·) (h.pos_beq h₁.beside) hend) (fun hstuck => ?_)
      (fun _ => ?_)
    · have hkind : s₁.current.kind ≠ .eof := fun hk => by simp [hk, endsStatement] at hstuck
      refine h₁.beside.next (h₁.beside.rest_ne_nil hkind) fun s₂ t₂ h₂ _ => ?_
      refine Outcome.bind (h₂.beside.report _ rfl) ?_
      intro _ _ s₃ t₃ h₃ _
      refine Outcome.bind (synchronize_beside h₃.beside ((h₂.trans h₃).groups.trans hgroups₁)) ?_
      intro _ _ s₄ t₄ h₄ _
      exact Outcome.pure h₄.beside .none
    · refine Outcome.bind (synchronize_beside h₁.beside hgroups₁) ?_
      intro _ _ s₂ t₂ h₂ _
      exact Outcome.pure h₂.beside .none
  · refine Outcome.bind (finishStatement_beside h₁.beside (h₁.groups.trans hgroups)) ?_
    rintro silent _ s₂ t₂ h₂ rfl
    exact Outcome.pure h₂.beside (.some (standAlone_alike silent value))

/-! Look-ahead to the end of the line. -/

theorem isCommand_beside (h : Beside F s t) (hne : s.rest ≠ []) :
    isCommand t.current (t.ahead 1) (t.ahead 2) = isCommand s.current (s.ahead 1) (s.ahead 2) := by
  have hsees := h.ahead (n := 1) (List.length_pos_iff.mpr hne)
  have hword := hsees.kind isCommandWord (.inr rfl)
  cases hw : isCommandWord (s.ahead 1).kind with
  | false => simp [isCommand, hword, hw]
  | true =>
    have hkind : (s.ahead 1).kind ≠ .eof := fun hk => by simp [hk, isCommandWord] at hw
    have hafter := h.ahead (h.lt_of_kind_ne hkind)
    have hline : (((s.ahead 1).down F.lines).span.start.line ==
        (s.current.down F.lines).span.start.line) =
        ((s.ahead 1).span.start.line == s.current.span.start.line) := by
      rw [Bool.eq_iff_iff, beq_iff_eq, beq_iff_eq]
      exact Int.add_left_inj _
    rw [h.current.eq_down_of_kind_ne (h.current_kind_ne hne), hsees.eq_down_of_kind_ne hkind]
    simp only [isCommand, hline, hafter.is, hafter.adjacent, Token.adjacent_down, Token.kind_down]

theorem assigns_down (n : Nat) (before equals following : Token) :
    assigns (before.down n) (equals.down n) (following.down n) = assigns before equals following := by
  simp only [assigns, Token.is_down, Token.adjacent_down]

/-- Code goes on after a list of tokens with nothing, or with a newline. -/
def EndsLine (tail : List Token) : Prop :=
  ∀ x ∈ tail.head?, x.kind = .newline

theorem EndsLine.nil : EndsLine [] := by
  simp [EndsLine]

theorem assigns_headD (n : Nat) (before equals : Token) (ts : List Token) {tail : List Token}
    (htail : EndsLine tail) :
    assigns (before.down n) (equals.down n)
        ((ts.map (Token.down n) ++ tail).headD ⟨.eof, "", (equals.down n).span⟩) =
      assigns before equals (ts.headD ⟨.eof, "", equals.span⟩) := by
  cases ts with
  | cons x xs => exact assigns_down n before equals x
  | nil =>
    cases tail with
    | nil => exact assigns_down n before equals ⟨.eof, "", equals.span⟩
    | cons line more =>
      have hline : line.is .equals = false := by
        rw [Token.is, htail line rfl]
        rfl
      have heof : Token.is ⟨.eof, "", equals.span⟩ .equals = false := rfl
      simp only [List.map_nil, List.nil_append, List.headD_cons, List.headD_nil, assigns, hline, heof,
        Bool.false_and, Token.is_down, Token.adjacent_down]

theorem isMatrix_of_plain {sign : Sign} {group : Group}
    (hplain : (Token.Kind.sign sign).isPlain = true) (hopen : Group.ofOpening? sign = some group) :
    group.isMatrix = false := by
  cases sign <;> first | contradiction | (cases hopen; rfl)

/-- In code whose brackets do not go over lines, an assignment is found on its own line only. -/
theorem findAssignment_down (n : Nat) (groups : List Group) (before : Token) (ts : List Token)
    {tail : List Token} (hline : EndsLine tail)
    (hplain : tail ≠ [] → (∀ g ∈ groups, g.isMatrix = false) ∧ ∀ x ∈ ts, x.kind.isPlain = true) :
    (findAssignment groups (before.down n) (ts.map (Token.down n) ++ tail)).isSome =
      (findAssignment groups before ts).isSome := by
  induction ts generalizing groups before with
  | nil =>
    cases tail with
    | nil => rfl
    | cons line more =>
      have hmatrix : groups.head?.any Group.isMatrix = false := by
        cases groups with
        | nil => rfl
        | cons g _ => exact (hplain (List.cons_ne_nil _ _)).1 g (List.mem_cons_self ..)
      simp [findAssignment, hline line rfl, hmatrix]
  | cons x xs ih =>
    have next (groups' : List Group)
        (hgroups : tail ≠ [] → ∀ g ∈ groups', g.isMatrix = false) :=
      ih groups' x fun hne => ⟨hgroups hne, fun y hy => (hplain hne).2 y (List.mem_cons_of_mem x hy)⟩
    rw [List.map_cons, List.cons_append]
    unfold findAssignment
    rw [Token.kind_down]
    cases hk : x.kind with
    | sign sign =>
      dsimp only
      cases hopen : Group.ofOpening? sign with
      | some group =>
        refine next (group :: groups) fun hne => List.forall_mem_cons.mpr ⟨?_, (hplain hne).1⟩
        exact isMatrix_of_plain (hk ▸ (hplain hne).2 x (List.mem_cons_self ..)) hopen
      | none =>
        dsimp only
        rw [assigns_headD n before x xs hline]
        split_ifs
        · exact next groups.tail fun hne g hg => (hplain hne).1 g (List.mem_of_mem_tail hg)
        · exact next groups fun hne => (hplain hne).1
        · cases sign with
          | semicolon | comma | equals => rfl
          | _ => exact next groups fun hne => (hplain hne).1
        · cases sign with
          | semicolon | comma => rfl
          | _ => exact next groups fun hne => (hplain hne).1
    | newline =>
      dsimp only
      split_ifs
      · exact next groups fun hne => (hplain hne).1
      · rfl
    | keyword word =>
      dsimp only
      split_ifs
      · rfl
      · exact next groups fun hne => (hplain hne).1
    | eof => rfl
    | _ => exact next groups fun hne => (hplain hne).1

theorem Beside.endsLine (h : Beside F s t) : EndsLine F.tail := by
  obtain ⟨htail, _⟩ | ⟨line, more, htail, hkind, _⟩ := h.behind
  · rw [htail]
    exact .nil
  · rw [htail]
    rintro x ⟨⟩
    exact hkind

theorem findAssignment_name {x : Token} (hname : x.isName = true) (before : Token)
    (xs : List Token) : findAssignment [] before (x :: xs) = findAssignment [] x xs := by
  rw [findAssignment]
  unfold Token.isName Token.Kind.isName at hname
  cases hk : x.kind <;> simp_all

theorem atAssignment_beside (h : Beside F s t) (hname : s.current.isName = true) :
    (findAssignment [] t.previous t.rest).isSome = (findAssignment [] s.previous s.rest).isSome := by
  unfold State.current at hname
  cases hr : s.rest with
  | nil =>
    rw [hr, List.headD_nil, Token.isName, h.eof_kind] at hname
    contradiction
  | cons x xs =>
    rw [hr, List.headD_cons] at hname
    rw [h.rest, hr, List.map_cons, List.cons_append, findAssignment_name hname,
      findAssignment_name (x := x.down F.lines) hname]
    exact findAssignment_down F.lines [] x xs h.endsLine fun htail =>
      ⟨List.forall_mem_nil _, fun y hy => h.plain htail y (hr ▸ List.mem_cons_of_mem x hy)⟩

end Parser

end MatrixScript
