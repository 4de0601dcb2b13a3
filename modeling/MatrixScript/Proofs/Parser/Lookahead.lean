import MatrixScript.Proofs.Parser.BlockRecovery
import MatrixScript.Proofs.Parser.Layout
import MatrixScript.Proofs.Parser.Search

/-! The equals sign that is looked for before a statement is parsed, and the one that parsing comes to.

Main statement: in a statement without errors they are the same token, and a statement that is taken for
an expression has no equals sign outside of all brackets that could assign. -/
namespace MatrixScript

/-- Statements that do not start with a keyword. -/
def Stmt.isPlain : Stmt → Bool
  | .assign _ _ _ _ | .assignMany _ _ _ _ | .call _ _ | .expr _ _ => true
  | _ => false

/-- An expression or a call, but not one in the style of a command. -/
def Stmt.standsAlone : Stmt → Bool
  | .call use _ => !use.command
  | .expr _ _ => true
  | _ => false

theorem Stmt.isPlain_of_standsAlone {stmt : Stmt} (h : stmt.standsAlone = true) : stmt.isPlain = true := by
  cases stmt <;> first | rfl | contradiction

namespace Parser

variable {s : State} {gas : Nat}

/-! Assignments. -/

/-- The state behind the target of an assignment. -/
def behindTarget (gas : Nat) (s : State) : State :=
  (parseName gas (parseExpression gas) s).2

/-- No value starts with an equals sign. -/
theorem parseAssigned_equals {P : Prop} {Q : Option Expr × Position → State → Prop}
    (hkind : s.current.kind = .sign .equals) (equals : Token) :
    CleanRun P s Q (parseAssigned gas equals s) := by
  have hvalue : Leads s (fun e => e = none) (parseExpression gas 0 s) := by
    apply parseExpression_none
    · rw [prefixAt, hkind]
      rfl
    · intro gas sub
      rw [parsePrimary, current_bind, hkind]
      rfl
  have hnone : CleanRun P s (fun e _ => e = none) (parseExpression gas 0 s) :=
    ⟨hvalue.1, fun _ _ => hvalue.2⟩
  refine .bind hnone fun value s₁ => ?_
  cases value with
  | some value => exact .dead (Option.some_ne_none value) (.pure trivial)
  | none =>
    refine .failExpected _ fun s₂ => .bind (.synchronize s₂) fun _ _ _ _ => ?_
    exact .pure trivial

theorem finishAssignment_leads (span : Span) (s : State) :
    Leads s (fun _ => True) (finishAssignment span s) := by
  refine .bind (.finishStatement s) fun silent s₁ _ _ => .ite (fun _ => ?_) (fun _ => .pure trivial)
  exact .bind (.report _ span s₁) fun _ _ _ _ => .pure trivial

/-- Behind the target stands what the search has found. -/
theorem parseAssignment_search (heof : s.code.eof.kind = .eof) (hname : s.current.isName = true) :
    CleanRun True s (fun _ _ => ∀ found, findAssignment [] s.previous s.rest = some found →
      (behindTarget gas s).current = found ∧ found.kind = .sign .equals) (parseAssignment gas s) := by
  have hcalm := parseName_calm gas heof hname
  have htarget : CleanRun True s (fun _ s' => (Calm s [] s' ∧ comparesWith s'.previous = false) ∧
      s' = behindTarget gas s) (parseName gas (parseExpression gas) s) :=
    ⟨hcalm.1, fun hclean hP => ⟨hcalm.2 hclean hP, rfl⟩⟩
  refine .bind htarget fun target s₁ => .ite (fun _ => ?_) (fun hequals => .next ?_)
  · refine .fail rfl _ fun s₂ => .bind (.synchronize s₂) fun _ s₃ _ _ => ?_
    exact .bind (.finishStatement s₃) fun _ _ _ _ => .pure trivial
  have hkind : s₁.current.kind = .sign .equals := by simpa using hequals
  by_cases hnext : (s₁.ahead 1).is .equals = true
  · -- Two equals signs in a row: there is no value, adjacent or not.
    have hfollowing : (advance s₁).2.current.kind = .sign .equals := by
      rw [advance_current]
      exact beq_iff_eq.mp hnext
    refine .bind (parseAssigned_equals (Q := fun _ _ => False) hfollowing _) fun _ s₃ => ?_
    exact .dead id (.bind (finishAssignment_leads _ s₃) fun _ _ _ _ => .pure trivial)
  · refine .known ?_ (.bind (parseAssigned_leads _) fun _ s₃ _ _ =>
      .bind (finishAssignment_leads _ s₃) fun _ _ _ _ => .pure trivial)
    rintro ⟨⟨hcalm, hlast⟩, rfl⟩ found hfound
    have hne := hcalm.rest_ne_nil (by rw [hkind]; exact nofun)
    have hassigns : assigns (behindTarget gas s).previous (behindTarget gas s).current
        ((behindTarget gas s).ahead 1) = true := by
      rw [Bool.not_eq_true] at hnext
      rw [assigns_eq, hlast, hnext]
      rfl
    have hhere := State.findAssignment_found _ (hcalm.code_eq ▸ heof) hne hkind hassigns
    obtain hnone | hsame := hcalm.search
    · rw [hnone] at hfound
      contradiction
    · rw [hsame, hhere] at hfound
      cases hfound
      exact ⟨rfl, hkind⟩

theorem parseAssigned_fst (equals : Token) :
    (parseAssigned gas equals s).1.1 = (parseExpression gas 0 s).1 :=
  (parseAssigned_leads equals).2.1

/-- The value is what is read behind the equals sign. -/
theorem parseAssignment_fst (hkind : (behindTarget gas s).current.kind = .sign .equals) :
    ∃ span silent, (parseAssignment gas s).1 =
      some (.assign (parseName gas (parseExpression gas) s).1
        (parseExpression gas 0 (advance (behindTarget gas s)).2).1 span silent) := by
  have hcheck : checkSign .equals (behindTarget gas s) = (true, behindTarget gas s) := by
    change ((behindTarget gas s).current.kind == .sign .equals, _) = _
    rw [hkind]
    rfl
  rw [← parseAssigned_fst (advance (behindTarget gas s)).1, parseAssignment, bind_apply]
  change ∃ span silent, ((checkSign .equals >>= _) (behindTarget gas s)).1 = _
  rw [bind_apply, hcheck]
  exact ⟨_, _, rfl⟩

/-! Multiple assignments. -/

/-- The targets of a multiple assignment and their brackets. -/
def parseTargetList (gas : Nat) : Parser (List Target) := do
  let opening ← advance
  let targets ← parseTargets gas gas []
  expectSign .closeBracket .targetsOpen opening.span
  return targets

/-- The state behind the targets of a multiple assignment. -/
def behindTargets (gas : Nat) (s : State) : State :=
  (parseTargetList gas s).2

/-- Behind the targets stands what the search has found. -/
theorem parseTargetList_search (heof : s.code.eof.kind = .eof)
    (hkinds : ∀ t ∈ s.code.tokens, t.kind ≠ .eof) (hgroups : s.groups = []) (hwords : s.words = [])
    (hkind : s.current.kind = .sign .openBracket) :
    CleanRun True s (fun _ s' => ∀ found, findTargetsEnd 0 s.rest = some found →
      s'.current = found ∧ found.kind = .sign .equals) (parseTargetList gas s) := by
  have hne : s.rest ≠ [] := (Calm.refl s heof).rest_ne_nil (by rw [hkind]; exact nofun)
  have hcode : (advance s).2.code = s.code := (Extends.advance s).code
  have hgroups' : (advance s).2.groups = [] := by rw [advance_eq hne]; exact hgroups
  have hwords' : (advance s).2.words = [] := by rw [advance_eq hne]; exact hwords
  let o : Origin := ⟨s.code, heof, hkinds, 0, [], true⟩
  have hat : At (o.fresh (advance s).2.pos) ((advance s).2.tally (advance s).2.pos) [] [] (advance s).2 := by
    apply At.of_state (o := o) hcode hgroups'
    · rw [hwords']
      exact nofun
    · rw [hwords']
      exact nofun
  refine .next (.pre (fun _ => hat) (.bind (parseTargets_nests gas gas) fun _ s₂ => ?_))
  refine .bind (.expectSign rfl _ s₂) fun _ s₃ => .pure ?_
  rintro ⟨hat₂, hclose, rfl⟩ found hfound
  rw [findTargetsEnd_opened hkind] at hfound
  exact hat₂.found_behind hcode hfound hclose

theorem parseManyAssignment_extends : Extends (behindTargets gas s) (parseManyAssignment gas s).2 := by
  have hrest : Leads (behindTargets gas s) (fun _ => True)
      ((do
        let equals ← advance
        let assigned ← parseAssigned gas equals
        finishAssignment ⟨s.current.span.start, assigned.2⟩)
        (behindTargets gas s)) :=
    .bind (.advance _) fun _ s₁ _ _ => .bind (parseAssigned_leads _) fun _ s₂ _ _ =>
      finishAssignment_leads _ s₂
  have hfst : (advance s).1 = s.current := (Leads.advance s).2
  rw [← hfst] at hrest
  exact hrest.1

theorem parseManyAssignment_fst : ∃ span silent, (parseManyAssignment gas s).1 =
    .assignMany (parseTargetList gas s).1
      (parseExpression gas 0 (advance (behindTargets gas s)).2).1 span silent := by
  rw [← parseAssigned_fst (advance (behindTargets gas s)).1]
  exact ⟨_, _, rfl⟩

/-! Expressions that stand alone. -/

theorem parseExpressionStatement_calm (heof : s.code.eof.kind = .eof) :
    CleanRun True s (fun stmt s' => stmt ≠ none → Calm s [] s') (parseExpressionStatement gas s) := by
  refine .read rfl (.bind (parseExpression_passes gas heof) fun value s₁ => ?_)
  cases value with
  | none =>
    refine .read rfl (.read rfl (.ite (fun _ => .next ?_) (fun _ => ?_)))
    · refine .fail (severity_ofToken _) _ fun s₂ => .bind (.synchronize s₂) fun _ _ _ _ => ?_
      exact .pure trivial
    · refine .bind (.known (fun _ => trivial) (.synchronize s₁)) fun _ _ => .pure fun _ hsome => ?_
      exact absurd rfl hsome
  | some value =>
    have hfinish : CleanRun (Passed s false s.groups [] s₁) s₁ (fun _ s' => Passed s false s.groups [] s')
        (finishStatement s₁) := Tracking.finishStatement (T := passing s false) [] nofun
    exact .bind hfinish fun _ _ => .pure fun h _ => h.toCalm

/-! Errors that were reported before do not matter. -/

/-- The same place, with nothing reported yet. -/
def State.unreported (s : State) : State := { s with diagnostics := #[], words := [] }

/-- A run with nothing reported yet, and the one behind all that was reported before `s`. -/
def Frame.reported (s : State) : Frame := ⟨s.code, 0, 0, 0, s.diagnostics, []⟩

/-- Between the two states no error is reported. -/
def NoErrorSince (s s' : State) : Prop :=
  ∀ d ∈ s'.diagnostics.toList.drop s.diagnostics.size, d.isError = false

theorem Beside.unreported (heof : s.code.eof.kind = .eof) (hkinds : ∀ t ∈ s.code.tokens, t.kind ≠ .eof)
    (hfaults : s.faults = []) : Beside (.reported s) s.unreported s where
  code := rfl
  rest := by simp [Frame.reported, State.unreported]
  pos := rfl
  start_le := Nat.zero_le _
  previous := fun _ => (Token.down_zero _).symm
  groups := rfl
  diagnostics := by simp [Frame.reported, State.unreported]
  faults := ⟨hfaults, hfaults⟩
  eof_kind := heof
  kind_ne := by
    intro t ht
    change t ∈ s.rest at ht
    rw [s.rest_eq] at ht
    exact hkinds t (List.mem_of_mem_drop ht)
  plain := fun htail => absurd rfl htail
  behind := .inl ⟨rfl, (Token.down_zero _).symm⟩

namespace Step

variable {a b : State}

theorem clean (h : Step (.reported s) s.unreported a b) (hno : NoErrorSince s b) : a.Clean where
  faults_eq := h.beside.faults.1
  isError_eq := by
    intro d hd
    apply hno
    rw [h.beside.diagnostics]
    simpa [Frame.reported] using hd

theorem same_pos (h : Step (.reported s) s.unreported a b) : b.pos = a.pos :=
  h.beside.pos

theorem same_current (h : Step (.reported s) s.unreported a b) : b.current = a.current := by
  have hcode : b.code = a.code := h.beside.code.trans h.code.symm
  rw [b.current_eq_ahead, a.current_eq_ahead, b.ahead_eq_token, a.ahead_eq_token, hcode, h.same_pos]

end Step

theorem parseTargetList_beside {F : Frame} {t : State} (htail : F.tail = []) (h : Beside F s t)
    (hne : s.rest ≠ []) (hgas : Enough F s gas gas) :
    Outcome F s (fun _ _ _ => True) (parseTargetList gas s) (parseTargetList gas t) := by
  refine h.next hne fun s₁ t₁ h₁ _ => ?_
  refine Outcome.bind (parseTargets_beside htail [] h₁.beside (hgas.step h₁) (hgas.step h₁)) ?_
  rintro targets _ s₂ t₂ h₂ -
  refine Outcome.bind (h₂.beside.expectSign .closeBracket _ s.current.span) ?_
  intro _ _ s₃ t₃ h₃ _
  exact Outcome.pure h₃.beside trivial

section

variable (heof : s.code.eof.kind = .eof) (hkinds : ∀ t ∈ s.code.tokens, t.kind ≠ .eof)
  (hgroups : s.groups = []) (hfaults : s.faults = []) (hgas : s.rest.length < gas)

include heof hkinds hgroups hfaults hgas

theorem assignment_found (hname : s.current.isName = true)
    (hno : NoErrorSince s (parseAssignment gas s).2) {equals : Token}
    (hfound : findAssignment [] s.previous s.rest = some equals) :
    (behindTarget gas s).code = s.code ∧ (behindTarget gas s).current = equals ∧
      equals.kind = .sign .equals := by
  have hbeside := Beside.unreported heof hkinds hfaults
  have hne : s.rest ≠ [] := rest_ne_nil_of_isName heof hname
  have henough : Enough (.reported s) s.unreported gas gas := ⟨hgas, hgas⟩
  have hrun := parseAssignment_beside hbeside hgroups hne henough
  have htarget := parseName_beside (parseExpression_beside gas gas) hbeside henough.succ henough hne
  have hsearch := (parseAssignment_search (s := s.unreported) heof hname).2 (hrun.1.clean hno) trivial
  have hsame : (behindTarget gas s).current = (behindTarget gas s.unreported).current :=
    htarget.1.same_current
  rw [hsame]
  exact ⟨htarget.1.beside.code, hsearch equals hfound⟩

theorem targets_found (hkind : s.current.kind = .sign .openBracket)
    (hno : NoErrorSince s (parseManyAssignment gas s).2) {equals : Token}
    (hfound : findTargetsEnd 0 s.rest = some equals) :
    (behindTargets gas s).code = s.code ∧ (behindTargets gas s).current = equals ∧
      equals.kind = .sign .equals := by
  have hbeside := Beside.unreported heof hkinds hfaults
  have hne : s.rest ≠ [] := (Calm.refl s heof).rest_ne_nil (by rw [hkind]; exact nofun)
  have henough : Enough (.reported s) s.unreported gas gas := ⟨hgas, hgas⟩
  have hrun := parseManyAssignment_beside rfl hbeside hgroups hne henough
  have htargets := parseTargetList_beside rfl hbeside hne henough
  have hclean := parseManyAssignment_extends.clean (hrun.1.clean hno)
  have hsearch := (parseTargetList_search (s := s.unreported) heof hkinds hgroups rfl hkind).2 hclean trivial
  have hsame : (behindTargets gas s).current = (behindTargets gas s.unreported).current :=
    htargets.1.same_current
  rw [hsame]
  exact ⟨htargets.1.beside.code, hsearch equals hfound⟩

theorem expression_quiet (hno : NoErrorSince s (parseExpressionStatement gas s).2) {stmt : Stmt}
    (hstmt : (parseExpressionStatement gas s).1 = some stmt) {place : Nat} (hle : s.pos ≤ place)
    (hlt : place < (parseExpressionStatement gas s).2.pos)
    (hout : openBehind (s.code.tokens.extract s.pos place) = []) : s.code.assignsAt place = false := by
  have hbeside := Beside.unreported heof hkinds hfaults
  have hrun := parseExpressionStatement_beside hbeside hgroups ⟨hgas, hgas⟩
  have hsome : (parseExpressionStatement gas s.unreported).1 ≠ none := by
    intro hnone
    have hrel := hrun.2
    rw [hnone, hstmt] at hrel
    cases hrel
  have hcalm := (parseExpressionStatement_calm (s := s.unreported) heof).2 (hrun.1.clean hno) trivial hsome
  rw [hrun.1.same_pos] at hlt
  exact hcalm.quiet place hle hlt hout

end

/-! The kinds of statements. -/

variable {layout : Layout} {block : BlockParser} {stmt : Stmt}

theorem parseDoUntil_isPlain : (parseDoUntil gas block s).1.isPlain = false := by
  change (((if _ then _ else _ : Parser Stmt)) _).1.isPlain = false
  split_ifs <;> rfl

theorem parseFunction_isPlain : (parseFunction layout gas block s).1.isPlain = false := by
  change (((if _ then _ else _ : Parser Stmt)) _).1.isPlain = false
  split_ifs <;> rfl

theorem parseKeywordStatement_isPlain {token : Token} {word : Keyword}
    (h : (parseKeywordStatement layout gas block token word s).1 = some stmt) : stmt.isPlain = false := by
  cases word
  case function =>
    cases h
    exact parseFunction_isPlain
  case doBlock =>
    cases h
    exact parseDoUntil_isPlain
  all_goals cases h <;> rfl

theorem parseAssignment_eq_some (h : (parseAssignment gas s).1 = some stmt) :
    ∃ target value span silent, stmt = .assign target value span silent := by
  change ((if _ then _ else _ : Parser (Option Stmt)) _).1 = _ at h
  split_ifs at h
  · contradiction
  · cases h
    exact ⟨_, _, _, _, rfl⟩

theorem parseExpressionStatement_eq_some (h : (parseExpressionStatement gas s).1 = some stmt) :
    ∃ value silent, stmt = standAlone silent value := by
  rw [parseExpressionStatement, bind_apply, bind_apply] at h
  cases hvalue : (parseExpression gas 0 (position s).2).1 with
  | none =>
    rw [hvalue] at h
    change ((if _ then _ else _ : Parser (Option Stmt)) _).1 = _ at h
    split_ifs at h <;> contradiction
  | some value =>
    rw [hvalue] at h
    cases h
    exact ⟨_, _, rfl⟩

/-- What a statement is read as, by its first token and what is found ahead. -/
theorem parseStatement_cases (layout : Layout) (gas : Nat) (block : BlockParser) (s : State) :
    (∃ word, parseStatement layout gas block s = parseKeywordStatement layout gas block s.current word s) ∨
      (s.current.kind = .sign .openBracket ∧ (findTargetsEnd 0 s.rest).isSome = true ∧
        parseStatement layout gas block s = (some <$> parseManyAssignment gas) s) ∨
      (s.current.isName = true ∧ (findAssignment [] s.previous s.rest).isSome = true ∧
        parseStatement layout gas block s = parseAssignment gas s) ∨
      parseStatement layout gas block s = (some <$> parseCommand gas) s ∨
      parseStatement layout gas block s = parseExpressionStatement gas s := by
  rw [parseStatement, current_bind]
  cases hkind : s.current.kind with
  | keyword word => exact .inl ⟨word, rfl⟩
  | sign sign =>
    cases sign with
    | openBracket =>
      by_cases hfound : (findTargetsEnd 0 s.rest).isSome = true
      · refine .inr (.inl ⟨rfl, hfound, ?_⟩)
        exact congrFun (if_pos hfound) s
      · exact .inr (.inr (.inr (.inr (congrFun (if_neg hfound) s))))
    | _ => exact .inr (.inr (.inr (.inr rfl)))
  | identifier | native =>
    have hname : s.current.isName = true := by rw [Token.isName, hkind]; rfl
    by_cases hfound : (findAssignment [] s.previous s.rest).isSome = true
    · refine .inr (.inr (.inl ⟨hname, hfound, ?_⟩))
      exact congrFun (if_pos hfound) s
    · by_cases hcommand : isCommand s.current (s.ahead 1) (s.ahead 2) = true
      · refine .inr (.inr (.inr (.inl ?_)))
        exact (congrFun (if_neg hfound) s).trans (congrFun (if_pos hcommand) s)
      · refine .inr (.inr (.inr (.inr ?_)))
        exact (congrFun (if_neg hfound) s).trans (congrFun (if_neg hcommand) s)
  | _ => exact .inr (.inr (.inr (.inr rfl)))

/-- What a statement without a keyword was read as, by its shape. -/
theorem parseStatement_eq_some (h : (parseStatement layout gas block s).1 = some stmt)
    (hplain : stmt.isPlain = true) :
    (∃ targets value span silent, stmt = .assignMany targets value span silent ∧
      s.current.kind = .sign .openBracket ∧ (findTargetsEnd 0 s.rest).isSome = true) ∨
    (∃ target value span silent, stmt = .assign target value span silent ∧
      s.current.isName = true ∧ (findAssignment [] s.previous s.rest).isSome = true) ∨
    (∃ use silent, stmt = .call use silent ∧ use.command = true) ∨
    ∃ value silent, stmt = standAlone silent value ∧
      parseStatement layout gas block s = parseExpressionStatement gas s := by
  obtain ⟨word, heq⟩ | ⟨hkind, hfound, heq⟩ | ⟨hname, hfound, heq⟩ | heq | heq :=
    parseStatement_cases layout gas block s
  · rw [heq] at h
    rw [parseKeywordStatement_isPlain h] at hplain
    contradiction
  · rw [heq] at h
    cases h
    exact .inl ⟨_, _, _, _, rfl, hkind, hfound⟩
  · rw [heq] at h
    obtain ⟨target, value, span, silent, rfl⟩ := parseAssignment_eq_some h
    exact .inr (.inl ⟨target, value, span, silent, rfl, hname, hfound⟩)
  · rw [heq] at h
    cases h
    exact .inr (.inr (.inl ⟨_, _, rfl, rfl⟩))
  · rw [heq] at h
    obtain ⟨value, silent, rfl⟩ := parseExpressionStatement_eq_some h
    exact .inr (.inr (.inr ⟨value, silent, rfl, heq⟩))

theorem standAlone_cases (silent : Bool) (value : Expr) :
    (∃ use, standAlone silent value = .call use silent) ∨ standAlone silent value = .expr value silent := by
  cases value with
  | name use => exact .inl ⟨use, rfl⟩
  | _ => exact .inr rfl

/-- What stands alone was read as an expression. -/
theorem parseStatement_standsAlone (h : (parseStatement layout gas block s).1 = some stmt)
    (halone : stmt.standsAlone = true) :
    parseStatement layout gas block s = parseExpressionStatement gas s := by
  obtain ⟨_, _, _, _, rfl, -⟩ | ⟨_, _, _, _, rfl, -⟩ | ⟨use, silent, rfl, hcommand⟩ | ⟨_, _, -, heq⟩ :=
    parseStatement_eq_some h (Stmt.isPlain_of_standsAlone halone)
  · contradiction
  · contradiction
  · rw [Stmt.standsAlone, hcommand] at halone
    contradiction
  · exact heq

theorem parseStatement_assign {target : NameUse Expr} {value : Option Expr} {span : Span} {silent : Bool}
    (h : (parseStatement layout gas block s).1 = some (.assign target value span silent)) :
    s.current.isName = true ∧ (findAssignment [] s.previous s.rest).isSome = true := by
  obtain ⟨_, _, _, _, heq, -⟩ | ⟨_, _, _, _, -, hfound⟩ | ⟨_, _, heq, -⟩ | ⟨value, silent, heq, -⟩ :=
    parseStatement_eq_some h rfl
  · cases heq
  · exact hfound
  · cases heq
  · obtain ⟨use, hcall⟩ | hexpr := standAlone_cases silent value
    · cases heq.trans hcall
    · cases heq.trans hexpr

theorem parseStatement_assignMany {targets : List Target} {value : Option Expr} {span : Span} {silent : Bool}
    (h : (parseStatement layout gas block s).1 = some (.assignMany targets value span silent)) :
    s.current.kind = .sign .openBracket ∧ (findTargetsEnd 0 s.rest).isSome = true := by
  obtain ⟨_, _, _, _, -, hfound⟩ | ⟨_, _, _, _, heq, -⟩ | ⟨_, _, heq, -⟩ | ⟨value, silent, heq, -⟩ :=
    parseStatement_eq_some h rfl
  · exact hfound
  · cases heq
  · cases heq
  · obtain ⟨use, hcall⟩ | hexpr := standAlone_cases silent value
    · cases heq.trans hcall
    · cases heq.trans hexpr

theorem parseStatement_assignment (hname : s.current.isName = true)
    (hfound : (findAssignment [] s.previous s.rest).isSome = true) :
    parseStatement layout gas block s = parseAssignment gas s := by
  have hstatement : parseNameStatement gas s.current s = parseAssignment gas s := by
    change ((if (findAssignment [] s.previous s.rest).isSome = true then _ else _ : Parser _) s) = _
    rw [if_pos hfound]
  rw [parseStatement, current_bind]
  unfold Token.isName at hname
  cases hkind : s.current.kind <;> rw [hkind] at hname <;> first | exact hstatement | contradiction

theorem parseStatement_manyAssignment (hkind : s.current.kind = .sign .openBracket)
    (hfound : (findTargetsEnd 0 s.rest).isSome = true) :
    parseStatement layout gas block s = (some <$> parseManyAssignment gas) s := by
  rw [parseStatement, current_bind, hkind]
  change ((if (findTargetsEnd 0 s.rest).isSome = true then _ else _ : Parser _) s) = _
  rw [if_pos hfound]

/-- In the whole code `t` is only the token that is consumed next. -/
def State.IsNext (s : State) (t : Token) : Prop :=
  ∀ place, s.code.tokens[place]? = some t ↔ place = s.pos

/-- No two tokens of a text are the same. -/
theorem State.isNext_current {B : Position → Prop} (hlaid : s.code.LaidOut B)
    (hkind : s.current.kind ≠ .eof) : s.IsNext s.current := by
  have hne := (Calm.refl s hlaid.eof_kind).rest_ne_nil hkind
  have hcurrent := s.getElem?_pos hne
  have hall {place : Nat} (hplace : s.code.tokens[place]? = some s.current) :
      s.code.all[place]? = some s.current := by
    obtain ⟨hlt, -⟩ := List.getElem?_eq_some_iff.mp hplace
    rw [Code.all, List.getElem?_append_left hlt]
    exact hplace
  have hnonempty := hlaid.nonempty s.current (List.mem_of_getElem? hcurrent)
  intro place
  constructor
  · intro hplace
    obtain hlt | heq | hlt := Nat.lt_trichotomy place s.pos
    · exact absurd (hlaid.stop_le_start hlt (hall hplace) (hall hcurrent)) hnonempty
    · exact heq
    · exact absurd (hlaid.stop_le_start hlt (hall hcurrent) (hall hplace)) hnonempty
  · rintro rfl
    exact hcurrent

/-- What is found ahead of the statement at `s`, and what the statement is read as. -/
structure Agrees (gas : Nat) (s : State) (x : Option Stmt × State) : Prop where
  /-- The equals sign that is found is the one behind the target, and the value is read behind it. -/
  assign : ∀ equals, s.current.isName = true → findAssignment [] s.previous s.rest = some equals →
    (behindTarget gas s).IsNext equals ∧ ∃ span silent,
      x.1 = some (.assign (parseName gas (parseExpression gas) s).1
        (parseExpression gas 0 (advance (behindTarget gas s)).2).1 span silent)
  /-- Nothing else is an assignment. -/
  found : ∀ target value span silent, x.1 = some (.assign target value span silent) →
    s.current.isName = true ∧ (findAssignment [] s.previous s.rest).isSome = true
  assignMany : ∀ equals, s.current.kind = .sign .openBracket → findTargetsEnd 0 s.rest = some equals →
    (behindTargets gas s).IsNext equals ∧ ∃ span silent,
      x.1 = some (.assignMany (parseTargetList gas s).1
        (parseExpression gas 0 (advance (behindTargets gas s)).2).1 span silent)
  foundMany : ∀ targets value span silent, x.1 = some (.assignMany targets value span silent) →
    s.current.kind = .sign .openBracket ∧ (findTargetsEnd 0 s.rest).isSome = true
  /-- In what stands alone no equals sign outside of all brackets could assign. -/
  alone : ∀ stmt, x.1 = some stmt → stmt.standsAlone = true → ∀ place, s.pos ≤ place → place < x.2.pos →
    openBehind (s.code.tokens.extract s.pos place) = [] → s.code.assignsAt place = false

/-! Where statements start. -/

/-- Outside of all brackets, with gas for the tokens that are left. -/
structure State.StartsStatement (code : Code) (gas : Nat) (s : State) : Prop where
  code_eq : s.code = code
  groups_eq : s.groups = []
  faults_eq : s.faults = []
  gas_lt : s.rest.length < gas

/-- The parser of blocks where `swap` puts others in the place of the parsers of statements. -/
def parseBlockWith (swap : Nat → Parser (Option Stmt) → Parser (Option Stmt)) (layout : Layout) :
    Nat → BlockParser
  | 0, _ => outOfGas []
  | gas + 1, ends =>
    parseStatements (swap (gas + 1) (parseStatement layout (gas + 1) (parseBlockWith swap layout gas)))
      ends (gas + 1) 0 []

theorem Beside.startsStatement {code : Code} {t : State} (h : Beside (.self code) s t)
    (hgroups : s.groups = []) (hgas : s.rest.length < gas) : t.StartsStatement code gas where
  code_eq := h.code
  groups_eq := h.groups.trans hgroups
  faults_eq := h.faults.2
  gas_lt := by
    rw [h.rest]
    simpa [Frame.self] using hgas

/-- A block does not depend on how statements would be parsed elsewhere. -/
theorem parseBlockWith_beside {code : Code} {swap : Nat → Parser (Option Stmt) → Parser (Option Stmt)}
    (hswap : ∀ gas p s, s.StartsStatement code gas → swap gas p s = p s) (layout : Layout) (gas : Nat) :
    BlockParsers (.self code) gas gas (parseBlock layout gas) (parseBlockWith swap layout gas) := by
  induction gas with
  | zero => exact fun _ _ _ _ _ hgas => absurd hgas.lt (Nat.not_lt_zero _)
  | succ gas ih =>
    intro ends s t h hgroups hgas
    rw [parseBlock, parseBlockWith]
    apply parseStatements_beside rfl _ ends (.nil _) h hgroups hgas hgas
    intro s₁ t₁ h₁ hgroups₁ hne hgas₁
    rw [hswap _ _ _ (h₁.startsStatement hgroups₁ hgas₁.lt)]
    exact parseStatement_beside (fun _ => ih) h₁ hgroups₁ hne hgas₁

/-- The whole code, parsed with others in the place of the parsers of statements. -/
def runBlockWith (swap : Nat → Parser (Option Stmt) → Parser (Option Stmt)) (code : Code) :
    List Stmt × State :=
  parseBlockWith swap (.ofCode code) (code.tokens.length + 1) [] (.ofCode code)

/-- All statements of the code start in such a state: what is done in others makes no difference. -/
def StatementsStart (code : Code) : Prop :=
  ∀ swap : Nat → Parser (Option Stmt) → Parser (Option Stmt),
    (∀ gas p s, s.StartsStatement code gas → swap gas p s = p s) →
      (runBlockWith swap code).1.map (Stmt.bareDown 0) = code.parse.program.body.map (Stmt.bareDown 0) ∧
      (runBlockWith swap code).2.diagnostics.toList = code.parse.diagnostics

theorem statementsStart {code : Code} (heof : code.eof.kind = .eof)
    (hkinds : ∀ t ∈ code.tokens, t.kind ≠ .eof) : StatementsStart code := by
  intro swap hswap
  have hlt : code.tokens.length < code.tokens.length + 1 := Nat.lt_succ_self _
  obtain ⟨hstep, hbody⟩ := parseBlockWith_beside hswap (.ofCode code) (code.tokens.length + 1) [] _ _
    (.self heof hkinds) rfl ⟨hlt, hlt⟩
  refine ⟨hbody.1, ?_⟩
  have hsame := hstep.beside.diagnostics
  change (runBlockWith swap code).2.diagnostics =
    #[] ++ (runBlock code (code.tokens.length + 1)).2.diagnostics.map (Diagnostic.down 0) at hsame
  rw [Diagnostic.down_zero_eq_id, Array.map_id, Array.empty_append] at hsame
  exact congrArg Array.toList hsame

/-- The look-ahead and the parser agree on each statement of a text in which no error is reported. -/
theorem lookahead_agrees (limit : Int) (text : String) (tokens : List Token)
    (htokens : tokenize limit text = .ok tokens) :
    StatementsStart (Code.ofTokens tokens) ∧
    ∀ (layout : Layout) (gas : Nat) (block : BlockParser) (s : State),
      s.StartsStatement (Code.ofTokens tokens) gas →
      NoErrorSince s (parseStatement layout gas block s).2 →
      Agrees gas s (parseStatement layout gas block s) := by
  have hreads := ((tokenize_eq_ok_iff limit text tokens).mp htokens).1
  refine ⟨statementsStart hreads.laidOut.eof_kind hreads.laidOut.kind_ne, ?_⟩
  intro layout gas block s hstarts herrors
  obtain ⟨hcode, hgroups, hfaults, hgas⟩ := hstarts
  have hlaid : s.code.LaidOut (Position.IsIn text.toList) := hcode ▸ hreads.laidOut
  have heof := hlaid.eof_kind
  have hkinds := hlaid.kind_ne
  -- The equals sign is a token of the code, so it stands at one place only.
  have hnext {s' : State} (hcode' : s'.code = s.code) (hequals : s'.current.kind = .sign .equals) :
      s'.IsNext s'.current := by
    rw [← hcode'] at hlaid
    exact State.isNext_current hlaid (by rw [hequals]; exact nofun)
  constructor
  · intro equals hname hfound
    have hparse : parseStatement layout gas block s = parseAssignment gas s :=
      parseStatement_assignment hname (Option.isSome_of_eq_some hfound)
    rw [hparse] at herrors ⊢
    obtain ⟨hcode', rfl, hequals⟩ :=
      assignment_found heof hkinds hgroups hfaults hgas hname herrors hfound
    exact ⟨hnext hcode' hequals, parseAssignment_fst hequals⟩
  · exact fun _ _ _ _ h => parseStatement_assign h
  · intro equals hkind hfound
    have hparse : parseStatement layout gas block s = (some <$> parseManyAssignment gas) s :=
      parseStatement_manyAssignment hkind (Option.isSome_of_eq_some hfound)
    rw [hparse] at herrors ⊢
    obtain ⟨hcode', rfl, hequals⟩ := targets_found heof hkinds hgroups hfaults hgas hkind herrors hfound
    obtain ⟨span, silent, hstmt⟩ : ∃ span silent, (parseManyAssignment gas s).1 = _ :=
      parseManyAssignment_fst
    exact ⟨hnext hcode' hequals, span, silent, congrArg some hstmt⟩
  · exact fun _ _ _ _ h => parseStatement_assignMany h
  · intro stmt hstmt halone
    have hparse := parseStatement_standsAlone hstmt halone
    rw [hparse] at herrors hstmt ⊢
    exact fun place => expression_quiet heof hkinds hgroups hfaults hgas herrors hstmt

/-- The tokens of the lines `a(i=1)=b==c`, `[x,~]=f(y=2)` and `a(i=1)<=b`. -/
def mixedLines : List Token := [
  ⟨.identifier, "a", ⟨⟨0, 0⟩, ⟨0, 1⟩⟩⟩, ⟨.sign .openParen, "(", ⟨⟨0, 1⟩, ⟨0, 2⟩⟩⟩,
  ⟨.identifier, "i", ⟨⟨0, 2⟩, ⟨0, 3⟩⟩⟩, ⟨.sign .equals, "=", ⟨⟨0, 3⟩, ⟨0, 4⟩⟩⟩,
  ⟨.number, "1", ⟨⟨0, 4⟩, ⟨0, 5⟩⟩⟩, ⟨.sign .closeParen, ")", ⟨⟨0, 5⟩, ⟨0, 6⟩⟩⟩,
  ⟨.sign .equals, "=", ⟨⟨0, 6⟩, ⟨0, 7⟩⟩⟩, ⟨.identifier, "b", ⟨⟨0, 7⟩, ⟨0, 8⟩⟩⟩,
  ⟨.sign .equals, "=", ⟨⟨0, 8⟩, ⟨0, 9⟩⟩⟩, ⟨.sign .equals, "=", ⟨⟨0, 9⟩, ⟨0, 10⟩⟩⟩,
  ⟨.identifier, "c", ⟨⟨0, 10⟩, ⟨0, 11⟩⟩⟩, ⟨.newline, "\n", ⟨⟨0, 11⟩, ⟨1, 0⟩⟩⟩,
  ⟨.sign .openBracket, "[", ⟨⟨1, 0⟩, ⟨1, 1⟩⟩⟩, ⟨.identifier, "x", ⟨⟨1, 1⟩, ⟨1, 2⟩⟩⟩,
  ⟨.sign .comma, ",", ⟨⟨1, 2⟩, ⟨1, 3⟩⟩⟩, ⟨.sign .tilde, "~", ⟨⟨1, 3⟩, ⟨1, 4⟩⟩⟩,
  ⟨.sign .closeBracket, "]", ⟨⟨1, 4⟩, ⟨1, 5⟩⟩⟩, ⟨.sign .equals, "=", ⟨⟨1, 5⟩, ⟨1, 6⟩⟩⟩,
  ⟨.identifier, "f", ⟨⟨1, 6⟩, ⟨1, 7⟩⟩⟩, ⟨.sign .openParen, "(", ⟨⟨1, 7⟩, ⟨1, 8⟩⟩⟩,
  ⟨.identifier, "y", ⟨⟨1, 8⟩, ⟨1, 9⟩⟩⟩, ⟨.sign .equals, "=", ⟨⟨1, 9⟩, ⟨1, 10⟩⟩⟩,
  ⟨.number, "2", ⟨⟨1, 10⟩, ⟨1, 11⟩⟩⟩, ⟨.sign .closeParen, ")", ⟨⟨1, 11⟩, ⟨1, 12⟩⟩⟩,
  ⟨.newline, "\n", ⟨⟨1, 12⟩, ⟨2, 0⟩⟩⟩, ⟨.identifier, "a", ⟨⟨2, 0⟩, ⟨2, 1⟩⟩⟩,
  ⟨.sign .openParen, "(", ⟨⟨2, 1⟩, ⟨2, 2⟩⟩⟩, ⟨.identifier, "i", ⟨⟨2, 2⟩, ⟨2, 3⟩⟩⟩,
  ⟨.sign .equals, "=", ⟨⟨2, 3⟩, ⟨2, 4⟩⟩⟩, ⟨.number, "1", ⟨⟨2, 4⟩, ⟨2, 5⟩⟩⟩,
  ⟨.sign .closeParen, ")", ⟨⟨2, 5⟩, ⟨2, 6⟩⟩⟩, ⟨.sign .less, "<", ⟨⟨2, 6⟩, ⟨2, 7⟩⟩⟩,
  ⟨.sign .equals, "=", ⟨⟨2, 7⟩, ⟨2, 8⟩⟩⟩, ⟨.identifier, "b", ⟨⟨2, 8⟩, ⟨2, 9⟩⟩⟩,
  ⟨.eof, "", ⟨⟨2, 9⟩, ⟨2, 9⟩⟩⟩]

/-- Before the token at place `n`. -/
def mixedState (n : Nat) (h : n ≤ 34) : State :=
  (State.ofCode (Code.ofTokens mixedLines)).skip n h

/-- The statement that starts there. -/
def mixedRun (n : Nat) (h : n ≤ 34) : Option Stmt × State :=
  parseStatement (.ofCode (Code.ofTokens mixedLines)) 36 (fun _ => pure []) (mixedState n h)

theorem lookahead_agrees_mixedLines :
    tokenize 35 "a(i=1)=b==c\n[x,~]=f(y=2)\na(i=1)<=b" = .ok mixedLines ∧
    (behindTarget 36 (mixedState 0 (by decide))).IsNext ⟨.sign .equals, "=", ⟨⟨0, 6⟩, ⟨0, 7⟩⟩⟩ ∧
    (behindTargets 36 (mixedState 12 (by decide))).IsNext ⟨.sign .equals, "=", ⟨⟨1, 5⟩, ⟨1, 6⟩⟩⟩ ∧
    ∀ place, 25 ≤ place → place < 34 →
      openBehind ((Code.ofTokens mixedLines).tokens.extract 25 place) = [] →
        (Code.ofTokens mixedLines).assignsAt place = false := by
  have htokens : tokenize 35 "a(i=1)=b==c\n[x,~]=f(y=2)\na(i=1)<=b" = .ok mixedLines := by decide +kernel
  have hstarts (n : Nat) (h : n ≤ 34) : (mixedState n h).StartsStatement (Code.ofTokens mixedLines) 36 := by
    refine ⟨rfl, rfl, rfl, ?_⟩
    have hlength : (mixedState n h).rest.length = 34 - n := List.length_drop
    omega
  have hagrees (n : Nat) (h : n ≤ 34) := (lookahead_agrees 35 _ mixedLines htokens).2
    (.ofCode (Code.ofTokens mixedLines)) 36 (fun _ => pure []) (mixedState n h) (hstarts n h)
  have hfirst := (hagrees 0 (by decide) (by unfold NoErrorSince; decide +kernel)).assign
  have hsecond := (hagrees 12 (by decide) (by unfold NoErrorSince; decide +kernel)).assignMany
  have hthird := (hagrees 25 (by decide) (by unfold NoErrorSince; decide +kernel)).alone
  refine ⟨htokens, (hfirst _ rfl (by decide +kernel)).1, (hsecond _ rfl (by decide +kernel)).1, ?_⟩
  have halone : (mixedRun 25 (by decide)).1.any Stmt.standsAlone = true := by decide +kernel
  have hpos : (mixedRun 25 (by decide)).2.pos = 34 := by decide +kernel
  obtain ⟨stmt, hstmt, hstands⟩ := (Option.any_eq_true _ _).mp halone
  intro place hle hlt
  exact hthird stmt hstmt hstands place hle (Nat.lt_of_lt_of_eq hlt hpos.symm)

end Parser

end MatrixScript
