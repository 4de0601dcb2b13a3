import MatrixScript.Proofs.Parser.Recovery

/-! Blocks do not lose a keyword `function` that has no other code before it on its line.

Main statement: where a block ends, the keyword is still to be read, or the tree has taken it. -/
namespace MatrixScript.Parser

variable {B : Position → Prop} {code : Code} {place : Nat} {s s' : State} {block : BlockParser} {gas : Nat}

/-! Switches. -/

/-- What the branches of a switch have to do with the keyword. If none of the cases has taken it, they are
all apart from it, and so is what follows the last `otherwise`. -/
def BranchesSaved (code : Code) (place : Nat) (subject : Option Expr) (cases : List (Branch Stmt))
    (otherwise : Option (List Stmt)) : Prop :=
  code.Taken place (branchNodes cases) ∨ code.OutsideOf (switchParts subject cases none) place ∧
    (code.Taken place (stmtNodes (otherwise.getD [])) ∨
      code.OutsideOf ((otherwise.getD []).map Stmt.span) place)

namespace BranchesSaved

variable {subject : Option Expr} {cases : List (Branch Stmt)} {otherwise : Option (List Stmt)}

theorem addCase (h : BranchesSaved code place subject cases otherwise) {branch : Branch Stmt}
    (hbranch : code.Taken place (stmtNodes branch.body) ∨
      branch.span.Apart (code.token place).span) :
    BranchesSaved code place subject (cases ++ [branch]) otherwise := by
  obtain ⟨guard, body, span⟩ := branch
  rw [BranchesSaved, branchNodes_append]
  obtain htaken | ⟨hcases, hother⟩ := h
  · exact .inl (htaken.mono (List.subset_append_left _ _))
  obtain htaken | hapart := hbranch
  · refine .inl (htaken.mono fun n hn => ?_)
    simp [branchNodes, branchNodesOne, hn]
  · refine .inr ⟨fun part hpart => ?_, hother⟩
    obtain hpart | rfl := mem_switchParts_concat.mp hpart
    · exact hcases part hpart
    · exact hapart

theorem setOtherwise (h : BranchesSaved code place subject cases otherwise) {body : List Stmt}
    (hbody : code.Taken place (stmtNodes body) ∨ code.OutsideOf (body.map Stmt.span) place) :
    BranchesSaved code place subject cases (some body) :=
  h.imp_right fun h => ⟨h.1, hbody⟩

/-- A switch that was read on over the keyword. -/
theorem taken (h : BranchesSaved code place subject cases otherwise) {span : Span}
    (hspan : span.Encloses (code.token place).span) :
    code.Taken place (Stmt.switch subject cases otherwise span).nodes := by
  rw [Stmt.nodes_switch]
  obtain htaken | ⟨hcases, htaken | hother⟩ := h
  · refine htaken.mono fun n hn => ?_
    simp [hn]
  · refine htaken.mono fun n hn => ?_
    simp [hn]
  · refine ⟨_, List.mem_cons_self, .inr (decide_eq_true ⟨hspan, fun part hpart => ?_⟩)⟩
    rw [switchParts, List.mem_append] at hpart
    obtain hpart | hpart := hpart
    · exact hcases part (by simpa [switchParts] using hpart)
    · exact hother part hpart

end BranchesSaved

theorem parseBranches_saves (hat : code.FunctionAt place) (hblock : BlockSaves B code place block)
    {subject : Option Expr} (exprGas gas : Nat) {cases : List (Branch Stmt)}
    {otherwise : Option (List Stmt)} (h : BranchesSaved code place subject cases.reverse otherwise)
    (hs : s.Sound B code) :
    Reaches False B code s (fun branches _ => BranchesSaved code place subject branches.1 branches.2)
      (parseBranches exprGas block gas cases otherwise s) := by
  induction gas generalizing s cases otherwise with
  | zero => exact .outOfGas hs h
  | succ gas ih =>
    refine .bind (.skipUntil False.elim hs) fun _ s₁ _ hs₁ _ => .read rfl ?_
    have hbad : Reaches False B code s₁
        (fun branches _ => BranchesSaved code place subject branches.1 branches.2)
        ((advance >>= fun _ => report (.ofToken s₁.current) s₁.current.span >>= fun _ =>
          synchronize >>= fun _ => parseBranches exprGas block gas cases otherwise) s₁) :=
      .step (.bind (.report _ hs₁.advance hs₁.current_valid (Problem.isOpenString_ofToken _)) fun _ s₃ _ hs₃ _ =>
        .bind (.synchronize hs₃) fun _ _ _ hs₄ _ => ih h hs₄)
    cases hkind : s₁.current.kind with
    | keyword word =>
      have hrest := hs₁.rest_ne_nil (by rw [hkind]; exact nofun)
      have hlt (hne : word ≠ .function) (hle : s₁.pos ≤ place) : (advance s₁).2.pos < place := by
        have hlt := hs₁.lt_of_kind_ne hat hle (by simpa [hkind] using hne)
        exact hs₁.advance_lt hat hlt (by rw [hkind]; exact nofun)
      cases word with
      | caseBranch =>
        refine .step (.bind (.halting hat (parseGuard_lies hs₁.current_valid hs₁.advance)) ?_)
        intro guard s₃ h₃ hs₃ hguard
        refine .bind (hblock.reaches _ hs₃) fun body s₄ h₄ hs₄ hbody => .read rfl (ih ?_ hs₄)
        rw [List.reverse_cons]
        have hspan := (hs₁.previous_whole hrest (h₃.trans h₄) hs₄).toBetween
        have hread : s₁.pos ≤ place → Saved code place (stmtNodes body) s₄ :=
          fun hle => hbody.2 (Nat.le_of_lt (hguard.2 (hlt nofun hle)))
        exact h.addCase ((taken_or_apart hat hs₁ hs₄ hread).imp_right fun hapart => hapart _ hspan)
      | otherwiseBranch =>
        refine .step (.bind (hblock.reaches _ hs₁.advance) fun body s₃ _ hs₃ hbody => ih ?_ hs₃)
        refine h.setOtherwise ((taken_or_apart hat hs₁.advance hs₃ hbody.2).imp_right fun hapart => ?_)
        intro part hpart
        obtain ⟨st, hst, rfl⟩ := List.mem_map.mp hpart
        exact hapart _ (hbody.1.span hst)
      | endAny | endSwitch => exact .pure hs₁ h
      | _ => exact hbad
    | eof => exact .pure hs₁ h
    | _ => exact hbad

theorem parseSwitch_saves (hat : code.FunctionAt place) (hblock : BlockSaves B code place block)
    (hkind : s.current.kind = .keyword .switchBlock) (hlt : s.pos < place) (hs : s.Sound B code) :
    Reaches False B code s (fun st s' => Saved code place st.nodes s') (parseSwitch gas block s) := by
  have hlt₁ := hs.advance_lt hat hlt (by rw [hkind]; exact nofun)
  refine .step (.bind (parseCondition_saves hat _ hs.current_valid hs.advance) ?_)
  intro subject s₂ _ hs₂ hsubject
  have hstart : BranchesSaved code place subject [].reverse none := by
    refine .inr ⟨fun part hpart => ?_, .inr (List.forall_mem_nil _)⟩
    cases subject with
    | none => exact absurd hpart List.not_mem_nil
    | some e =>
      obtain rfl : part = e.span := by simpa [switchParts] using hpart
      have hle := hs₂.here_le_token hat (Nat.le_of_lt (hsubject.2 hlt₁))
      exact .inl (Position.le_trans (ExprLies.span hsubject.1).le_hi hle)
  refine .bind (parseBranches_saves hat hblock gas gas hstart hs₂) fun branches s₃ _ hs₃ hbranches => ?_
  refine .bind (closeBlock_saves hat _ (by decide) hs.current_valid hs₃) fun stop s₄ _ hs₄ hclose => ?_
  refine .pure hs₄ ?_
  by_cases hle : s₃.pos ≤ place
  · exact .inl (hclose.1 hle)
  · refine .inr (hbranches.taken ⟨?_, hclose.2 (Nat.lt_of_not_le hle)⟩)
    exact hs.here_le_token hat (Nat.le_of_lt hlt)

/-! Multiple assignments. -/

theorem parseTargets_saves (hat : code.FunctionAt place) (nameGas gas : Nat) {targets : List Target}
    (h : code.OutsideOf (targets.map (·.toExpr.span)) place) (hs : s.Sound B code) :
    Reaches False B code s (fun all _ => code.OutsideOf (all.map (·.toExpr.span)) place)
      (parseTargets nameGas gas targets s) := by
  have hdone {targets : List Target} (h : code.OutsideOf (targets.map (·.toExpr.span)) place) :
      code.OutsideOf (targets.reverse.map (·.toExpr.span)) place := by
    intro part hpart
    exact h part (by simpa using hpart)
  induction gas generalizing s targets with
  | zero => exact .outOfGas hs (hdone h)
  | succ gas ih =>
    have hmore (target : Target) {s' : State} (hs' : s'.Sound B code)
        (hspan : target.toExpr.span.Between B s.here s'.here)
        (hread : s.pos ≤ place → s'.pos < place) :
        code.OutsideOf ((target :: targets).map (·.toExpr.span)) place := by
      refine List.forall_mem_cons.mpr ⟨?_, h⟩
      have hsaved (hle : s.pos ≤ place) : Saved code place [] s' := .inl (Nat.le_of_lt (hread hle))
      obtain ⟨n, hn, -⟩ | hapart := taken_or_apart hat hs hs' hsaved
      · exact absurd hn List.not_mem_nil
      · exact hapart _ hspan
    have hskip : Reaches False B code s (fun all _ => code.OutsideOf (all.map (·.toExpr.span)) place)
        ((advance >>= fun _ => parseTargets nameGas gas targets) s) := .step (ih h hs.advance)
    have hbad : Reaches False B code s (fun all _ => code.OutsideOf (all.map (·.toExpr.span)) place)
        ((advance >>= fun _ => report (.inTargets s.current.text) s.current.span >>= fun _ =>
          parseTargets nameGas gas targets) s) :=
      .step (.bind (.report _ hs.advance hs.current_valid rfl) fun _ _ _ hs₂ _ => ih h hs₂)
    refine .ite (fun _ => .pure hs (hdone h)) (fun _ => .read rfl ?_)
    cases hkind : s.current.kind with
    | identifier | native =>
      have hname : s.current.isName = true := by rw [Token.isName, hkind]; rfl
      refine .bind (.halting hat (parseName_lies (parseExpression_lies nameGas) nameGas hname hs)) ?_
      intro use s₁ _ hs₁ huse
      refine ih (hmore (.name use) hs₁ huse.1.span.toBetween fun hle => huse.2 ?_) hs₁
      exact hs.lt_of_kind_ne hat hle (by simp [hkind])
    | sign sign =>
      cases sign with
      | tilde | bang =>
        have hspan := hs.current_between (.refl _)
        refine .step (ih (hmore (.ignored s.current.span) hs.advance hspan fun hle => ?_) hs.advance)
        have hlt := hs.lt_of_kind_ne hat hle (by simp [hkind])
        exact hs.advance_lt hat hlt (by simp [hkind])
      | comma => exact hskip
      | _ => exact hbad
    | newline => exact hskip
    | _ => exact hbad

/-- Where no operand starts, there is no expression. -/
theorem parseExpression_none (gas least : Nat) (hoperator : prefixAt s.current = none)
    (hprimary : ∀ gas sub, parsePrimary gas sub s = (none, s)) :
    Leads s (fun e => e = none) (parseExpression gas least s) := by
  have hunary (gas : Nat) (sub : SubParser) : Leads s (fun e => e = none) (parseUnary gas sub s) := by
    refine .read rfl ?_
    rw [hoperator]
    exact .read (hprimary gas sub) (.pure rfl)
  cases gas with
  | zero => exact .outOfGas rfl
  | succ gas =>
    refine .bind (hunary (gas + 1) (parseExpression gas)) fun e _ _ he => ?_
    subst he
    exact .pure rfl

/-- No expression starts with the keyword. -/
theorem parseExpression_function (gas least : Nat) (hkind : s.current.kind = .keyword .function) :
    Leads s (fun e => e = none) (parseExpression gas least s) := by
  apply parseExpression_none
  · rw [prefixAt, hkind]
  · intro gas sub
    rw [parsePrimary, current_bind, hkind]
    rfl

theorem parseAssigned_leads (equals : Token) :
    Leads s (fun a => a.1 = (parseExpression gas 0 s).1 ∧ a.2 = (a.1.elim equals.span Expr.span).stop)
      (parseAssigned gas equals s) := by
  refine .bind (V := fun value => value = (parseExpression gas 0 s).1) ⟨parseExpression_extends gas 0 s, rfl⟩ ?_
  intro value s₁ _ hvalue
  cases value with
  | some value => exact .pure ⟨hvalue, rfl⟩
  | none =>
    refine .bind (.expectedExpression equals s₁) fun _ s₂ _ _ => ?_
    exact .bind (.synchronize s₂) fun _ _ _ _ => .pure ⟨hvalue, rfl⟩

/-- The value behind the equals sign, how it was read and where the assignment ends. -/
theorem parseAssigned_saves (hat : code.FunctionAt place) {equals : Token} {lo start : Position}
    (hvalid : equals.span.Valid B) (hequals : Span.Between B lo s.here ⟨start, equals.span.stop⟩)
    (hs : s.Sound B code) :
    Reaches False B code s (fun a s' => (OptionLies B code s.here a.1 s' ∧
        Span.Between B lo s'.here ⟨start, a.2⟩) ∧
      (s.pos < place → s'.pos < place) ∧ a.1 = (parseExpression gas 0 s).1 ∧
      a.2 = (a.1.elim equals.span Expr.span).stop) (parseAssigned gas equals s) := by
  have hlies : Reaches True B code s _ (parseAssigned gas equals s) := parseAssigned_lies hvalid hs
  refine .keeping (hlies.mono fun _ _ hvalue => ⟨hvalue.lies, hvalue.between hequals⟩) ⟨?_, ?_⟩
  · exact hlies.halts trivial place hat.toOpensLine
  · exact (parseAssigned_leads equals).2

/-- If the equals sign is behind the keyword, the keyword is among the targets. -/
theorem swallows_targets (hat : code.FunctionAt place) {targets : List Target} {value : Option Expr}
    {start : Position} {silent : Bool} {s' : State} (hs : s.Sound B code) (hgt : place < (advance s).2.pos)
    (hstart : start ≤ (code.token place).span.start)
    (htargets : code.OutsideOf (targets.map (·.toExpr.span)) place)
    (hvalue : OptionLies B code (advance s).2.here value s') :
    (Node.stmt (.assignMany targets value ⟨start, (value.elim s.current.span Expr.span).stop⟩
      silent)).swallows (code.token place) = true := by
  have hbehind := hs.advance.token_le_here hgt
  refine decide_eq_true (.inl ⟨⟨hstart, ?_⟩, fun part hpart => ?_⟩)
  · cases value with
    | none =>
      have hle : place ≤ s.pos := Nat.le_of_lt_succ (Nat.lt_of_lt_of_le hgt (advance_pos_le s))
      exact hs.laid.stop_le_stop hle (Code.getElem?_all (Nat.le_of_lt hat.lt)) hs.getElem?_current
    | some e =>
      have hspan := ExprLies.span hvalue
      exact Position.le_trans hbehind (Position.le_trans hspan.lo_le hspan.start_le)
  · rw [assignParts, List.mem_append] at hpart
    obtain hpart | hpart := hpart
    · exact htargets part hpart
    · cases value with
      | none => exact absurd hpart List.not_mem_nil
      | some e =>
        obtain rfl : part = e.span := by simpa using hpart
        exact .inr (Position.le_trans hbehind (ExprLies.span hvalue).lo_le)

/-- If the newline before the keyword is taken for the equals sign, the keyword is where the value would
be. -/
theorem swallows_value (hat : code.FunctionAt place) {targets : List Target} {start : Position}
    {silent : Bool} (hs : s.Sound B code) (heq : (advance s).2.pos = place)
    (hstart : start ≤ (code.token place).span.start) :
    (Node.stmt (.assignMany targets none ⟨start, s.current.span.stop⟩ silent)).swallows
      (code.token place) = true := by
  have hrest : s.rest ≠ [] := by
    intro hnil
    rw [advance_eq_self hnil] at heq
    have hlt : s.pos < s.code.tokens.length := heq ▸ hs.code_eq ▸ hat.lt
    exact absurd hlt (Nat.not_lt.mpr (s.length_le_pos hnil))
  rw [advance_pos hrest] at heq
  refine decide_eq_true (.inr ⟨rfl, hstart, ?_⟩)
  rw [hs.current_eq]
  exact hat.line s.pos heq.symm

theorem parseManyAssignment_saves (hat : code.FunctionAt place) (hlt : s.pos < place)
    (hs : s.Sound B code) :
    Reaches False B code s (fun st s' => Saved code place st.nodes s') (parseManyAssignment gas s) := by
  have hopening := hs.current_between (.refl _)
  have hstart := hs.here_le_token hat (Nat.le_of_lt hlt)
  refine .step (.bind (parseTargets_saves hat gas gas (List.forall_mem_nil _) hs.advance) ?_)
  intro targets s₂ h₂ hs₂ htargets
  refine .bind (.expectSign _ _ hs₂ hs.current_valid rfl) fun _ s₃ h₃ hs₃ _ => .step ?_
  have hequals := hs₃.current_between (.refl _)
  have hopened := hequals.mono (hs.advance.here_le (h₂.trans h₃)) (Position.le_refl _)
  refine .bind (parseAssigned_saves hat hequals.toValid (hopening.join hopened) hs₃.advance) ?_
  rintro ⟨value, stop⟩ s₅ h₅ hs₅ ⟨⟨hvalue, hspan⟩, hhalts, hread, hstop⟩
  obtain rfl : stop = (value.elim s₃.current.span Expr.span).stop := hstop
  refine .bind (.halting hat (finishAssignment_keeps hspan.toValid hs₅)) ?_
  intro silent s₆ h₆ hs₆ hfinish
  refine .pure hs₆ ?_
  obtain hbefore | heq | hgt := Nat.lt_trichotomy (advance s₃).2.pos place
  · exact .inl (Nat.le_of_lt (hfinish.2 (hhalts hbefore)))
  · have hkind : (advance s₃).2.current.kind = .keyword .function := by
      rw [hs₃.advance.current_eq, heq]
      exact hat.kind
    obtain rfl : value = none := hread.trans (parseExpression_function gas 0 hkind).2
    exact .inr ⟨_, Stmt.mem_nodes _, .inr (swallows_value hat hs₃ heq hstart)⟩
  · exact .inr ⟨_, Stmt.mem_nodes _, .inr (swallows_targets hat hs₃ hgt hstart htargets hvalue)⟩

/-! All statements. -/

/-- The keyword is not lost in the statement, and read if the statement starts with it. -/
def StatementSaved (code : Code) (place : Nat) (s : State) (st : Option Stmt) (s' : State) : Prop :=
  Saved code place (stmtNodes st.toList) s' ∧ (s.pos = place → place < s'.pos)

theorem Reaches.statement {p : Parser Stmt} (hlt : s.pos < place)
    (h : Reaches False B code s (fun st s' => Saved code place st.nodes s') (p s)) :
    Reaches False B code s (StatementSaved code place s) ((some <$> p) s) := by
  refine h.map fun st s' hsaved => ⟨?_, fun heq => absurd heq (Nat.ne_of_lt hlt)⟩
  rw [Option.toList_some, stmtNodes_singleton]
  exact hsaved

section

variable (hat : code.FunctionAt place)
include hat

/-- A statement that ends before the line. -/
theorem Reaches.line {x : Option Stmt × State} (hlt : s.pos < place)
    (h : Reaches True B code s (OptionStmtLies B code s.here) x) :
    Reaches False B code s (StatementSaved code place s) x := by
  refine (halting hat h).mono fun st s' hst => ⟨.inl (Nat.le_of_lt (hst.2 hlt)), fun heq => ?_⟩
  exact absurd heq (Nat.ne_of_lt hlt)

theorem parseKeywordStatement_saves (hblock : BlockSaves B code place block) {word : Keyword}
    (hkind : s.current.kind = .keyword word) (hle : s.pos ≤ place) (hs : s.Sound B code) :
    Reaches False B code s (StatementSaved code place s)
      (parseKeywordStatement (.ofCode code) gas block s.current word s) := by
  by_cases hword : word = .function
  · subst hword
    refine (parseFunction_saves hat hblock hkind hle hs).map fun st s' hst => ⟨?_, hst.2⟩
    rw [Option.toList_some, stmtNodes_singleton]
    exact hst.1
  have hlt : s.pos < place := hs.lt_of_kind_ne hat hle (by simpa [hkind] using hword)
  have hmore : isNewlineOrEnd s.current.kind = false := by rw [hkind]; rfl
  cases word with
  | function => exact absurd rfl hword
  | ifBlock => exact .statement hlt (parseIf_saves hat hblock hkind hlt hs)
  | forLoop => exact .statement hlt (parseFor_saves hat hblock hkind hlt hs)
  | whileLoop => exact .statement hlt (parseWhile_saves hat hblock hkind hlt hs)
  | doBlock => exact .statement hlt (parseDoUntil_saves hat hblock hkind hlt hs)
  | switchBlock => exact .statement hlt (parseSwitch_saves hat hblock hkind hlt hs)
  | tryBlock => exact .statement hlt (parseTry_saves hat hblock hkind hlt hs)
  | breakOut | continueOn | returnBack => exact .line hat hlt (.some_map (parseJump_lies _ hmore hs))
  | global | persistent => exact .line hat hlt (.some_map (parseDeclaration_lies _ hmore hs))
  | _ =>
    refine .line hat hlt (.next (kind_ne_newline_of_more hmore) ?_)
    exact .bind (.report _ hs.advance hs.current_valid (Problem.isOpenString_ofToken _))
      fun _ _ _ hs₂ _ => .pure hs₂ .none

theorem parseStatement_saves (hblock : BlockSaves B code place block) (hle : s.pos ≤ place)
    (hs : s.Sound B code) :
    Reaches False B code s (StatementSaved code place s) (parseStatement (.ofCode code) gas block s) := by
  refine .read rfl ?_
  by_cases hword : ∃ word, s.current.kind = .keyword word
  · obtain ⟨word, hkind⟩ := hword
    rw [hkind]
    exact parseKeywordStatement_saves hat hblock hkind hle hs
  have hlt : s.pos < place := hs.lt_of_kind_ne hat hle fun hkind => hword ⟨_, hkind⟩
  have hexpression : Reaches False B code s (StatementSaved code place s) (parseExpressionStatement gas s) :=
    .line hat hlt (parseExpressionStatement_lies hs)
  cases hkind : s.current.kind with
  | keyword word => exact absurd ⟨word, hkind⟩ hword
  | sign sign =>
    cases sign with
    | openBracket =>
      refine .read rfl (.ite (fun _ => ?_) (fun _ => hexpression))
      exact .statement hlt (parseManyAssignment_saves hat hlt hs)
    | _ => exact hexpression
  | identifier | native =>
    have hname : s.current.isName = true := by rw [Token.isName, hkind]; rfl
    exact .line hat hlt (parseNameStatement_lies hname _ hs)
  | _ => exact hexpression

/-- A token that no statement takes is not the keyword. -/
theorem parseNext_saves {statement : Parser (Option Stmt)} (hkind : s.current.kind ≠ .newline)
    (hle : s.pos ≤ place) (h : Reaches False B code s (StatementSaved code place s) (statement s)) :
    Reaches False B code s (fun st s' => Saved code place (stmtNodes st.toList) s') (parseNext statement s) := by
  refine .read rfl (.bind h fun st s₁ h₁ hs₁ hst => .read rfl ?_)
  refine .ite (fun hpos => .step ?_) (fun _ => .pure hs₁ hst.1)
  refine .bind (.report _ hs₁.advance hs₁.current_valid (Problem.isOpenString_ofToken _))
    fun _ s₃ _ hs₃ hsame => .pure hs₃ ?_
  refine hst.1.pass fun _ => ?_
  have hpos : s₁.pos = s.pos := by simpa using hpos
  have hlt : s₁.pos < place := by
    rw [hpos]
    refine Nat.lt_of_le_of_ne hle fun heq => ?_
    have hpast := hst.2 heq
    omega
  have hkind₁ : s₁.current.kind ≠ .newline := h₁.current_eq hpos ▸ hkind
  exact hsame ▸ Nat.le_of_lt (hs₁.advance_lt hat hlt hkind₁)

/-- The keyword does not separate statements. -/
theorem skipSeparators_saves (hs : s.Sound B code) :
    Reaches False B code s (fun _ s' => (s.pos ≤ place → s'.pos ≤ place) ∧ s'.current.kind ≠ .newline)
      (skipUntil (fun kind => !isSeparator kind) s) := by
  have hkeeps := Reaches.skipUntil (p := fun kind => !isSeparator kind) False.elim hs
  refine ⟨hkeeps.goes, hkeeps.sound, ⟨fun hle => ?_, ?_⟩, False.elim⟩
  · refine (skipUntil_keeps (I := fun s' => s'.code = code ∧ s'.pos ≤ place) ?_ ⟨hs.code_eq, hle⟩).2
    intro s' ⟨hcode, hle⟩ hsep
    have hne : s'.pos ≠ place := by
      rintro rfl
      rw [s'.current_eq_token, hcode, hat.kind] at hsep
      contradiction
    have hstep := advance_pos_le s'
    exact ⟨(Extends.advance s').code.trans hcode, by omega⟩
  · intro hkind
    have hrest := hkeeps.sound.rest_ne_nil (by rw [hkind]; exact nofun)
    rw [skipUntil_rest] at hrest
    have hfirst := List.head_dropWhile_not (fun t : Token => !!isSeparator t.kind) hrest
    rw [State.current, skipUntil_rest, List.headD_eq_head?_getD, List.head?_eq_some_head hrest,
      Option.getD_some] at hkind
    rw [hkind] at hfirst
    contradiction

theorem parseStatements_saves {statement : Parser (Option Stmt)} (ends : List Keyword)
    (hlies : ∀ s, s.Sound B code → Reaches False B code s (OptionStmtLies B code s.here) (statement s))
    (hsaves : ∀ s, s.Sound B code → s.pos ≤ place →
      Reaches False B code s (StatementSaved code place s) (statement s)) (gas count : Nat)
    {done : List Stmt} (h : Saved code place (stmtNodes done.reverse) s) (hs : s.Sound B code) :
    Reaches False B code s (fun ss s' => Saved code place (stmtNodes ss) s')
      (parseStatements statement ends gas count done s) := by
  induction gas generalizing s count done with
  | zero => exact .outOfGas hs h
  | succ gas ih =>
    refine .bind (skipSeparators_saves hat hs) fun _ s₁ _ hs₁ hskip => .read rfl ?_
    have h₁ := h.pass hskip.1
    refine .ite (fun _ => .pure hs₁ h₁) (fun _ => .ite (fun _ => ?_) (fun _ => ?_))
    · refine .bind (.report _ hs₁ hs₁.current_valid rfl) fun _ s₂ _ hs₂ hsame => .pure hs₂ ?_
      exact h₁.pass fun hle => hsame ▸ hle
    · have hnext : Reaches False B code s₁ (fun st s' => s₁.pos ≤ place →
          Saved code place (stmtNodes st.toList) s') (parseNext statement s₁) := by
        have hkeeps := parseNext_lies (hlies s₁ hs₁)
        refine ⟨hkeeps.goes, hkeeps.sound, fun hle => ?_, False.elim⟩
        exact (parseNext_saves hat hskip.2 hle (hsaves s₁ hs₁ hle)).value
      refine .bind hnext fun st s₂ _ hs₂ hst => ?_
      have hall := h₁.append hst
      cases st with
      | none => exact ih count (by simpa [stmtNodes] using hall) hs₂
      | some st =>
        refine ih (count + 1) ?_ hs₂
        rwa [List.reverse_cons, stmtNodes_append]

theorem parseBlock_saves (gas : Nat) : BlockSaves B code place (parseBlock (.ofCode code) gas) := by
  refine ⟨parseBlock_lies gas, ?_⟩
  induction gas with
  | zero => exact fun _ _ _ hle => .inl hle
  | succ gas ih =>
    intro ends s hs hle
    have hblock : BlockSaves B code place (parseBlock (.ofCode code) gas) := ⟨parseBlock_lies gas, ih⟩
    refine (parseStatements_saves hat ends (fun s hs => parseStatement_lies hblock.lies hs)
      (fun s hs hle => parseStatement_saves hat hblock hle hs) (gas + 1) 0 (.inl hle) hs).value

end

end MatrixScript.Parser
