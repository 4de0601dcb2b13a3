import MatrixScript.Proofs.Parser.LineExtent

/-! Blocks and functions lie between the places where the parser starts and where it stops reading them. They
enclose their parts, and only an assignment that was read to the end of the code can end behind the block that
it is in. It is also kept between which tokens a function was read, since these decide about its documentation.

Main statement: the parts of a parsed program stand behind each other, and only valid spans are reported
on the way. -/
namespace MatrixScript

/-- The name of a function stands apart from its outputs and its parameters. -/
structure FunctionHeader.NameStands (header : FunctionHeader) (lo hi : Position) : Prop where
  lo_le : lo ≤ header.nameSpan.start
  not_hi_le : ¬hi ≤ header.nameSpan.start
  apart : ∀ n ∈ exprNodes (header.outputs.map Output.toExpr) ++
    exprNodes (header.params.map Param.toExpr), header.nameSpan.start ∉ n.place?

theorem FunctionHeader.NameStands.mono {header : FunctionHeader} {lo hi lo' hi' : Position} (h : header.NameStands lo hi)
    (hlo : lo' ≤ lo) (hhi : hi ≤ hi') : header.NameStands lo' hi' :=
  ⟨Position.le_trans hlo h.lo_le, fun hle => h.not_hi_le (Position.le_trans hhi hle), h.apart⟩

namespace Parser

variable {L : Prop} {B : Position → Prop} {code : Code} {s s' s₁ : State} {block : BlockParser} {gas : Nat}
  {lo : Position}

/-- The parser for the blocks inside statements. It stops at no separator, unless something goes wrong. -/
structure BlockLies (B : Position → Prop) (code : Code) (block : BlockParser) : Prop where
  reads : ∀ ends s, s.Sound B code → Reaches False B code s (StmtsLie B code s.here) (block ends s)
  stops : ∀ ends s, (block ends s).2.faults ≠ [] ∨ (block ends s).2.rest = [] ∨
    isSeparator (block ends s).2.current.kind = false

theorem parseCondition_lies (word : Keyword) {keyword : Token} (hkeyword : keyword.span.Valid B)
    (hs : s.Sound B code) :
    Reaches L B code s (OptionLies B code s.here) (parseCondition gas word keyword s) := by
  refine .ite (fun _ => ?_) (fun _ => ?_)
  · refine .bind (.report _ hs hkeyword rfl) fun _ s₁ h₁ hs₁ _ => ?_
    exact .bind (.accepts rfl hs₁) fun _ _ h₂ hs₂ _ => .pure hs₂ (.none (hs.here_le (h₁.trans h₂)))
  · refine .bind (parseExpression_lies gas 0 s hs) fun condition s₁ _ hs₁ hcondition => ?_
    refine .ite (fun _ => ?_)
      (fun _ => .bind (.accepts rfl hs₁) fun _ _ h₂ hs₂ _ => .pure hs₂ (hcondition.later hs₁ h₂))
    refine .bind (.reportHere _ hs₁ rfl) fun _ s₂ h₂ hs₂ _ => ?_
    refine .bind (.synchronize hs₂) fun _ s₃ h₃ hs₃ _ => ?_
    exact .bind (.accepts rfl hs₃) fun _ _ h₄ hs₄ _ =>
      .pure hs₄ (hcondition.later hs₁ (h₂.trans (h₃.trans h₄)))

/-- A block ends with the token that closes it, else with the last token in it. -/
theorem closeBlock_lies {s₀ : State} (word : Keyword) (hs₀ : s₀.Sound B code)
    (hkind : s₀.current.kind ≠ .eof) (h : Extends (advance s₀).2 s) (hs : s.Sound B code) :
    Reaches False B code s (fun stop s' => Span.Whole B code s₀.here s'.here ⟨s₀.here, stop⟩)
      (closeBlock word s₀.current s) := by
  have hrest := hs₀.rest_ne_nil hkind
  refine .read rfl (.ite (fun hword => .step (.pure hs.advance ?_)) (fun _ => ?_))
  · rw [← advance_previous (hs.rest_ne_nil (kind_ne_of_isWord hword))]
    exact hs₀.previous_whole hrest (h.trans (.advance s)) hs.advance
  · refine .bind (.report _ hs hs₀.current_valid rfl) fun _ s₁ h₁ hs₁ _ => .read rfl (.pure hs₁ ?_)
    exact hs₀.previous_whole hrest (h.trans h₁) hs₁

theorem parseElseIfs_lie (hblock : BlockLies B code block) (exprGas gas : Nat)
    {clauses : List (Branch Stmt)} (h : BranchesLie B code lo clauses.reverse s) (hs : s.Sound B code) :
    Reaches False B code s (BranchesLie B code lo) (parseElseIfs exprGas block gas clauses s) := by
  induction gas generalizing s clauses with
  | zero => exact .outOfGas hs (h.later hs (.fault _ s))
  | succ gas ih =>
    refine .read rfl (.ite (fun _ => .pure hs h) (fun hword => .step ?_))
    have hrest := hs.rest_ne_nil (kind_ne_of_isWord (by simpa using hword))
    refine .bind (parseCondition_lies _ hs.current_valid hs.advance) fun guard s₂ h₂ hs₂ hguard => ?_
    refine .bind (hblock.reads _ s₂ hs₂) fun body s₃ h₃ hs₃ hbody => .read rfl (ih ?_ hs₃)
    have hspan := hs.previous_whole hrest (h₂.trans h₃) hs₃
    rw [List.reverse_cons]
    exact h.append ((Extends.advance s).trans (h₂.trans h₃))
      (.singleton hspan (hguard.wider (hs.here_le (.advance s))) h₃ hbody)

theorem parseElse_lies (hblock : BlockLies B code block) (hs : s.Sound B code) :
    Reaches False B code s (fun other => StmtsLie B code s.here (other.getD [])) (parseElse block s) := by
  refine .read rfl (.ite (fun _ => .step ?_) (fun _ => .pure hs (.nil (Position.le_refl _))))
  refine .bind (hblock.reads _ _ hs.advance) fun body _ _ hs₂ hbody => .pure hs₂ ?_
  exact hbody.wider (hs.here_le (.advance s))

theorem parseIf_lies (hblock : BlockLies B code block) (hkind : s.current.kind ≠ .eof)
    (hs : s.Sound B code) : Reaches False B code s (StmtLies B code s.here) (parseIf gas block s) := by
  refine .step (.bind (parseCondition_lies _ hs.current_valid hs.advance) ?_)
  intro condition s₂ h₂ hs₂ hcondition
  refine .bind (hblock.reads _ s₂ hs₂) fun body s₃ h₃ hs₃ hbody => ?_
  refine .bind (parseElseIfs_lie hblock gas gas (.nil (Position.le_refl _)) hs₃) ?_
  intro clauses s₄ h₄ hs₄ hclauses
  refine .bind (parseElse_lies hblock hs₄) fun other s₅ h₅ hs₅ hother => ?_
  have hto₅ := h₂.trans (h₃.trans (h₄.trans h₅))
  refine .bind (closeBlock_lies _ hs hkind hto₅ hs₅) fun stop s₆ h₆ hs₆ hspan => .pure hs₆ ?_
  have hparts := ((hcondition.placed.append h₃ hbody).append h₄ hclauses).append h₅ hother
  rw [StmtLies, Stmt.nodes_ifElse, Stmt.occurrences_ifElse]
  refine .whole hspan (.bare rfl rfl rfl) ?_ (Stmt.nodes_ifElse ..) rfl rfl rfl
  exact (hparts.wider (hs.here_le (.advance s))).later hs₅ h₆

/-! Loops. -/

/-- The header of a loop: its variable stands before what it runs over. -/
def LoopHeaderLies (B : Position → Prop) (code : Code) (lo : Position)
    (header : Option Variable × Option Expr) (s : State) : Prop :=
  ∃ s₁, Extends s₁ s ∧ VariablesLie B code lo header.1.toList s₁ ∧ OptionLies B code s₁.here header.2 s

theorem LoopHeaderLies.later {header : Option Variable × Option Expr} (h : LoopHeaderLies B code lo header s)
    (hs : s.Sound B code) (hextends : Extends s s') : LoopHeaderLies B code lo header s' := by
  obtain ⟨s₁, h₁, hvar, hiterable⟩ := h
  exact ⟨s₁, h₁.trans hextends, hvar, hiterable.later hs hextends⟩

theorem parseLoopHeader_lies {keyword : Token} (hkeyword : keyword.span.Valid B) (hs : s.Sound B code) :
    Reaches L B code s (LoopHeaderLies B code s.here) (parseLoopHeader gas keyword s) := by
  have hnone : VariablesLie B code s.here [] s := .nil (Position.le_refl _)
  refine .read rfl (.ite (fun _ => ?_) (fun hname => ?_))
  · refine .bind (.report _ hs hkeyword rfl) fun _ s₁ h₁ hs₁ _ => .pure hs₁ ?_
    exact ⟨s, h₁, hnone, .none (hs.here_le h₁)⟩
  replace hname : s.current.isName = true := by simpa using hname
  have hvar {s' : State} (h : Extends (advance s).2 s') : VariablesLie B code s.here
      (some ⟨s.current.text, s.current.span⟩ : Option Variable).toList s' :=
    VariablesLie.add hnone hs hname h
  refine .next (kind_ne_newline_of_isName hname) (.ite (fun _ => ?_) (fun hequals => ?_))
  · refine .bind (.reportHere _ hs.advance rfl) fun _ s₂ h₂ hs₂ _ => .pure hs₂ ?_
    exact ⟨_, h₂, hvar (.refl _), .none (hs.advance.here_le h₂)⟩
  · have hs₁ := hs.advance
    have hkind : (advance s).2.current.kind = .sign .equals := by simpa using hequals
    refine .next (by rw [hkind]; exact nofun) ?_
    refine .bind (parseExpression_lies gas 0 _ hs₁.advance) fun iterable s₃ h₃ hs₃ hiterable => ?_
    refine .bind (.expectValue iterable _ hs₃ hs₁.current_valid rfl) fun _ s₄ h₄ hs₄ _ => .pure hs₄ ?_
    exact ⟨_, h₃.trans h₄, hvar (.advance _), hiterable.later hs₃ h₄⟩

theorem parseLoopHeaderOrGroup_lies {keyword : Token} (hkeyword : keyword.span.Valid B)
    (hs : s.Sound B code) :
    Reaches L B code s (LoopHeaderLies B code s.here) (parseLoopHeaderOrGroup gas keyword s) := by
  have hstep : s.here ≤ (advance s).2.here := hs.here_le (.advance s)
  refine .read rfl (.read rfl (.read rfl (.ite (fun hopen => ?_) (fun _ => ?_))))
  · simp only [Bool.and_eq_true] at hopen
    refine .next (kind_ne_newline_of_is hopen.1.1) (.bind (.inside (fun _ _ _ h hs₁ he => he.later hs₁ h)
      (parseLoopHeader_lies hkeyword (hs.advance.groups _))) fun header s₂ _ hs₂ hheader => ?_)
    obtain ⟨s₁, h₁, hvar, hiterable⟩ := hheader
    refine .bind (.expectSign _ _ hs₂ hs.current_valid rfl) fun _ s₃ h₃ hs₃ _ => .pure hs₃ ?_
    exact ⟨s₁, h₁.trans h₃, hvar.wider hstep, hiterable.later hs₂ h₃⟩
  · exact parseLoopHeader_lies hkeyword hs

theorem parseForHeader_lies {keyword : Token} (hkeyword : keyword.span.Valid B) (hs : s.Sound B code) :
    Reaches L B code s (LoopHeaderLies B code s.here) (parseForHeader gas keyword s) := by
  refine .bind (parseLoopHeaderOrGroup_lies hkeyword hs) fun header s₁ _ hs₁ hheader => ?_
  refine .ite (fun _ => ?_)
    (fun _ => .bind (.accepts rfl hs₁) fun _ _ h₂ hs₂ _ => .pure hs₂ (hheader.later hs₁ h₂))
  refine .bind (.synchronize hs₁) fun _ s₂ h₂ hs₂ _ => ?_
  exact .bind (.accepts rfl hs₂) fun _ _ h₃ hs₃ _ => .pure hs₃ (hheader.later hs₁ (h₂.trans h₃))

theorem parseFor_lies (hblock : BlockLies B code block) (hkind : s.current.kind ≠ .eof)
    (hs : s.Sound B code) : Reaches False B code s (StmtLies B code s.here) (parseFor gas block s) := by
  refine .step (.bind (parseForHeader_lies hs.current_valid hs.advance) ?_)
  intro header s₂ h₂ hs₂ ⟨s₁, h₁, hvar, hiterable⟩
  refine .bind (hblock.reads _ s₂ hs₂) fun body s₃ h₃ hs₃ hbody => ?_
  refine .bind (closeBlock_lies _ hs hkind (h₂.trans h₃) hs₃) fun stop s₄ h₄ hs₄ hspan => .pure hs₄ ?_
  have hparts := (Built.append hvar h₁ hiterable.placed).append h₃ hbody
  rw [StmtLies, Stmt.nodes, Stmt.occurrences, List.cons_append, List.cons_append]
  exact .whole hspan (.of_introduced rfl rfl hvar.standsIn) ((hparts.wider (hs.here_le (.advance s))).later hs₃ h₄)
    (by simp [Node.nodes, Stmt.nodes]) rfl rfl rfl

theorem parseWhile_lies (hblock : BlockLies B code block) (hkind : s.current.kind ≠ .eof)
    (hs : s.Sound B code) : Reaches False B code s (StmtLies B code s.here) (parseWhile gas block s) := by
  refine .step (.bind (parseCondition_lies _ hs.current_valid hs.advance) ?_)
  intro condition s₂ h₂ hs₂ hcondition
  refine .bind (hblock.reads _ s₂ hs₂) fun body s₃ h₃ hs₃ hbody => ?_
  refine .bind (closeBlock_lies _ hs hkind (h₂.trans h₃) hs₃) fun stop s₄ h₄ hs₄ hspan => .pure hs₄ ?_
  have hparts := hcondition.placed.append h₃ hbody
  rw [StmtLies, Stmt.nodes, Stmt.occurrences, List.cons_append]
  exact .whole hspan (.bare rfl rfl rfl) ((hparts.wider (hs.here_le (.advance s))).later hs₃ h₄)
    (by simp [Node.nodes, Stmt.nodes]) rfl rfl rfl

theorem parseDoUntil_lies (hblock : BlockLies B code block) (hkind : s.current.kind ≠ .eof)
    (hs : s.Sound B code) : Reaches False B code s (StmtLies B code s.here) (parseDoUntil gas block s) := by
  have hkeyword := hs.current_between (.refl _)
  refine .step (.bind (hblock.reads _ _ hs.advance) fun body s₂ h₂ hs₂ hbody => ?_)
  replace hbody : StmtsLie B code s.here body s₂ := hbody.wider hkeyword.le
  refine .read rfl (.ite (fun hword => .step ?_) (fun _ => ?_))
  · have huntil := hs₂.current_ended (kind_ne_of_isWord hword) (.refl _)
    refine .bind (parseCondition_lies _ hs₂.current_valid hs₂.advance) ?_
    intro condition s₄ h₄ hs₄ hcondition
    have hstop := Built.elim_span hcondition huntil
    have hmid := hs.here_le ((Extends.advance s).trans (h₂.trans (.advance s₂)))
    have hparts := hbody.append ((Extends.advance s₂).trans h₄) (hcondition.placed.wider huntil.le)
    refine .pure hs₄ ?_
    rw [StmtLies, Stmt.nodes, Stmt.occurrences, List.cons_append]
    refine .within (.join hkeyword (hstop.mono (hs.advance.here_le h₂) (Position.le_refl _)))
      (.bare rfl rfl rfl) ?_ hparts rfl rfl
    refine List.forall_mem_append.mpr ⟨List.forall_mem_map.mpr fun st hst => ?_,
      Built.encloses_elim hcondition _ hmid⟩
    have hspan := hbody.span hst
    refine ⟨hspan.lo_le, Position.le_trans hspan.le_hi ?_⟩
    exact Position.le_trans hstop.lo_le hstop.start_le
  · refine .bind (.report _ hs₂ hs.current_valid rfl) fun _ s₃ h₃ hs₃ _ => .read rfl (.pure hs₃ ?_)
    have hspan := hs.previous_whole (hs.rest_ne_nil hkind) (h₂.trans h₃) hs₃
    have hparts := hbody.append h₃ (Built.placed (OptionLies.none (hs₂.here_le h₃)))
    rw [StmtLies, Stmt.nodes, Stmt.occurrences, List.cons_append]
    exact .whole hspan (.bare rfl rfl rfl) hparts (by simp [Node.nodes, Stmt.nodes]) rfl rfl rfl

/-! Branches. -/

theorem parseGuard_lies {keyword : Token} (hkeyword : keyword.span.Valid B) (hs : s.Sound B code) :
    Reaches L B code s (OptionLies B code s.here) (parseGuard gas keyword s) := by
  refine .bind (parseExpression_lies gas 0 s hs) fun guard s₁ _ hs₁ hguard => ?_
  refine .ite (fun _ => ?_)
    (fun _ => .bind (.accepts rfl hs₁) fun _ _ h₂ hs₂ _ => .pure hs₂ (hguard.later hs₁ h₂))
  refine .bind (.report _ hs₁ hkeyword rfl) fun _ s₂ h₂ hs₂ _ => ?_
  refine .bind (.synchronize hs₂) fun _ s₃ h₃ hs₃ _ => ?_
  exact .bind (.accepts rfl hs₃) fun _ _ h₄ hs₄ _ => .pure hs₄ (hguard.later hs₁ (h₂.trans (h₃.trans h₄)))

/-- An `otherwise` between two places, behind some cases. -/
structure OtherwiseBehind (code : Code) (lo hi : Position) (before : List (Branch Stmt)) (t : Token) : Prop where
  mem : t ∈ code.tokens
  kind : t.kind = .keyword .otherwiseBranch
  lo_le : lo ≤ t.span.start
  start_le : t.span.start ≤ t.span.stop
  le_hi : t.span.stop ≤ hi
  behind : ∀ branch ∈ before, branch.span.stop ≤ t.span.start

/-- The cases of a switch lie in front of its last `otherwise` or behind it. -/
def SwitchLies (B : Position → Prop) (code : Code) (lo : Position)
    (branches : List (Branch Stmt) × Option (List Stmt)) (s : State) : Prop :=
  ∃ s₁ s₂ before after, branches.1 = before ++ after ∧ Extends s₁ s₂ ∧ Extends s₂ s ∧
    BranchesLie B code lo before s₁ ∧ StmtsLie B code s₁.here (branches.2.getD []) s₂ ∧
      BranchesLie B code s₂.here after s ∧
      (branches.2.getD [] ≠ [] → ∃ t, OtherwiseBehind code lo s₁.here before t)

namespace SwitchLies

variable {cases : List (Branch Stmt)} {otherwise : Option (List Stmt)}

theorem nil (s : State) : SwitchLies B code s.here ([], none) s :=
  ⟨s, s, [], [], rfl, .refl s, .refl s, .nil (Position.le_refl _), .nil (Position.le_refl _),
    .nil (Position.le_refl _), absurd rfl⟩

theorem later (h : SwitchLies B code lo (cases, otherwise) s) (hs : s.Sound B code)
    (hextends : Extends s s') : SwitchLies B code lo (cases, otherwise) s' := by
  obtain ⟨s₁, s₂, before, after, heq, h₁, h₂, hbefore, hbody, hafter, htoken⟩ := h
  exact ⟨s₁, s₂, before, after, heq, h₁, h₂.trans hextends, hbefore, hbody, hafter.later hs hextends, htoken⟩

theorem addCase (h : SwitchLies B code lo (cases, otherwise) s) (hextends : Extends s s')
    {branch : Branch Stmt} (hbranch : BranchesLie B code s.here [branch] s') :
    SwitchLies B code lo (cases ++ [branch], otherwise) s' := by
  obtain ⟨s₁, s₂, before, after, heq, h₁, h₂, hbefore, hbody, hafter, htoken⟩ := h
  refine ⟨s₁, s₂, before, after ++ [branch], ?_, h₁, h₂.trans hextends, hbefore, hbody,
    hafter.append hextends hbranch, htoken⟩
  rw [← List.append_assoc, ← heq]

/-- A new `otherwise` takes the place of the one before. -/
theorem setOtherwise (h : SwitchLies B code lo (cases, otherwise) s) (hs : s.Sound B code)
    (hkind : s.current.kind = .keyword .otherwiseBranch) (hextends : Extends (advance s).2 s')
    {body : List Stmt} (hbody : StmtsLie B code (advance s).2.here body s') :
    SwitchLies B code lo (cases, some body) s' := by
  obtain ⟨s₁, s₂, before, after, rfl, h₁, h₂, hbefore, hold, hafter, -⟩ := h
  have hcases : BranchesLie B code lo (before ++ after) s := hbefore.append (h₁.trans h₂) (hafter.wider hold.le)
  have htoken := hs.current_between (.refl _)
  have hrest := hs.rest_ne_nil (by rw [hkind]; exact nofun)
  refine ⟨(advance s).2, s', before ++ after, [], (List.append_nil _).symm, hextends, .refl s',
    hcases.later hs (.advance s), hbody, .nil (Position.le_refl _), fun _ => ⟨s.current, ?_⟩⟩
  exact ⟨hs.current_mem_tokens hrest, hkind, hcases.le, htoken.start_le, htoken.le_hi,
    fun branch hbranch => (hcases.span hbranch).le_hi⟩

/-- Where the cases come first, none of them lies behind the statements of `otherwise`. -/
theorem sorted (h : SwitchLies B code lo (cases, otherwise) s)
    (hfirst : ∀ branch ∈ cases, ∀ st ∈ otherwise.getD [], ¬st.span.start ≤ branch.span.start)
    (hcases : ∀ n ∈ branchNodes cases, n.CasesFirst)
    (hbody : ∀ n ∈ stmtNodes (otherwise.getD []), n.CasesFirst) :
    (branchOccurrences cases ++ stmtOccurrences (otherwise.getD [])).Pairwise Occurrence.Before := by
  obtain ⟨s₁, s₂, before, after, rfl, h₁, h₂, hbefore, hstmts, hafter, -⟩ := h
  by_cases hempty : otherwise.getD [] = []
  · rw [hempty, stmtOccurrences, List.append_nil]
    exact (hbefore.append (h₁.trans h₂) (hafter.wider hstmts.le)).sorted hcases
  · obtain ⟨st, hst⟩ := List.exists_mem_of_ne_nil _ hempty
    have hspan := hstmts.span hst
    obtain rfl : after = [] := by
      refine List.eq_nil_iff_forall_not_mem.mpr fun branch hbranch =>
        hfirst branch (List.mem_append_right _ hbranch) st hst ?_
      calc st.span.start ≤ st.span.stop := hspan.start_le
        _ ≤ s₂.here := hspan.le_hi
        _ ≤ branch.span.start := (hafter.span hbranch).lo_le
    rw [List.append_nil] at hcases ⊢
    exact (Built.append hbefore h₁ hstmts).sorted (List.forall_mem_append.mpr ⟨hcases, hbody⟩)

/-- The statements behind an `otherwise` of the switch stand behind that token. -/
theorem otherwiseAt {subject : Option Expr} {span : Span} (h : SwitchLies B code s₁.here (cases, otherwise) s)
    (hspan : span.Whole B code lo s.here) (hsubject : OptionLies B code lo subject s₁) :
    ∀ st ∈ otherwise.getD [], ∃ t, (Node.stmt (.switch subject cases otherwise span)).OtherwiseAt code t ∧
      t.span.start ≤ st.span.start := by
  intro st hst
  obtain ⟨s₂, s₃, before, after, rfl, h₂, h₃, hbefore, hbody, hafter, htoken⟩ := h
  obtain ⟨t, ht⟩ := htoken (List.ne_nil_of_mem hst)
  have hbehind {st : Stmt} (hst : st ∈ otherwise.getD []) : t.span.stop ≤ st.span.start :=
    Position.le_trans ht.le_hi (hbody.span hst).lo_le
  have hafter_le {branch : Branch Stmt} (hbranch : branch ∈ after) : t.span.stop ≤ branch.span.start :=
    Position.le_trans ht.le_hi (Position.le_trans hbody.le (hafter.span hbranch).lo_le)
  refine ⟨t, ⟨List.mem_append_left _ ht.mem, ht.kind, ⟨?_, ?_⟩, ?_⟩, Position.le_trans ht.start_le (hbehind hst)⟩
  · exact hspan.start_eq ▸ Position.le_trans hsubject.le ht.lo_le
  · exact hspan.covers _ ⟨t, ht.mem, rfl⟩ (Position.le_trans ht.le_hi (Position.le_trans hbody.le hafter.le))
  · simp only [Node.parts, List.forall_mem_append, List.forall_mem_map]
    refine ⟨⟨fun e he => .inl ?_, fun branch hbranch => .inl (ht.behind branch hbranch),
      fun branch hbranch => .inr (hafter_le hbranch)⟩, fun st hst => .inr (hbehind hst)⟩
    rw [Option.mem_toList] at he
    subst he
    exact Position.le_trans (ExprLies.span hsubject).le_hi ht.lo_le

end SwitchLies

theorem StmtLies.switch {subject : Option Expr} {cases : List (Branch Stmt)}
    {otherwise : Option (List Stmt)} {span : Span} (hspan : span.Whole B code lo s.here)
    (hsubject : OptionLies B code lo subject s₁) (hextends : Extends s₁ s)
    (h : SwitchLies B code s₁.here (cases, otherwise) s) :
    StmtLies B code lo (.switch subject cases otherwise span) s := by
  obtain ⟨s₂, s₃, before, after, heq, h₂, h₃, hbefore, hbody, hafter, -⟩ := id h
  dsimp only at heq hbody
  have hbranches := (Built.append hbefore h₂ hbody).append h₃ hafter
  have hparts := hsubject.placed.append hextends hbranches
  have hperm : (branchNodes before ++ stmtNodes (otherwise.getD []) ++ branchNodes after).Perm
      (branchNodes cases ++ stmtNodes (otherwise.getD [])) := by
    rw [heq, branchNodes_append, List.append_assoc, List.append_assoc]
    exact List.perm_append_comm.append_left _
  have hnodes := Stmt.nodes_switch subject cases otherwise span
  rw [List.append_assoc] at hnodes
  have hsubset := List.Subset.trans (Node.parts_subset (n := .stmt (.switch subject cases otherwise span)) hnodes)
    (hperm.symm.append_left _).subset
  rw [StmtLies, hnodes, Stmt.occurrences_switch, List.append_assoc]
  refine (Lies.node (by simp [Node.place?]) (n := .stmt (.switch subject cases otherwise span)) hspan.toBetween
    ⟨⟨List.forall_mem_nil _, fun _ he => absurd he (Option.not_mem_none _), h.otherwiseAt hspan hsubject⟩,
      hparts.formed hspan hsubset rfl (Node.forall_name _ rfl) trivial⟩
    hparts).reorder (.cons _ (hperm.append_left _)) ?_ fun hcases => ?_
  · intro o ho
    simp only [heq, branchOccurrences_append, List.mem_append] at ho ⊢
    tauto
  · rw [List.forall_mem_cons, List.forall_mem_append, List.forall_mem_append] at hcases
    obtain ⟨hfirst, hsubjectCases, hbranchCases, hbodyCases⟩ := hcases
    refine List.pairwise_append.mpr ⟨hsubject.sorted hsubjectCases,
      h.sorted hfirst hbranchCases hbodyCases, fun o ho o' ho' => ?_⟩
    have hbehind := hbranches.names o' (by
      simp only [heq, branchOccurrences_append, List.mem_append] at ho' ⊢
      tauto)
    exact Position.le_trans (hsubject.names o ho).le_hi hbehind.lo_le

theorem parseBranches_lie (hblock : BlockLies B code block) (exprGas gas : Nat)
    {cases : List (Branch Stmt)} {otherwise : Option (List Stmt)}
    (h : SwitchLies B code lo (cases.reverse, otherwise) s) (hs : s.Sound B code) :
    Reaches False B code s (SwitchLies B code lo) (parseBranches exprGas block gas cases otherwise s) := by
  induction gas generalizing s cases otherwise with
  | zero => exact .outOfGas hs (h.later hs (.fault _ s))
  | succ gas ih =>
    refine .bind (.skipUntil False.elim hs) fun _ s₁ h₁ hs₁ _ => .read rfl ?_
    have hhere := h.later hs h₁
    have hbad : Reaches False B code s₁ (SwitchLies B code lo)
        ((advance >>= fun _ => report (.ofToken s₁.current) s₁.current.span >>= fun _ =>
          synchronize >>= fun _ => parseBranches exprGas block gas cases otherwise) s₁) :=
      .step (.bind (.report _ hs₁.advance hs₁.current_valid (Problem.isOpenString_ofToken _)) fun _ s₃ h₃ hs₃ _ =>
        .bind (.synchronize hs₃) fun _ _ h₄ hs₄ _ =>
          ih (hhere.later hs₁ ((Extends.advance s₁).trans (h₃.trans h₄))) hs₄)
    cases hkind : s₁.current.kind with
    | keyword word =>
      have hrest := hs₁.rest_ne_nil (by rw [hkind]; exact nofun)
      cases word with
      | caseBranch =>
        refine .step (.bind (parseGuard_lies hs₁.current_valid hs₁.advance) ?_)
        intro guard s₃ h₃ hs₃ hguard
        refine .bind (hblock.reads _ s₃ hs₃) fun body s₄ h₄ hs₄ hbody => .read rfl (ih ?_ hs₄)
        have hspan := hs₁.previous_whole hrest (h₃.trans h₄) hs₄
        rw [List.reverse_cons]
        exact hhere.addCase ((Extends.advance s₁).trans (h₃.trans h₄))
          (.singleton hspan (hguard.wider (hs₁.here_le (.advance s₁))) h₄ hbody)
      | otherwiseBranch =>
        refine .step (.bind (hblock.reads _ _ hs₁.advance) fun body s₃ h₃ hs₃ hbody => ih ?_ hs₃)
        exact hhere.setOtherwise hs₁ hkind h₃ hbody
      | endAny | endSwitch => exact .pure hs₁ hhere
      | _ => exact hbad
    | eof => exact .pure hs₁ hhere
    | _ => exact hbad

theorem parseSwitch_lies (hblock : BlockLies B code block) (hkind : s.current.kind ≠ .eof)
    (hs : s.Sound B code) : Reaches False B code s (StmtLies B code s.here) (parseSwitch gas block s) := by
  refine .step (.bind (parseCondition_lies _ hs.current_valid hs.advance) ?_)
  intro subject s₂ h₂ hs₂ hsubject
  refine .bind (parseBranches_lie hblock gas gas (.nil s₂) hs₂) fun branches s₃ h₃ hs₃ hbranches => ?_
  refine .bind (closeBlock_lies _ hs hkind (h₂.trans h₃) hs₃) fun stop s₄ h₄ hs₄ hspan => .pure hs₄ ?_
  exact .switch hspan (hsubject.wider (hs.here_le (.advance s))) (h₃.trans h₄) (hbranches.later hs₃ h₄)

theorem parseErrorVariable_lies (keyword : Token) (hs : s.Sound B code) :
    Reaches L B code s (fun errorVar => VariablesLie B code s.here errorVar.toList)
      (parseErrorVariable keyword s) := by
  have hnil : VariablesLie B code s.here [] s := .nil (Position.le_refl _)
  refine .read rfl (.read rfl (.ite (fun hname => ?_) (fun _ => .pure hs hnil)))
  simp only [Bool.and_eq_true] at hname
  refine .next (kind_ne_newline_of_isName hname.1.1) ?_
  exact .pure hs.advance (VariablesLie.add hnil hs hname.1.1 (.refl _))

/-- What follows `catch`: the variable stands before the statements. -/
def CatchLies (B : Position → Prop) (code : Code) (lo : Position)
    (handler : Option Variable × List Stmt) (s : State) : Prop :=
  ∃ s₁, Extends s₁ s ∧ VariablesLie B code lo handler.1.toList s₁ ∧ StmtsLie B code s₁.here handler.2 s

theorem parseCatch_lies (hblock : BlockLies B code block) (hs : s.Sound B code) :
    Reaches False B code s (CatchLies B code s.here) (parseCatch block s) := by
  refine .read rfl (.ite (fun _ => .step ?_) (fun _ => .pure hs ?_))
  · refine .bind (parseErrorVariable_lies _ hs.advance) fun errorVar s₂ _ hs₂ hvar => ?_
    refine .bind (hblock.reads _ s₂ hs₂) fun body s₃ h₃ hs₃ hbody => .pure hs₃ ⟨s₂, h₃, ?_, hbody⟩
    exact hvar.wider (hs.here_le (.advance s))
  · exact ⟨s, .refl s, .nil (Position.le_refl _), .nil (Position.le_refl _)⟩

theorem parseTry_lies (hblock : BlockLies B code block) (hkind : s.current.kind ≠ .eof)
    (hs : s.Sound B code) : Reaches False B code s (StmtLies B code s.here) (parseTry block s) := by
  refine .step (.bind (.accepts rfl hs.advance) fun _ s₂ h₂ hs₂ _ => ?_)
  refine .bind (hblock.reads _ s₂ hs₂) fun body s₃ h₃ hs₃ hbody => ?_
  refine .bind (parseCatch_lies hblock hs₃) fun handler s₄ h₄ hs₄ ⟨s₁, h₁, hvar, hhandler⟩ => ?_
  have hto₄ := h₂.trans (h₃.trans h₄)
  refine .bind (closeBlock_lies _ hs hkind hto₄ hs₄) fun stop s₅ h₅ hs₅ hspan => .pure hs₅ ?_
  have hparts := Built.append hbody h₄ (Built.append hvar h₁ hhandler)
  rw [← List.append_assoc, ← List.append_assoc] at hparts
  rw [StmtLies, Stmt.nodes, Stmt.occurrences, List.cons_append, List.cons_append]
  exact .whole hspan (.of_introduced rfl rfl hvar.standsIn)
    ((hparts.wider (hs.here_le ((Extends.advance s).trans h₂))).later hs₄ h₅)
    (by simp [Node.nodes, Stmt.nodes]) rfl rfl rfl

/-! Functions. -/

def OutputsLie (B : Position → Prop) (code : Code) (lo : Position) (outputs : List Output) (s : State) :
    Prop :=
  ItemsLie B code lo Output.toExpr Output.occurrences outputs s

theorem OutputsLie.standsIn {outputs : List Output} (h : OutputsLie B code lo outputs s)
    {output : Output} (houtput : output ∈ outputs) {v : Variable}
    (hv : Collection.outputVariable? output = some v) : v.StandsIn code.all := by
  cases output with
  | ignored span => contradiction
  | _ v' =>
    cases hv
    exact ItemsLie.standsIn h houtput rfl

theorem parseOutputsFrom_lie (gas : Nat) {outputs : List Output}
    (h : OutputsLie B code lo outputs.reverse s) (hs : s.Sound B code) :
    Reaches L B code s (OutputsLie B code lo) (parseOutputsFrom gas outputs s) := by
  induction gas generalizing s outputs with
  | zero => exact .outOfGas hs (h.later hs (.fault _ s))
  | succ gas ih =>
    have hs₁ := hs.advance
    have hmore (output : Output)
        (houtput : Built (Node.Placed code) B code s.here output.toExpr.nodes output.occurrences (advance s).2) :
        OutputsLie B code lo (output :: outputs).reverse (advance s).2 := by
      rw [List.reverse_cons]
      exact ItemsLie.concat h (.advance s) houtput
    have hgo {s' : State} (h' : Extends (advance s).2 s') (hs' : s'.Sound B code) :=
      ih (h.later hs ((Extends.advance s).trans h')) hs'
    have hbad : Reaches L B code (advance s).2 (OutputsLie B code lo)
        ((report (.inOutputs s.current.text) s.current.span >>= fun _ =>
          parseOutputsFrom gas outputs) (advance s).2) :=
      .bind (.report _ hs₁ hs.current_valid rfl) fun _ _ h₂ hs₂ _ => hgo h₂ hs₂
    refine .ite (fun _ => .pure hs h) (fun hend => .next (fun hkind => hend (congrArg isOutputsEnd hkind)) ?_)
    cases hkind : s.current.kind with
    | identifier | native =>
      have hname : s.current.isName = true := by rw [Token.isName, hkind]; rfl
      have htoken := hs.current_ended (Token.kind_ne_of_isName hname) (.refl _)
      exact ih (hmore (.variable ⟨s.current.text, s.current.span⟩)
        (.variable (hs.current_standsIn hname) htoken (hs.not_le_name hname (.refl _)))) hs₁
    | sign sign =>
      cases sign with
      | tilde | bang =>
        have htoken := hs.current_ended (by simp [hkind]) (.refl _)
        exact ih (hmore (.ignored s.current.span) (.ignored htoken)) hs₁
      | comma => exact hgo (.refl _) hs₁
      | _ => exact hbad
    | _ => exact hbad

theorem parseOutputs_lie (hkind : s.current.kind ≠ .newline) (hs : s.Sound B code) :
    Reaches L B code s (OutputsLie B code s.here) (parseOutputs gas s) := by
  refine .next hkind (.bind (parseOutputsFrom_lie gas (.nil (hs.here_le (.advance s))) hs.advance) ?_)
  intro outputs s₂ h₂ hs₂ houtputs
  refine .bind (.expectSign _ _ hs₂ hs.current_valid rfl) fun _ s₃ h₃ hs₃ _ => ?_
  refine .bind (.accepts rfl hs₃) fun _ s₄ h₄ hs₄ _ => ?_
  refine .ite (fun _ => ?_) (fun _ => .pure hs₄ (houtputs.later hs₂ (h₃.trans h₄)))
  exact .bind (.reportHere _ hs₄ rfl) fun _ _ h₅ hs₅ _ =>
    .pure hs₅ (houtputs.later hs₂ (h₃.trans (h₄.trans h₅)))

def ParamsLie (B : Position → Prop) (code : Code) (lo : Position) (params : List Param) (s : State) : Prop :=
  ItemsLie B code lo Param.toExpr Param.occurrences params s

theorem ParamsLie.standsIn {params : List Param} (h : ParamsLie B code lo params s)
    {param : Param} (hparam : param ∈ params) {v : Variable} (hv : param.variable? = some v) :
    v.StandsIn code.all := by
  cases param with
  | ignored span => contradiction
  | plain v' =>
    cases hv
    exact ItemsLie.standsIn h hparam rfl
  | optional value =>
    cases hv
    have hnode : .expr (.named value) ∈ exprNodes (params.map Param.toExpr) :=
      mem_exprNodes.mpr ⟨_, List.mem_map_of_mem hparam, Expr.mem_nodes _⟩
    exact (Lies.nodes h _ hnode).2.1

/-- A parameter, if there is one. -/
def OptionParamLies (B : Position → Prop) (code : Code) (lo : Position) (param : Option Param) (s : State) :
    Prop :=
  ∀ p ∈ param, Built (Node.Placed code) B code lo p.toExpr.nodes p.occurrences s

theorem parseNamedParam_lies {name : Token}
    (hstands : Variable.StandsIn code.all ⟨name.text, name.span⟩) (hname : name.span.Ended B code lo s.here)
    (hplace : ¬s.here ≤ name.span.start) (hs : s.Sound B code) :
    Reaches L B code s (fun p => Built (Node.Placed code) B code lo p.toExpr.nodes p.occurrences)
      (parseNamedParam gas name s) := by
  refine .ite (fun hequals => .next (kind_ne_newline_of_is hequals) ?_)
    (fun _ => .pure hs (.variable hstands hname hplace))
  refine .bind (parseExpression_lies gas 0 _ hs.advance) fun value s₂ h₂ hs₂ hvalue => ?_
  refine .bind (.expectValue value _ hs₂ hs.current_valid rfl) fun _ s₃ h₃ hs₃ _ => .pure hs₃ ?_
  exact .named hstands hname.toBetween (hs.current_ended (kind_ne_of_sign hequals) (.refl _))
    (hvalue.later hs₂ h₃) (fun _ hn => hn.placed) (by simp [Variable.occurrences])

theorem parseParam_lies (hmore : s.current.kind ≠ .newline) (hs : s.Sound B code) :
    Reaches L B code s (OptionParamLies B code s.here) (parseParam gas s) := by
  have hs₁ := hs.advance
  have hbad : Reaches L B code (advance s).2 (OptionParamLies B code s.here)
      ((report (.invalidParameter s.current.text) s.current.span >>= fun _ =>
        (pure none : Parser (Option Param))) (advance s).2) :=
    .bind (.report _ hs₁ hs.current_valid rfl) fun _ _ _ hs₂ _ => .pure hs₂ nofun
  refine .next hmore ?_
  cases hkind : s.current.kind with
  | identifier | native =>
    have hname : s.current.isName = true := by rw [Token.isName, hkind]; rfl
    have htoken := hs.current_ended (Token.kind_ne_of_isName hname) (.refl _)
    have hplace := hs.not_le_name hname (.refl _)
    refine .map (parseNamedParam_lies (hs.current_standsIn hname) htoken hplace hs₁) fun p _ hp x hx => ?_
    exact Option.some.inj hx ▸ hp
  | sign sign =>
    cases sign with
    | tilde | bang =>
      refine .pure hs₁ fun x hx => ?_
      exact Option.some.inj hx ▸ Built.ignored (hs.current_ended (by simp [hkind]) (.refl _))
    | _ => exact hbad
  | _ => exact hbad

theorem parseParamEnd_keeps (hs : s.Sound B code) :
    Reaches L B code s (fun _ _ => True) (parseParamEnd s) := by
  refine .bind (.accepts rfl hs) fun _ s₁ _ hs₁ _ => .ite (fun _ => .pure hs₁ trivial) (fun _ => ?_)
  refine .ite (fun _ => .pure hs₁ trivial) (fun hend => .next (fun hkind => ?_) ?_)
  · simp [hkind, isNewlineOrEnd] at hend
  · exact .mono (.report _ hs₁.advance hs₁.current_valid rfl) fun _ _ _ => trivial

theorem parseParamsFrom_lie (exprGas : Nat) {openSpan : Span} (hopen : openSpan.Valid B) (gas : Nat)
    {params : List Param} (h : ParamsLie B code lo params.reverse s) (hs : s.Sound B code) :
    Reaches L B code s (ParamsLie B code lo) (parseParamsFrom exprGas openSpan gas params s) := by
  induction gas generalizing s params with
  | zero => exact .outOfGas hs (h.later hs (.fault _ s))
  | succ gas ih =>
    refine .bind (.accepts rfl hs) fun _ s₁ h₁ hs₁ _ => ?_
    have hlater : ParamsLie B code lo params.reverse s₁ := h.later hs h₁
    refine .ite (fun _ => .pure hs₁ hlater) (fun _ => .ite (fun _ => ?_) (fun hend => ?_))
    · exact .bind (.report _ hs₁ hopen rfl) fun _ _ h₂ hs₂ _ => .pure hs₂ (hlater.later hs₁ h₂)
    · have hkind := kind_ne_newline_of_more (Bool.eq_false_iff.mpr hend)
      refine .bind (parseParam_lies hkind hs₁) fun param s₂ h₂ hs₂ hparam => ?_
      cases param with
      | none => exact ih (hlater.later hs₁ h₂) hs₂
      | some param =>
        refine .bind (parseParamEnd_keeps hs₂) fun _ s₃ h₃ hs₃ _ => ih ?_ hs₃
        have hadded := hlater.concat h₂ (hparam param rfl)
        rw [List.reverse_cons]
        exact hadded.later hs₂ h₃

theorem parseParams_lie (hs : s.Sound B code) :
    Reaches L B code s (ParamsLie B code s.here) (parseParams gas s) := by
  refine .ite (fun hopen => .next (kind_ne_newline_of_is hopen) ?_) (fun _ => .pure hs (.nil (Position.le_refl _)))
  exact parseParamsFrom_lie gas hs.current_valid gas (.nil (hs.here_le (.advance s))) hs.advance

theorem parseHeaderOutputs_lie (hs : s.Sound B code) :
    Reaches L B code s (OutputsLie B code s.here) (parseHeaderOutputs gas s) := by
  refine .ite (fun hopen => parseOutputs_lie (kind_ne_newline_of_is hopen) hs) (fun _ => .read rfl (.read rfl ?_))
  refine .ite (fun hname => ?_) (fun _ => .pure hs (.nil (Position.le_refl _)))
  have hnone : OutputsLie B code s.here [] s := .nil (Position.le_refl _)
  obtain ⟨hname, hequals⟩ := Bool.and_eq_true_iff.mp hname
  rw [← advance_current] at hequals
  refine .next (kind_ne_newline_of_isName hname) (.next (kind_ne_newline_of_is hequals) ?_)
  refine .pure hs.advance.advance (ItemsLie.concat hnone ((Extends.advance s).trans (.advance _)) ?_)
  exact .variable (hs.current_standsIn hname) (hs.current_ended (Token.kind_ne_of_isName hname) (.advance _))
    (hs.not_le_name hname (.advance _))

/-- The name of a function takes place between its outputs and its parameters. Without a name the keyword
stands for it, which is at the place `first`. -/
structure FunctionNameLies (B : Position → Prop) (code : Code) (first lo : Position) (name : Variable)
    (s : State) : Prop where
  ended : name.span.Ended B code first s.here
  stands : name.name.isEmpty = true ∨
    name.StandsIn code.all ∧ lo ≤ name.span.start ∧ ¬s.here ≤ name.span.start
  names : Built (Node.Placed code) B code lo [] (if name.name.isEmpty then [] else name.occurrences) s

theorem parseFunctionName_lies {keyword : Token} {first : Position}
    (hkeyword : keyword.span.Ended B code first s.here) (hs : s.Sound B code) :
    Reaches L B code s (FunctionNameLies B code first s.here) (parseFunctionName keyword s) := by
  refine .read rfl (.ite (fun hname => .next (kind_ne_newline_of_isName hname) ?_) (fun _ => ?_))
  · have htoken := hs.current_ended (Token.kind_ne_of_isName hname) (.refl _)
    refine .pure hs.advance ⟨htoken.mono hkeyword.le (Position.le_refl _),
      .inr ⟨hs.current_standsIn hname, htoken.lo_le, hs.not_le_name hname (.refl _)⟩, ?_⟩
    split_ifs
    · exact .nil htoken.le
    · refine Lies.at_span htoken.toValid htoken.lo_le (Position.le_trans htoken.start_le htoken.le_hi) ?_
      simp [Variable.occurrences]
  · refine .bind (.report _ hs hkeyword.toValid rfl) fun _ _ h₁ hs₁ _ => .pure hs₁ ⟨?_, .inl rfl, ?_⟩
    · exact hkeyword.mono (Position.le_refl _) (hs.here_le h₁)
    · exact .nil (hs.here_le h₁)

/-- The first line of a function, behind its keyword at the place `first`. -/
structure HeaderLies (B : Position → Prop) (code : Code) (first lo : Position) (header : FunctionHeader)
    (s : State) : Prop where
  nameSpan : header.nameSpan.Ended B code first s.here
  names : ∀ v ∈ (Stmt.function header [] .zero "" true).introduced, v.StandsIn code.all
  parts : Built (Node.Placed code) B code lo (exprNodes (header.outputs.map Output.toExpr) ++
    exprNodes (header.params.map Param.toExpr)) header.occurrences s
  name : header.name.isEmpty = false → header.NameStands lo s.here

theorem parseHeader_lies {keyword : Token} {first : Position}
    (hkeyword : keyword.span.Ended B code first s.here) (hs : s.Sound B code) :
    Reaches L B code s (HeaderLies B code first s.here) (parseHeader gas keyword s) := by
  refine .bind (parseHeaderOutputs_lie hs) fun outputs s₁ h₁ hs₁ houtputs => ?_
  have hkeyword₁ := hkeyword.mono (Position.le_refl _) (hs.here_le h₁)
  refine .bind (parseFunctionName_lies hkeyword₁ hs₁) fun name s₂ h₂ hs₂ hname => ?_
  refine .bind (parseParams_lie hs₂) fun params s₃ h₃ hs₃ hparams => .pure hs₃ ⟨?_, ?_, ?_, ?_⟩
  · exact hname.ended.mono (Position.le_refl _) (hs₂.here_le h₃)
  · refine List.forall_mem_append.mpr ⟨List.forall_mem_append.mpr ⟨fun v hv => ?_, ?_⟩, fun v hv => ?_⟩
    · obtain ⟨output, houtput, hvar⟩ := List.mem_filterMap.mp hv
      exact OutputsLie.standsIn houtputs houtput hvar
    · split_ifs with hempty
      · exact List.forall_mem_nil _
      · exact List.forall_mem_singleton.mpr (hname.stands.resolve_left hempty).1
    · obtain ⟨param, hparam, hvar⟩ := List.mem_filterMap.mp hv
      exact ParamsLie.standsIn hparams hparam hvar
  · have hall := (Built.append houtputs h₂ hname.names).append h₃ hparams
    rwa [List.append_nil] at hall
  · intro hempty
    obtain ⟨_, hlo, hhi⟩ := hname.stands.resolve_left (Bool.eq_false_iff.mp hempty)
    refine ⟨Position.le_trans (Lies.le houtputs) hlo, fun hle => hhi (Position.le_trans (Lies.le hparams) hle),
      List.forall_mem_append.mpr ⟨fun n hn hp => ?_, fun n hn hp => ?_⟩⟩
    · exact (Lies.places houtputs n hn _ hp).2 hlo
    · exact hhi (Lies.places hparams n hn _ hp).1

theorem finishHeader_keeps (hs : s.Sound B code) :
    Reaches L B code s (fun _ _ => True) (finishHeader s) := by
  refine .read rfl (.ite (fun _ => .read rfl ?_) (fun _ => .pure hs trivial))
  exact .bind (.reportHere _ hs (Problem.isOpenString_ofToken _)) fun _ _ _ hs₁ _ => .synchronize hs₁

theorem StmtLies.function {header : FunctionHeader} {body : List Stmt} {documentation : String}
    {closed : Bool} {span : Span} {mid : Position} (hs₁ : s₁.Sound B code) (hlo : lo ≤ mid)
    (hheader : HeaderLies B code lo mid header s₁) {s₂ : State} (h₂ : Extends s₁ s₂)
    (hbody : StmtsLie B code s₂.here body s) (hextends : Extends s₂ s)
    (hspan : span.Whole B code lo s.here)
    (hdocumented : (Node.stmt (.function header body span documentation closed)).Documented code
      (s.faults ≠ [])) :
    StmtLies B code lo (.function header body span documentation closed) s := by
  have hparts := ((hheader.parts.wider hlo).later hs₁ h₂).append hextends hbody
  rw [StmtLies, Stmt.nodes, Stmt.occurrences, List.cons_append, List.cons_append]
  refine Lies.node (fun p hp => ?_) hspan.toBetween ⟨.of_introduced rfl rfl hheader.names, hparts.formed hspan
    (Node.parts_subset (by simp [Node.nodes, Stmt.nodes])) rfl ?_ hdocumented⟩ hparts
  · obtain ⟨hempty, hp⟩ := Option.ite_none_left_eq_some.mp hp
    obtain rfl := Option.some.inj hp
    obtain ⟨hfirst, hmid, hapart⟩ :=
      (hheader.name (by simpa using hempty)).mono hlo (hs₁.here_le h₂)
    refine ⟨hfirst, fun hhi => hmid (Position.le_trans hbody.le hhi), ?_⟩
    exact List.forall_mem_append.mpr ⟨hapart, fun n hn hp => hmid (Lies.places hbody n hn _ hp).1⟩
  · rintro _ ⟨⟩
    have hnameSpan := hheader.nameSpan
    refine ⟨?_, hspan.covers _ hnameSpan.ends (Position.le_trans hnameSpan.le_hi ?_)⟩
    · exact hspan.start_eq ▸ hnameSpan.lo_le
    · exact Position.le_trans (hs₁.here_le h₂) hbody.le

theorem skipUntil_current (p : Token.Kind → Bool) (s : State) :
    (skipUntil p s).2.rest = [] ∨ p (skipUntil p s).2.current.kind = true := by
  cases hrest : (skipUntil p s).2.rest with
  | nil => exact .inl rfl
  | cons t ts =>
    have hhead := skipUntil_rest p s
    rw [hrest] at hhead
    have hstops := List.head?_dropWhile_not (fun x : Token => !p x.kind) s.rest
    rw [← hhead] at hstops
    rw [State.current, hrest]
    exact .inr (by simpa using hstops)

theorem parseStatements_halts {statement : Parser (Option Stmt)} {ends : List Keyword} (gas count : Nat)
    (done : List Stmt) (s : State) : let s' := (parseStatements statement ends gas count done s).2
    s'.faults ≠ [] ∨ s'.rest = [] ∨ isSeparator s'.current.kind = false := by
  induction gas generalizing count done s with
  | zero => exact .inl (List.cons_ne_nil _ _)
  | succ gas ih =>
    have hskip := skipUntil_current (fun kind => !isSeparator kind) s
    rw [Bool.not_eq_true'] at hskip
    rw [parseStatements_succ]
    dsimp only
    split_ifs
    · exact .inr hskip
    · exact .inr hskip
    · exact ih _ _ _

theorem parseFunction_lies (hblock : BlockLies B code block)
    (hkind : s.current.kind = .keyword .function) (hs : s.Sound B code) :
    Reaches False B code s (StmtLies B code s.here) (parseFunction (.ofCode code) gas block s) := by
  have hne : s.current.kind ≠ .eof := by rw [hkind]; exact nofun
  have hrest := hs.rest_ne_nil hne
  have hkeyword := hs.current_ended hne (.refl _)
  refine .step (.run (parseHeader_lies hkeyword hs.advance) fun header s₂ hrun h₂ hs₂ hheader => ?_)
  refine .read rfl (.bind (finishHeader_keeps hs₂) fun _ s₃ h₃ hs₃ _ => ?_)
  refine .run (hblock.reads _ s₃ hs₃) fun body s₄ hrun₄ h₄ hs₄ hbody => ?_
  have hto₄ := h₂.trans (h₃.trans h₄)
  have hread (closed : Bool) (hlt : closed = true → s₄.pos < code.tokens.length) :
      header.ReadAt code ⟨s.here, (code.token (if closed then s₄.pos else s₄.pos - 1)).span.stop⟩ closed
        s.pos (s₂.pos - 1) s₄.pos := by
    have hpos₂ := h₂.pos_le
    have hpos₄ := (h₃.trans h₄).pos_le
    rw [advance_pos hrest] at hpos₂
    refine ⟨⟨?_, gas, (advance s).2, s₂, hs.advance.code_eq, advance_pos hrest, ?_, ?_⟩, ?_, ?_,
      hs₄.code_eq ▸ s₄.pos_le, hlt, ?_⟩
    · rw [← hs.current_eq, hkind]
    · rw [← hs.current_eq, hrun]
    · omega
    · omega
    · omega
    · rw [← hs.current_eq]
      rfl
  -- The function goes up to the last token, whether that closes it or not.
  have hdone {s' : State} (h' : Extends s₄ s') (hs' : s'.Sound B code) {closed : Bool}
      (hlt : closed = true → s₄.pos < code.tokens.length)
      (hlast : s'.previous.span.stop = (code.token (if closed then s₄.pos else s₄.pos - 1)).span.stop) :
      StmtLies B code s.here (.function header body ⟨s.here, s'.previous.span.stop⟩
        ((Layout.ofCode code).documentation s.current.span.start.line.toNat
          s₂.previous.span.stop.line.toNat) closed) s' := by
    refine .function hs₂ hkeyword.le hheader h₃ (hbody.later hs₄ h') (h₄.trans h')
      (hs.previous_whole hrest (hto₄.trans h') hs') ?_
    refine ⟨s.pos, s₂.pos - 1, s₄.pos, hlast ▸ hread closed hlt, ?_, ?_⟩
    · have hend := hblock.stops functionBodyEnds s₃
      rw [hrun₄] at hend
      rw [← hs₄.current_eq]
      refine hend.imp (fun hfaults hnone => hfaults (List.suffix_nil.mp (hnone ▸ h'.faults))) fun hend => ?_
      refine hend.elim (fun hnil => ?_) id
      have heof : s₄.current.kind = .eof := by_contra fun hkind => hs₄.rest_ne_nil hkind hnil
      rw [heof]
      rfl
    · rw [← hs.current_eq, ← hs₂.previous_eq]
  refine .read rfl (.ite (fun hword => .step ?_) (fun _ => ?_))
  · have hrest₄ := hs₄.rest_ne_nil (kind_ne_of_isWord hword)
    have hclose := advance_previous hrest₄
    rw [← hclose]
    refine .pure hs₄.advance (hdone (.advance s₄) hs₄.advance (fun _ => ?_) ?_)
    · by_contra hle
      exact hrest₄ (s₄.rest_eq.trans (List.drop_eq_nil_of_le (hs₄.code_eq ▸ Nat.not_lt.mp hle)))
    · rw [hclose, if_pos rfl, hs₄.current_eq]
  · refine .run (.report _ hs₄ hheader.nameSpan.toValid rfl) fun _ s₅ hrun₅ h₅ hs₅ _ => .read rfl ?_
    refine .pure hs₅ (hdone h₅ hs₅ nofun ?_)
    cases hrun₅
    exact congrArg (·.span.stop) hs₄.previous_eq

/-! All statements. -/

theorem Reaches.some_map {p : Parser Stmt} (h : Reaches L B code s (StmtLies B code s.here) (p s)) :
    Reaches L B code s (OptionStmtLies B code s.here) ((some <$> p) s) :=
  h.map fun _ _ hst => .some hst

theorem parseKeywordStatement_lies (hblock : BlockLies B code block)
    {word : Keyword} (hword : s.current.kind = .keyword word) (hs : s.Sound B code) :
    Reaches False B code s (OptionStmtLies B code s.here)
      (parseKeywordStatement (.ofCode code) gas block s.current word s) := by
  have hkind : s.current.kind ≠ .eof := by rw [hword]; exact nofun
  have hmore : isNewlineOrEnd s.current.kind = false := by rw [hword]; rfl
  cases word with
  | function => exact .some_map (parseFunction_lies hblock hword hs)
  | ifBlock => exact .some_map (parseIf_lies hblock hkind hs)
  | forLoop => exact .some_map (parseFor_lies hblock hkind hs)
  | whileLoop => exact .some_map (parseWhile_lies hblock hkind hs)
  | doBlock => exact .some_map (parseDoUntil_lies hblock hkind hs)
  | switchBlock => exact .some_map (parseSwitch_lies hblock hkind hs)
  | tryBlock => exact .some_map (parseTry_lies hblock hkind hs)
  | breakOut => exact .some_map (parseJump_lies .breakOut hmore hs)
  | continueOn => exact .some_map (parseJump_lies .continueOn hmore hs)
  | returnBack => exact .some_map (parseJump_lies .returnBack hmore hs)
  | global => exact .some_map (parseDeclaration_lies .global hmore hs)
  | persistent => exact .some_map (parseDeclaration_lies .persistent hmore hs)
  | _ =>
    exact .step (.bind (.report _ hs.advance hs.current_valid (Problem.isOpenString_ofToken _))
      fun _ _ _ hs₂ _ => .pure hs₂ .none)

theorem parseNameStatement_lies (hname : s.current.isName = true) (name : Token) (hs : s.Sound B code) :
    Reaches L B code s (OptionStmtLies B code s.here) (parseNameStatement gas name s) := by
  refine .read rfl (.ite (fun _ => parseAssignment_lies hname hs) (fun _ => ?_))
  refine .read rfl (.read rfl (.ite (fun _ => ?_) (fun _ => parseExpressionStatement_lies hs)))
  exact .some_map (parseCommand_lies hname hs)

theorem parseStatement_lies (hblock : BlockLies B code block)
    (hs : s.Sound B code) :
    Reaches False B code s (OptionStmtLies B code s.here) (parseStatement (.ofCode code) gas block s) := by
  refine .read rfl ?_
  cases hkind : s.current.kind with
  | keyword word => exact parseKeywordStatement_lies hblock hkind hs
  | sign sign =>
    cases sign with
    | openBracket =>
      refine .read rfl (.ite (fun _ => ?_) (fun _ => parseExpressionStatement_lies hs))
      exact .some_map (parseManyAssignment_lies hs)
    | _ => exact parseExpressionStatement_lies hs
  | identifier | native => exact parseNameStatement_lies (by rw [Token.isName, hkind]; rfl) _ hs
  | _ => exact parseExpressionStatement_lies hs

theorem parseNext_lies {statement : Parser (Option Stmt)}
    (h : Reaches False B code s (OptionStmtLies B code s.here) (statement s)) :
    Reaches False B code s (OptionStmtLies B code s.here) (parseNext statement s) := by
  refine .read rfl (.bind h fun st s₁ _ hs₁ hst => .read rfl ?_)
  refine .ite (fun _ => .step ?_) (fun _ => .pure hs₁ hst)
  refine .bind (.report _ hs₁.advance hs₁.current_valid (Problem.isOpenString_ofToken _))
    fun _ s₃ h₃ hs₃ _ => .pure hs₃ ?_
  exact hst.later hs₁ ((Extends.advance s₁).trans h₃)

theorem parseStatements_lie {statement : Parser (Option Stmt)} (ends : List Keyword)
    (hstatement : ∀ s, s.Sound B code → Reaches False B code s (OptionStmtLies B code s.here) (statement s))
    (gas count : Nat) {done : List Stmt} (h : StmtsLie B code lo done.reverse s)
    (hs : s.Sound B code) :
    Reaches False B code s (StmtsLie B code lo) (parseStatements statement ends gas count done s) := by
  induction gas generalizing s count done with
  | zero => exact .outOfGas hs (h.later hs (.fault _ s))
  | succ gas ih =>
    refine .bind (.skipUntil False.elim hs) fun _ s₁ h₁ hs₁ _ => .read rfl ?_
    have hlater : StmtsLie B code lo done.reverse s₁ := h.later hs h₁
    refine .ite (fun _ => .pure hs₁ hlater) (fun _ => .ite (fun _ => ?_) (fun _ => ?_))
    · exact .bind (.reportHere _ hs₁ rfl) fun _ _ h₂ hs₂ _ => .pure hs₂ (hlater.later hs₁ h₂)
    · refine .bind (parseNext_lies (hstatement s₁ hs₁)) fun st s₂ h₂ hs₂ hst => ?_
      cases st with
      | none => exact ih count (hlater.later hs₁ h₂) hs₂
      | some st =>
        refine ih (count + 1) ?_ hs₂
        rw [List.reverse_cons]
        exact hlater.concat h₂ (hst st rfl)

theorem parseBlock_lies (gas : Nat) : BlockLies B code (parseBlock (.ofCode code) gas) := by
  induction gas with
  | zero =>
    exact ⟨fun _ _ hs => .outOfGas hs (.nil (Position.le_refl _)), fun _ _ => .inl (List.cons_ne_nil _ _)⟩
  | succ gas ih =>
    refine ⟨fun ends s hs => ?_, fun _ _ => parseStatements_halts _ _ _ _⟩
    refine parseStatements_lie ends (fun s hs => ?_) (gas + 1) 0 (.nil (Position.le_refl _)) hs
    exact parseStatement_lies ih hs

/-- A program starts at the first of all places. -/
theorem parseProgram_lies (hlaid : code.LaidOut B) (hstart : B .start) (hfirst : ∀ p, B p → .start ≤ p)
    (gas : Nat) :
    Reaches False B code (.ofCode code) (fun p s => StmtsLie B code (State.ofCode code).here p.body s ∧
      p.span.Valid B ∧ (Node.program p).Nests s.Reports code.eof)
      (parseProgram (.ofCode code) gas (.ofCode code)) := by
  have hs : (State.ofCode code).Sound B code :=
    .ofCode hlaid
  refine .bind ((parseBlock_lies gas).reads [] (.ofCode code) hs) fun body s₁ _ hs₁ hbody => ?_
  refine .bind (.skipUntil False.elim hs₁) fun _ s₂ h₂ hs₂ _ => .read rfl (.pure hs₂ ⟨hbody.later hs₁ h₂, ?_, ?_⟩)
  · have hstop := hs₂.current_valid.stop
    exact ⟨hfirst _ hstop, hstart, hstop⟩
  · refine .of_encloses (List.forall_mem_map.mpr fun st hst => ?_) (Node.forall_name _ rfl)
    have hspan := hbody.span hst
    refine ⟨hfirst _ hspan.start, Position.le_trans hspan.le_hi ?_⟩
    exact Position.le_trans (hs₁.here_le h₂) hs₂.current_valid.start_le

end Parser

/-- The statements of a parsed program lie behind each other. The program and the problems in it have valid
spans. -/
theorem Parser.parse_lies {B : Position → Prop} {code : Code} (hlaid : code.LaidOut B) (hstart : B .start)
    (hfirst : ∀ p, B p → .start ≤ p) :
    (∃ lo hi, Lies B (Node.Placed code) lo hi (stmtNodes code.parse.program.body)
      (stmtOccurrences code.parse.program.body)) ∧
      code.parse.program.span.Valid B ∧ ∀ d ∈ code.parse.diagnostics,
        d.span.Valid B ∧ ∃ problem : Problem, d.code = problem.code := by
  obtain ⟨_, hsound, ⟨hbody, hspan, _⟩, _⟩ := parseProgram_lies hlaid hstart hfirst (code.tokens.length + 1)
  exact ⟨⟨_, _, hbody.imp fun _ hn => hn.1⟩, hspan,
    fun d hd => hsound.diagnostics d (Array.mem_toList_iff.mp hd)⟩

end MatrixScript
