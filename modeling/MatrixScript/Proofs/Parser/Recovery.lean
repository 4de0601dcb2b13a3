import MatrixScript.Proofs.Parser.SwitchAccounts

/-! What becomes of a keyword `function` that has no other code before it on its line.

Statements with blocks give way to it: whatever is wrong with the code before it, the keyword is still to be
read behind the statement, or the tree has taken it. Two statements read on over it. A switch drops what is
before its branches, and what follows each `otherwise` but the last. The targets of a multiple assignment
reach up to the bracket that closes them, on whatever line it is. -/
namespace MatrixScript

/-- The spans of the parts of a multiple assignment. -/
def assignParts (targets : List Target) (value : Option Expr) : List Span :=
  targets.map (·.toExpr.span) ++ value.toList.map Expr.span

/-- A function that starts at the place. -/
def Node.isFunctionAt (p : Position) : Node → Bool
  | .stmt (.function _ _ span _ _) => span.start == p
  | _ => false

instance (span inner : Span) : Decidable (span.Encloses inner) :=
  inferInstanceAs (Decidable (_ ∧ _))

instance (span other : Span) : Decidable (span.Apart other) :=
  inferInstanceAs (Decidable (_ ∨ _))

/-- A statement that was read on over the token, though none of its parts is there. An assignment without a
value may also end right before the line of the token: then the newline was taken for an equals sign, and the
token is where the value would be. -/
def Node.swallows (t : Token) : Node → Bool
  | .stmt (.switch subject cases otherwise span) =>
    span.Encloses t.span ∧ ∀ part ∈ switchParts subject cases otherwise, part.Apart t.span
  | .stmt (.assignMany targets value span _) =>
    (span.Encloses t.span ∧ ∀ part ∈ assignParts targets value, part.Apart t.span) ∨
      value.isNone ∧ span.start ≤ t.span.start ∧ span.stop = ⟨t.span.start.line, 0⟩
  | _ => false

namespace Code

/-- A keyword `function` that has no other code before it on its line. -/
structure FunctionAt (code : Code) (place : Nat) : Prop extends code.OpensLine place where
  kind : (code.token place).kind = .keyword .function
  line : ∀ before, place = before + 1 →
    (code.token before).span.stop = ⟨(code.token place).span.start.line, 0⟩

/-- The keyword starts a function or is swallowed. -/
def Taken (code : Code) (place : Nat) (ns : List Node) : Prop :=
  ∃ n ∈ ns, n.isFunctionAt (code.token place).span.start = true ∨ n.swallows (code.token place) = true

theorem Taken.mono {code : Code} {place : Nat} {ns ns' : List Node} (h : code.Taken place ns)
    (hns : ns ⊆ ns') : code.Taken place ns' := by
  obtain ⟨n, hn, htakes⟩ := h
  exact ⟨n, hns hn, htakes⟩

end Code

namespace Parser

variable {B : Position → Prop} {code : Code} {place : Nat} {ns ns' : List Node} {s s' : State}
  {block : BlockParser} {gas : Nat} {α β : Type}

/-- What is known of a value, with a fact about the same run. -/
theorem Reaches.keeping {L : Prop} {Q Q' : α → State → Prop} {x : α × State} (h : Reaches L B code s Q x)
    (h' : Q' x.1 x.2) : Reaches False B code s (fun a s' => Q a s' ∧ Q' a s') x :=
  ⟨h.goes, h.sound, ⟨h.value, h'⟩, False.elim⟩

/-- What ends before the line. -/
theorem Reaches.halting {Q : α → State → Prop} {x : α × State} (hat : code.FunctionAt place)
    (h : Reaches True B code s Q x) :
    Reaches False B code s (fun a s' => Q a s' ∧ (s.pos < place → s'.pos < place)) x :=
  keeping h (h.halts trivial place hat.toOpensLine)

/-! The place of the keyword. -/

namespace State.Sound

theorem lt_of_kind_ne (hs : s.Sound B code) (hat : code.FunctionAt place) (hle : s.pos ≤ place)
    (hkind : s.current.kind ≠ .keyword .function) : s.pos < place := by
  refine Nat.lt_of_le_of_ne hle ?_
  rintro rfl
  exact hkind (hs.current_eq ▸ hat.kind)

theorem advance_lt (hs : s.Sound B code) (hat : code.FunctionAt place) (hlt : s.pos < place)
    (hkind : s.current.kind ≠ .newline) : (Parser.advance s).2.pos < place :=
  Halts.advance hs.code_eq hkind place hat.toOpensLine hlt

/-- Behind any other keyword. -/
theorem advance_lt_of_isWord (hs : s.Sound B code) (hat : code.FunctionAt place) (hle : s.pos ≤ place)
    {words : List Keyword} (hword : s.current.isWord words = true) (hwords : .function ∉ words) :
    (Parser.advance s).2.pos < place := by
  obtain ⟨word, hmem, hkind⟩ := kind_of_isWord hword
  have hlt : s.pos < place := by
    refine hs.lt_of_kind_ne hat hle ?_
    rw [hkind]
    rintro ⟨⟩
    exact hwords hmem
  exact hs.advance_lt hat hlt (by rw [hkind]; exact nofun)

theorem here_le_token (hs : s.Sound B code) (hat : code.FunctionAt place) (hle : s.pos ≤ place) :
    s.here ≤ (code.token place).span.start := by
  rw [here, hs.current_eq]
  exact hs.laid.token_start_le hle (Nat.le_of_lt hat.lt)

theorem token_le_here (hs : s.Sound B code) (hlt : place < s.pos) :
    (code.token place).span.stop ≤ s.here := by
  rw [here, hs.current_eq]
  exact hs.laid.token_stop_le hlt (hs.code_eq ▸ s.pos_le)

end State.Sound

/-- The keyword is still to be read, or one of the nodes has taken it. -/
def Saved (code : Code) (place : Nat) (ns : List Node) (s : State) : Prop :=
  s.pos ≤ place ∨ code.Taken place ns

namespace Saved

theorem mono (h : Saved code place ns s) (hns : ns ⊆ ns') : Saved code place ns' s :=
  h.imp_right fun htaken => htaken.mono hns

theorem append (h : Saved code place ns s) (hnext : s.pos ≤ place → Saved code place ns' s') :
    Saved code place (ns ++ ns') s' := by
  obtain hle | htaken := h
  · exact (hnext hle).mono (List.subset_append_right _ _)
  · exact .inr (htaken.mono (List.subset_append_left _ _))

/-- Where nothing more is read into the tree. -/
theorem pass (h : Saved code place ns s) (hnext : s.pos ≤ place → s'.pos ≤ place) :
    Saved code place ns s' :=
  h.imp_left hnext

end Saved

/-- If nothing between two states has taken the keyword, it is not between them. -/
theorem taken_or_apart (hat : code.FunctionAt place) (hs : s.Sound B code) (hs' : s'.Sound B code)
    (h : s.pos ≤ place → Saved code place ns s') : code.Taken place ns ∨
      ∀ span : Span, span.Between B s.here s'.here → span.Apart (code.token place).span := by
  by_cases hle : s.pos ≤ place
  · obtain hle' | htaken := h hle
    · right
      intro span hspan
      exact .inl (Position.le_trans hspan.le_hi (hs'.here_le_token hat hle'))
    · exact .inl htaken
  · right
    intro span hspan
    exact .inr (Position.le_trans (hs.token_le_here (Nat.lt_of_not_le hle)) hspan.lo_le)

/-- The parser for the blocks inside statements. -/
structure BlockSaves (B : Position → Prop) (code : Code) (place : Nat) (block : BlockParser) : Prop where
  lies : BlockLies B code block
  saves : ∀ ends s, s.Sound B code → s.pos ≤ place →
    Saved code place (stmtNodes (block ends s).1) (block ends s).2

theorem BlockSaves.reaches (hblock : BlockSaves B code place block) (ends : List Keyword)
    (hs : s.Sound B code) : Reaches False B code s (fun body s' => StmtsLie B code s.here body s' ∧
      (s.pos ≤ place → Saved code place (stmtNodes body) s')) (block ends s) :=
  .keeping (hblock.lies.reads ends s hs) (hblock.saves ends s hs)

/-- Only a word that closes the block is consumed. Where the block is closed behind the keyword, it ends
there. -/
theorem closeBlock_saves (hat : code.FunctionAt place) (word : Keyword)
    (hword : .function ∉ word.terminators) {keyword : Token} (hkeyword : keyword.span.Valid B)
    (hs : s.Sound B code) :
    Reaches False B code s (fun stop s' => (s.pos ≤ place → s'.pos ≤ place) ∧
      (place < s.pos → (code.token place).span.stop ≤ stop)) (closeBlock word keyword s) := by
  refine .read rfl (.ite (fun hcloses => .step (.pure hs.advance ⟨fun hle => ?_, fun hlt => ?_⟩)) ?_)
  · exact Nat.le_of_lt (hs.advance_lt_of_isWord hat hle hcloses hword)
  · exact Position.le_trans (hs.token_le_here hlt) hs.current_valid.start_le
  · intro _
    refine .bind (.report _ hs hkeyword rfl) fun _ s₁ _ hs₁ hsame => .read rfl (.pure hs₁ ?_)
    refine ⟨fun hle => hsame ▸ hle, fun hlt => ?_⟩
    have hplace : place ≤ s₁.pos - 1 := Nat.le_sub_one_of_lt (hsame ▸ hlt)
    exact hs.laid.stop_le_stop hplace (Code.getElem?_all (Nat.le_of_lt hat.lt)) hs₁.getElem?_previous

/-! Statements with blocks. -/

theorem parseCondition_saves (hat : code.FunctionAt place) (word : Keyword) {keyword : Token}
    (hkeyword : keyword.span.Valid B) (hs : s.Sound B code) :
    Reaches False B code s (fun e s' => OptionLies B code s.here e s' ∧
      (s.pos < place → s'.pos < place)) (parseCondition gas word keyword s) :=
  .halting hat (parseCondition_lies word hkeyword hs)

section

variable (hat : code.FunctionAt place) (hblock : BlockSaves B code place block)

include hat hblock

theorem parseElseIfs_saves (exprGas gas : Nat) {clauses : List (Branch Stmt)}
    (h : Saved code place (ns ++ branchNodes clauses.reverse) s) (hs : s.Sound B code) :
    Reaches False B code s (fun all s' => Saved code place (ns ++ branchNodes all) s')
      (parseElseIfs exprGas block gas clauses s) := by
  induction gas generalizing s clauses with
  | zero => exact .outOfGas hs h
  | succ gas ih =>
    refine .read rfl (.ite (fun _ => .pure hs h) (fun hword => .step ?_))
    refine .bind (parseCondition_saves hat _ hs.current_valid hs.advance) ?_
    intro guard s₂ _ hs₂ hguard₂
    refine .bind (hblock.reaches _ hs₂) fun body s₃ _ hs₃ hbody => .read rfl (ih ?_ hs₃)
    rw [List.reverse_cons, branchNodes_append, ← List.append_assoc]
    refine h.append fun hle => ?_
    have hlt := hs.advance_lt_of_isWord hat hle (by simpa using hword) (by decide)
    refine (hbody.2 (Nat.le_of_lt (hguard₂.2 hlt))).mono fun n hn => ?_
    simpa [branchNodes, branchNodesOne] using .inr (.inr hn)

theorem parseElse_saves (hs : s.Sound B code) :
    Reaches False B code s (fun other s' => s.pos ≤ place → Saved code place (stmtNodes (other.getD [])) s')
      (parseElse block s) := by
  refine .read rfl (.ite (fun hword => .step ?_) (fun _ => .pure hs .inl))
  refine .bind (hblock.reaches _ hs.advance) fun body _ _ hs₂ hbody => .pure hs₂ fun hle => ?_
  exact hbody.2 (Nat.le_of_lt (hs.advance_lt_of_isWord hat hle hword (by decide)))

theorem parseIf_saves (hkind : s.current.kind = .keyword .ifBlock) (hlt : s.pos < place) (hs : s.Sound B code) :
    Reaches False B code s (fun st s' => Saved code place st.nodes s') (parseIf gas block s) := by
  have hlt₁ := hs.advance_lt hat hlt (by rw [hkind]; exact nofun)
  refine .step (.bind (parseCondition_saves hat _ hs.current_valid hs.advance) ?_)
  intro condition s₂ _ hs₂ hcondition₂
  refine .bind (hblock.reaches _ hs₂) fun body s₃ _ hs₃ hbody => ?_
  have hsaved : Saved code place (stmtNodes body ++ branchNodes [].reverse) s₃ :=
    (hbody.2 (Nat.le_of_lt (hcondition₂.2 hlt₁))).mono (List.subset_append_left _ _)
  refine .bind (parseElseIfs_saves hat hblock gas gas hsaved hs₃) fun clauses s₄ _ hs₄ hclauses => ?_
  refine .bind (parseElse_saves hat hblock hs₄) fun other s₅ _ hs₅ hother => ?_
  refine .bind (closeBlock_saves hat _ (by decide) hs.current_valid hs₅) fun stop s₆ _ hs₆ hclose => ?_
  refine .pure hs₆ (((hclauses.append hother).pass hclose.1).mono fun n hn => ?_)
  rw [Stmt.nodes_ifElse]
  simp only [List.append_assoc] at hn ⊢
  exact List.mem_cons_of_mem _ (List.mem_append_right _ hn)

theorem parseFor_saves (hkind : s.current.kind = .keyword .forLoop) (hlt : s.pos < place) (hs : s.Sound B code) :
    Reaches False B code s (fun st s' => Saved code place st.nodes s') (parseFor gas block s) := by
  have hlt₁ := hs.advance_lt hat hlt (by rw [hkind]; exact nofun)
  refine .step (.bind (.halting hat (parseForHeader_lies hs.current_valid hs.advance)) ?_)
  intro header s₂ _ hs₂ hheader₂
  refine .bind (hblock.reaches _ hs₂) fun body s₃ _ hs₃ hbody => ?_
  refine .bind (closeBlock_saves hat _ (by decide) hs.current_valid hs₃) fun stop s₄ _ hs₄ hclose => ?_
  refine .pure hs₄ (((hbody.2 (Nat.le_of_lt (hheader₂.2 hlt₁))).pass hclose.1).mono fun n hn => ?_)
  simp [Stmt.nodes, hn]

theorem parseWhile_saves (hkind : s.current.kind = .keyword .whileLoop) (hlt : s.pos < place) (hs : s.Sound B code) :
    Reaches False B code s (fun st s' => Saved code place st.nodes s') (parseWhile gas block s) := by
  have hlt₁ := hs.advance_lt hat hlt (by rw [hkind]; exact nofun)
  refine .step (.bind (parseCondition_saves hat _ hs.current_valid hs.advance) ?_)
  intro condition s₂ _ hs₂ hcondition₂
  refine .bind (hblock.reaches _ hs₂) fun body s₃ _ hs₃ hbody => ?_
  refine .bind (closeBlock_saves hat _ (by decide) hs.current_valid hs₃) fun stop s₄ _ hs₄ hclose => ?_
  refine .pure hs₄ (((hbody.2 (Nat.le_of_lt (hcondition₂.2 hlt₁))).pass hclose.1).mono fun n hn => ?_)
  simp [Stmt.nodes, hn]

theorem parseDoUntil_saves (hkind : s.current.kind = .keyword .doBlock) (hlt : s.pos < place) (hs : s.Sound B code) :
    Reaches False B code s (fun st s' => Saved code place st.nodes s') (parseDoUntil gas block s) := by
  have hlt₁ := hs.advance_lt hat hlt (by rw [hkind]; exact nofun)
  refine .step (.bind (hblock.reaches _ hs.advance) fun body s₂ _ hs₂ hbody => ?_)
  have hsaved := hbody.2 (Nat.le_of_lt hlt₁)
  have hnodes (condition : Option Expr) (span : Span) :
      stmtNodes body ⊆ (Stmt.doUntil body condition span).nodes := by
    intro n hn
    simp [Stmt.nodes, hn]
  refine .read rfl (.ite (fun hword => .step ?_) (fun _ => ?_))
  · refine .bind (parseCondition_saves hat _ hs₂.current_valid hs₂.advance) ?_
    intro condition s₄ _ hs₄ hcondition₄
    refine .pure hs₄ ((hsaved.pass fun hle => ?_).mono (hnodes _ _))
    exact Nat.le_of_lt (hcondition₄.2 (hs₂.advance_lt_of_isWord hat hle hword (by decide)))
  · refine .bind (.report _ hs₂ hs.current_valid rfl) fun _ s₃ _ hs₃ hsame => .read rfl (.pure hs₃ ?_)
    exact (hsaved.pass fun hle => hsame ▸ hle).mono (hnodes _ _)

theorem parseCatch_saves (hs : s.Sound B code) :
    Reaches False B code s (fun handler s' => s.pos ≤ place → Saved code place (stmtNodes handler.2) s')
      (parseCatch block s) := by
  refine .read rfl (.ite (fun hword => .step ?_) (fun _ => .pure hs .inl))
  refine .bind (.halting hat (parseErrorVariable_lies s.current hs.advance)) fun _ s₂ _ hs₂ hvar₂ => ?_
  refine .bind (hblock.reaches _ hs₂) fun body _ _ hs₃ hbody => .pure hs₃ fun hle => ?_
  exact hbody.2 (Nat.le_of_lt (hvar₂.2 (hs.advance_lt_of_isWord hat hle hword (by decide))))

theorem parseTry_saves (hkind : s.current.kind = .keyword .tryBlock) (hlt : s.pos < place) (hs : s.Sound B code) :
    Reaches False B code s (fun st s' => Saved code place st.nodes s') (parseTry block s) := by
  have hlt₁ := hs.advance_lt hat hlt (by rw [hkind]; exact nofun)
  refine .step (.bind (.halting hat (.accepts rfl hs.advance)) ?_)
  intro _ s₂ _ hs₂ haccept
  refine .bind (hblock.reaches _ hs₂) fun body s₃ _ hs₃ hbody => ?_
  refine .bind (parseCatch_saves hat hblock hs₃) fun handler s₄ _ hs₄ hhandler => ?_
  refine .bind (closeBlock_saves hat _ (by decide) hs.current_valid hs₄) fun stop s₅ _ hs₅ hclose => ?_
  have hsaved := (hbody.2 (Nat.le_of_lt (haccept.2 hlt₁))).append hhandler
  refine .pure hs₅ ((hsaved.pass hclose.1).mono fun n hn => ?_)
  simp only [Stmt.nodes, List.mem_append, List.mem_cons] at hn ⊢
  obtain hn | hn := hn
  · exact .inl (.inl (.inr hn))
  · exact .inr hn

/-- The keyword itself starts a function. -/
theorem parseFunction_saves (hkind : s.current.kind = .keyword .function)
    (hle : s.pos ≤ place) (hs : s.Sound B code) :
    Reaches False B code s (fun st s' => Saved code place st.nodes s' ∧ (s.pos = place → place < s'.pos))
      (parseFunction (.ofCode code) gas block s) := by
  have hne : s.current.kind ≠ .eof := by rw [hkind]; exact nofun
  have hrest := hs.rest_ne_nil hne
  refine .step (.bind (.halting hat (parseHeader_lies (hs.current_ended hne (.refl _)) hs.advance)) ?_)
  intro header s₂ h₂ hs₂ hheader₂
  refine .read rfl (.bind (.halting hat (finishHeader_keeps hs₂)) ?_)
  intro _ s₃ h₃ hs₃ hfinish
  refine .bind (hblock.reaches _ hs₃) fun body s₄ h₄ hs₄ hbody => ?_
  have hpast {s' : State} (h : Extends s₄ s') : s.pos = place → place < s'.pos := by
    rintro rfl
    have hpos := (h₂.trans (h₃.trans (h₄.trans h))).pos_le
    rwa [advance_pos hrest] at hpos
  have hdone {s' : State} (documentation : String) (closed : Bool) (stop : Position)
      (hclose : s₄.pos ≤ place → s'.pos ≤ place) :
      Saved code place (Stmt.function header body ⟨s.here, stop⟩ documentation closed).nodes s' := by
    obtain rfl | hlt := Nat.eq_or_lt_of_le hle
    · refine .inr ⟨_, Stmt.mem_nodes _, .inl ?_⟩
      rw [Node.isFunctionAt, beq_iff_eq, ← hs.current_eq]
      rfl
    · have hlt₁ := hs.advance_lt hat hlt (by rw [hkind]; exact nofun)
      have hsaved := hbody.2 (Nat.le_of_lt (hfinish.2 (hheader₂.2 hlt₁)))
      refine (hsaved.pass hclose).mono fun n hn => ?_
      simp [Stmt.nodes, hn]
  refine .read rfl (.ite (fun hword => .step ?_) (fun _ => ?_))
  · refine .pure hs₄.advance ⟨hdone _ _ _ fun hle => ?_, hpast (.advance s₄)⟩
    exact Nat.le_of_lt (hs₄.advance_lt_of_isWord hat hle hword (by decide))
  · refine .bind (.report _ hs₄ hheader₂.1.nameSpan.toValid rfl) fun _ s₅ h₅ hs₅ hsame => .read rfl (.pure hs₅ ?_)
    exact ⟨hdone _ _ _ fun hle => hsame ▸ hle, hpast h₅⟩

end

end Parser

end MatrixScript
