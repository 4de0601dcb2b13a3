import MatrixScript.Proofs.Parser.ExpressionAccounts
import MatrixScript.Proofs.Parser.LineExtent
import MatrixScript.Proofs.Parser.NestedLine

/-! The names in statements on one line without errors are all accounted for. -/
namespace MatrixScript

/-- Laid out code can be scanned. -/
def Code.LaidOut.origin {B : Position → Prop} {code : Code} (h : code.LaidOut B) : Parser.Origin :=
  ⟨code, h.eof_kind, h.kind_ne, 0, [], true⟩

namespace Parser

variable {B : Position → Prop} {code : Code} {D : Nat → Prop}
  {os : List Occurrence} {s₀ s : State} {gas : Nat}

theorem finishStatement_accounts :
    CleanRun (Accounts B code [] D os s₀ s) s (fun _ s' => Accounts B code [] D os s₀ s')
      (finishStatement s) :=
  accounted (Tracking.finishStatement os trivial)

/-! Assignments. -/

/-- The value behind an equals sign, for a statement that starts at `start`. -/
theorem parseAssigned_accounts {lo start : Position} (equals : Token) :
    CleanRun (Accounts B code [] D os s₀ s ∧ equals.span.Valid B ∧
        Span.Between B lo s.here ⟨start, equals.span.stop⟩) s
      (fun a s' => Accounts B code [] D (os ++ optionalOccurrences a.1) s₀ s' ∧
        Span.Valid B ⟨start, a.2⟩)
      (parseAssigned gas equals s) := by
  exact .keeping (.pre (fun h => h.1) (accounted (HeaderTracking.parseAssigned equals)))
    fun h => (parseAssigned_lies h.2.1 h.1.sound).mono fun _ _ hvalue => (hvalue.between h.2.2).toValid

theorem Accounts.passEquals (h : Accounts B code [] D os s₀ s) (hkind : s.current.kind = .sign .equals)
    {lo : Position} {span : Span} (hspan : span.Between B lo s.here) :
    Accounts B code [] D os s₀ (advance s).2 ∧ s.current.span.Valid B ∧
      Span.Between B lo (advance s).2.here ⟨span.start, s.current.span.stop⟩ :=
  ⟨h.passSign hkind, h.sound.current_valid, hspan.join (h.sound.current_between (.refl _))⟩

theorem finishAssignment_accounts (span : Span) :
    CleanRun (Accounts B code [] D os s₀ s ∧ span.Valid B) s
      (fun _ s' => Accounts B code [] D os s₀ s') (finishAssignment span s) := by
  refine .bind (.frame finishStatement_accounts) fun silent s₁ => .ite (fun _ => ?_) (fun _ => ?_)
  · have hwarn : CleanRun (Accounts B code [] D os s₀ s₁ ∧ span.Valid B) s₁
        (fun _ s' => Accounts B code [] D os s₀ s') (report .showsOutput span s₁) :=
      ⟨.report _ _ s₁, fun _ h => h.1.report h.2 rfl⟩
    exact .bind hwarn fun _ _ => .pure id
  · exact .pure fun h => h.1

theorem parseAssignment_accounts (hname : s.current.isName = true) :
    CleanRun (Accounts B code [] D os s₀ s) s
      (fun st s' => Accounts B code [] D (os ++ stmtOccurrences st.toList) s₀ s')
      (parseAssignment gas s) := by
  refine .bind (.keeping (accounted (Tracking.parseName ((accounting B code D s₀).parseExpression gas) gas hname))
    fun h => parseName_lies (parseExpression_lies gas) gas hname h.sound) fun target s₁ => ?_
  refine .ite (fun _ => ?_) (fun hequals => .next ?_)
  · refine .fail rfl _ fun s₂ => .bind (.synchronize s₂) fun _ s₃ _ _ => ?_
    exact .bind (.finishStatement s₃) fun _ _ _ _ => .pure trivial
  · have hkind : s₁.current.kind = .sign .equals := by simpa using hequals
    refine .pre (fun h => h.1.passEquals hkind h.2.span.toBetween) ?_
    refine .bind (parseAssigned_accounts _) fun value s₃ => ?_
    refine .bind (finishAssignment_accounts _) fun _ s₄ => .pure fun h => ?_
    rw [List.append_assoc] at h
    refine h.usesBehind fun o ho => ?_
    rw [Option.toList_some, stmtOccurrences_singleton, Stmt.occurrences]
    simp only [List.mem_append, List.mem_cons] at ho ⊢
    exact ho.imp_left fun hroot => .inr (rootOccurrences_subset target hroot)

/-! Declarations. -/

/-- An expression whose names are dropped. -/
theorem parseDropped_accounts :
    CleanRun (Accounts B code [] D os s₀ s) s
      (fun _ s' => Accounts B code []
        (fun k => D k ∨ s.pos ≤ k ∧ k < (parseExpression gas 0 s).2.pos) os s₀ s')
      (parseExpression gas 0 s) := by
  have hrun : CleanRun (Accounts B code [] D os s s) s (ExprAccounts B code [] D os s s)
      (parseExpression gas 0 s) := parseExpression_accounts gas 0 s
  refine ⟨hrun.1, fun hclean h => ?_⟩
  have hvalue := (hrun.2 hclean (h.start D os)).1
  exact (h.mono (fun _ _ => .inl) (List.Subset.refl _)).trans
    (hvalue.drop (fun k hk hlt _ => .inr ⟨hk, hlt⟩) os)

/-- The names of a declaration, without the initial values. -/
def DeclaredAccounts (B : Position → Prop) (code : Code) (D : Nat → Prop) (os : List Occurrence)
    (s₀ : State) (names : List Variable) (s : State) : Prop :=
  Accounts B code [] (fun k => D k ∨ ∃ v ∈ names, code.InValueOf v k)
    (os ++ names.reverse.flatMap Variable.occurrences) s₀ s

theorem DeclaredAccounts.add {names : List Variable} (h : DeclaredAccounts B code D os s₀ names s) :
    DeclaredAccounts B code D os s₀ (⟨s.current.text, s.current.span⟩ :: names) (advance s).2 := by
  rw [DeclaredAccounts, flatMap_reverse_cons, ← List.append_assoc]
  refine (Accounts.introduce h).mono (fun k _ hk => ?_) (List.Subset.refl _)
  exact hk.imp_right fun ⟨v, hv, hvalue⟩ => ⟨v, List.mem_cons_of_mem _ hv, hvalue⟩

/-- What the parser takes behind the equals sign belongs to the initial value. -/
theorem DeclaredAccounts.inValueOf {names : List Variable} (h : DeclaredAccounts B code D os s₀ names s)
    (hname : s.current.isName = true) (hequals : (advance s).2.current.kind = .sign .equals) (gas : Nat) :
    ∀ k, (advance (advance s).2).2.pos ≤ k → k < (parseExpression gas 0 (advance (advance s).2).2).2.pos →
      code.InValueOf ⟨s.current.text, s.current.span⟩ k := by
  intro k hle hlt
  have hrest := h.sound.rest_ne_nil (Token.kind_ne_of_isName hname)
  have hrest' := h.sound.advance.rest_ne_nil (by rw [hequals]; exact nofun)
  have hafter := (Accounts.introduce h).passSign hequals
  refine ⟨s.pos, gas, (advance (advance s).2).2, ?_, ?_, hafter.sound.code_eq, hafter.groups_eq, ?_, hle, hlt⟩
  · rw [← Accounts.current_eq h]
  · rw [← Accounts.ahead_eq h, ← advance_current]
    exact beq_iff_eq.mpr hequals
  · rw [advance_pos hrest', advance_pos hrest]

theorem parseDeclared_accounts (exprGas gas : Nat) (names : List Variable) :
    CleanRun (DeclaredAccounts B code D os s₀ names s) s (DeclaredAccounts B code D os s₀)
      (parseDeclared exprGas gas names s) := by
  induction gas generalizing s names with
  | zero => exact .outOfGas
  | succ gas ih =>
    refine .read rfl (.ite (fun _ => .pure id) (fun hname => ?_))
    replace hname : s.current.isName = true := by simpa using hname
    refine .next (.ite (fun hequals => .next ?_) (fun _ => .pre (fun h => h.add) (ih _)))
    have hkind : (advance s).2.current.kind = .sign .equals := beq_iff_eq.mp hequals
    refine .pre (fun h => And.intro (Accounts.passSign h.add hkind) (h.inValueOf hname hkind exprGas)) ?_
    refine .bind (.frame parseDropped_accounts) fun value s₃ => ?_
    refine .ite (fun _ => .failExpected _ fun _ => (ih _).leads) (fun _ => .pre (fun h => ?_) (ih _))
    refine h.1.mono (fun k _ hk => ?_) (List.Subset.refl _)
    obtain hk | ⟨hle, hlt⟩ := hk
    · exact hk
    · exact .inr ⟨_, List.mem_cons_self, h.2 k hle hlt⟩

theorem parseDeclaration_accounts {ns : List Node} (storage : Storage) {word : Keyword}
    (hkind : s.current.kind = .keyword word) :
    CleanRun (Accounts B code [] (code.Dropped ns) os s₀ s) s
      (fun st s' => Accounts B code [] (code.Dropped (ns ++ st.nodes)) (os ++ st.occurrences) s₀ s')
      (parseDeclaration gas storage s) := by
  have hstart (h : Accounts B code [] (code.Dropped ns) os s₀ s) :
      DeclaredAccounts B code (code.Dropped ns) os s₀ [] (advance s).2 :=
    (h.passWord hkind).mono (fun _ _ => .inl) (List.subset_append_left _ _)
  refine .next (.pre hstart (.bind (parseDeclared_accounts gas gas []) fun names s₂ => ?_))
  refine .bind finishStatement_accounts fun _ s₃ => .pure fun h => h.mono (fun k _ hk => ?_) ?_
  · rw [Stmt.nodes]
    obtain hk | ⟨v, hv, hvalue⟩ := hk
    · exact hk.mono (List.subset_append_left _ _)
    · exact ⟨_, List.mem_append_right _ List.mem_cons_self, .initial (List.mem_reverse.mpr hv) hvalue⟩
  · rw [Stmt.occurrences]
    exact List.Subset.refl _

/-! Multiple assignments. -/

theorem parseManyAssignment_accounts (hlaid : code.LaidOut B)
    (hkind : s.current.kind = .sign .openBracket)
    (hfound : (findTargetsEnd 0 s.rest).isSome = true) :
    CleanRun (Accounts B code [] D os s₀ s) s
      (fun st s' => Accounts B code [] D (os ++ st.occurrences) s₀ s') (parseManyAssignment gas s) := by
  have hopened (h : Accounts B code [] D os s₀ s) :
      (Accounts B code [] D (os ++ [].flatMap Target.occurrences) s₀ (advance s).2 ∧
        At (hlaid.origin.fresh (advance s).2.pos) ((advance s).2.tally (advance s).2.pos) [] [] (advance s).2) ∧
      s.current.span.Between B s.here (advance s).2.here := by
    have hnext := h.passSign hkind
    refine ⟨⟨hnext.uses (List.subset_append_left _ _), ?_⟩, h.sound.current_between (.refl _)⟩
    exact .of_state hnext.sound.code_eq hnext.groups_eq hnext.words_lt hnext.commands
  have hequals := findTargetsEnd_advance hkind hfound
  have htargets := CleanRun.pre hopened (.frame (.keeping
    (.and (accounted (HeaderTracking.parseTargets os gas gas [])) (parseTargets_equals gas gas hequals))
    fun h => parseTargets_lie gas gas (.nil (Position.le_refl _)) h.1.sound))
  refine .next (.bind htargets fun targets s₂ => .bind (.expectSign rfl _ s₂) fun _ s₃ => .next ?_)
  have hassigned : CleanRun (Accounts B code [] D (os ++ targets.flatMap Target.occurrences) s₀
        (advance s₃).2 ∧ s₃.current.span.Valid B ∧
        Span.Between B s.here (advance s₃).2.here ⟨s.current.span.start, s₃.current.span.stop⟩)
      (advance s₃).2 _ (parseAssigned gas s₃.current (advance s₃).2) := parseAssigned_accounts _
  refine .bind (.pre ?_ hassigned) fun value s₄ => .bind (finishAssignment_accounts _) fun _ _ => .pure ?_
  · rintro ⟨⟨⟨⟨h, hfollows⟩, hlies⟩, hopening⟩, hclose, rfl⟩
    have hle := Position.le_trans hlies.le (h.sound.here_le (.advance s₂))
    exact (h.passSign hclose).passEquals (hfollows hclose) (hopening.mono (Position.le_refl _) hle)
  · intro h
    rw [Stmt.occurrences, ← List.append_assoc]
    exact h

end Parser

end MatrixScript
