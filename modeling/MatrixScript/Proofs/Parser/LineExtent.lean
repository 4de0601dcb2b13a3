import MatrixScript.Proofs.Parser.ExpressionExtent

/-! Statements on one line lie between the places where the parser starts and where it stops reading them, and
they enclose their parts. An assignment of several values can end behind the last token that was read: then it
was read to the end of the code. -/
namespace MatrixScript.Parser

variable {L : Prop} {B : Position → Prop} {code : Code} {s s' : State} {gas : Nat} {lo start : Position}
  {silent : Bool}

theorem State.Sound.rest_eq_nil (hs : s.Sound B code) (hkind : s.current.kind = .eof) : s.rest = [] := by
  by_contra hrest
  exact hs.laid.kind_ne _ (hs.current_mem_tokens hrest) hkind

/-- Behind the code there is nothing more to read. -/
theorem Extends.rest_eq_nil (h : Extends s s') (hrest : s.rest = []) : s'.rest = [] := by
  rw [s'.rest_eq, h.code]
  exact List.drop_eq_nil_of_le (Nat.le_trans (s.length_le_pos hrest) h.pos_le)

/-- A statement, if there is one. -/
def OptionStmtLies (B : Position → Prop) (code : Code) (lo : Position) (st : Option Stmt) (s : State) :
    Prop :=
  ∀ x ∈ st, StmtLies B code lo x s

theorem OptionStmtLies.none : OptionStmtLies B code lo none s := nofun

theorem OptionStmtLies.some {st : Stmt} (h : StmtLies B code lo st s) : OptionStmtLies B code lo (some st) s :=
  fun _ hx => Option.some.inj hx ▸ h

theorem OptionStmtLies.later {st : Option Stmt} (h : OptionStmtLies B code lo st s) (hs : s.Sound B code)
    (hextends : Extends s s') : OptionStmtLies B code lo st s' :=
  fun x hx => (h x hx).later hs hextends

theorem StmtLies.call {use : NameUse Expr} (h : Built (Node.Placed code) B code lo (Expr.name use).nodes
    (Expr.name use).occurrences s) : StmtLies B code lo (.call use silent) s := by
  have hspan : use.span.Ended B code lo s.here := Built.span h (Expr.name use).mem_nodes
  rw [Expr.occurrences] at h
  rw [StmtLies, Stmt.nodes, Stmt.occurrences]
  exact .within hspan (.bare rfl rfl rfl) (List.forall_mem_singleton.mpr (Span.encloses_self _)) h
    rfl rfl

theorem StmtLies.expr {e : Expr} (h : ExprLies B code lo e s) : StmtLies B code lo (.expr e silent) s := by
  rw [StmtLies, Stmt.nodes, Stmt.occurrences]
  exact .within h.span (.bare rfl rfl rfl) (List.forall_mem_singleton.mpr (Span.encloses_self _))
    h.placed rfl rfl

/-! Commands. -/

theorem Reaches.takeWord (hkind : isNewlineOrEnd s.current.kind = false) (hs : s.Sound B code) :
    Reaches L B code s (fun t s' => t ∈ code.all ∧ t.span.Ended B code s.here s'.here) (Parser.takeWord s) := by
  have hnoted : State.Sound B code { s with words := s.pos :: s.words } :=
    hs.of_same rfl rfl rfl
  refine ⟨(Leads.takeWord s).1, hnoted.advance, ?_, fun _ => ?_⟩
  · rw [(Leads.takeWord s).2]
    exact ⟨hs.current_mem, hnoted.current_ended (kind_ne_eof_of_more hkind) (.refl _)⟩
  · exact Halts.advance (s := { s with words := s.pos :: s.words }) hs.code_eq (kind_ne_newline_of_more hkind)

/-- The words of a command so far. The last one of them ends with the token before. -/
structure WordsLie (B : Position → Prop) (code : Code) (lo : Position) (words : List Variable)
    (before : Token) (s : State) : Prop where
  ended : ∀ word ∈ words, word.span.Ended B code lo s.here
  stands : ∀ word ∈ words, Stands code.all word.name word.span
  stop_eq : ∀ word ∈ words.head?, word.span.stop = before.span.stop
  stop_le : ∀ word ∈ words, word.span.stop ≤ before.span.stop

theorem WordsLie.join {words : List Variable} {before token : Token}
    (h : WordsLie B code lo words before s) (hmem : token ∈ code.all)
    (htoken : token.span.Ended B code s.here s'.here) (hle : lo ≤ s.here) :
    WordsLie B code lo (joinWord words before token) token s' := by
  have hsingle : token.span.Ended B code lo s'.here := htoken.mono hle (Position.le_refl _)
  have hbehind : s.here ≤ token.span.stop := Position.le_trans htoken.lo_le htoken.start_le
  have hlater {words : List Variable} (h : ∀ word ∈ words, word.span.Ended B code lo s.here) :
      ∀ word ∈ words, word.span.Ended B code lo s'.here :=
    fun word hword => (h word hword).mono (Position.le_refl _) htoken.le
  have hbefore {words : List Variable} (h : ∀ word ∈ words, word.span.Ended B code lo s.here) :
      ∀ word ∈ words, word.span.stop ≤ token.span.stop :=
    fun word hword => Position.le_trans (h word hword).le_hi hbehind
  cases words with
  | nil =>
    exact ⟨List.forall_mem_singleton.mpr hsingle, List.forall_mem_singleton.mpr (.token hmem),
      by simp [joinWord], List.forall_mem_singleton.mpr (Position.le_refl _)⟩
  | cons word more =>
    obtain ⟨hword, hmore⟩ := List.forall_mem_cons.mp h.ended
    obtain ⟨hstands, hmoreStand⟩ := List.forall_mem_cons.mp h.stands
    by_cases hadjacent : before.adjacent token = true
    · have hstop : word.span.stop = token.span.start :=
        (h.stop_eq word rfl).trans (beq_iff_eq.mp hadjacent)
      have hjoin : joinWord (word :: more) before token =
          ⟨word.name ++ token.text, word.span.start, token.span.stop⟩ :: more := by
        rw [joinWord, if_pos hadjacent, Span.merge_of_stop_eq hword.start_le htoken.start_le hstop]
      rw [hjoin]
      exact ⟨List.forall_mem_cons.mpr ⟨.join hword.toBetween htoken, hlater hmore⟩,
        List.forall_mem_cons.mpr ⟨.join hstands hmem hstop, hmoreStand⟩, by simp,
        List.forall_mem_cons.mpr ⟨Position.le_refl _, hbefore hmore⟩⟩
    · rw [joinWord, if_neg hadjacent]
      exact ⟨List.forall_mem_cons.mpr ⟨hsingle, hlater h.ended⟩,
        List.forall_mem_cons.mpr ⟨.token hmem, h.stands⟩, by simp,
        List.forall_mem_cons.mpr ⟨Position.le_refl _, hbefore h.ended⟩⟩

theorem parseCommandWords_lie (gas : Nat) {words : List Variable} {before : Token} (hle : lo ≤ s.here)
    (h : WordsLie B code lo words before s) (hs : s.Sound B code) :
    Reaches L B code s (fun all s' => ∃ last, WordsLie B code lo all last s')
      (parseCommandWords gas words before s) := by
  induction gas generalizing s words before with
  | zero => exact .outOfGas hs ⟨before, h.ended, h.stands, h.stop_eq, h.stop_le⟩
  | succ gas ih =>
    refine .ite (fun _ => .pure hs ⟨before, h⟩) (fun hends => ?_)
    have hkind : isNewlineOrEnd s.current.kind = false := by
      cases hkind : s.current.kind with
      | newline | eof => exact absurd (by rw [hkind]; rfl) hends
      | _ => rfl
    refine .bind (.takeWord hkind hs) fun token s₁ h₁ hs₁ ⟨hmem, htoken⟩ => ?_
    exact ih (Position.le_trans hle (hs.here_le h₁)) (h.join hmem htoken hle) hs₁

/-- Words as the arguments of a command. -/
theorem WordsLie.lies {words : List Variable} {last : Token} (hle : lo ≤ s.here)
    (h : WordsLie B code lo words last s) :
    Built (Node.Placed code) B code lo
      (exprNodes (words.reverse.map fun word => Expr.string word.name word.span))
      (exprOccurrences (words.reverse.map fun word => Expr.string word.name word.span)) s := by
  have hnames (words : List Variable) :
      exprOccurrences (words.map fun word => Expr.string word.name word.span) = [] := by
    induction words with
    | nil => rfl
    | cons word words ih => rw [List.map_cons, exprOccurrences, ih, Expr.occurrences, List.append_nil]
  have hnode : ∀ n ∈ exprNodes (words.reverse.map fun word => Expr.string word.name word.span),
      ∃ word ∈ words, n = .expr (.string word.name word.span) := by
    intro n hn
    obtain ⟨e, he, hn⟩ := mem_exprNodes.mp hn
    obtain ⟨word, hword, rfl⟩ := List.mem_map.mp he
    rw [Expr.nodes, List.mem_singleton] at hn
    exact ⟨word, List.mem_reverse.mp hword, hn⟩
  have hplace : ∀ n ∈ exprNodes (words.reverse.map fun word => Expr.string word.name word.span),
      n.place? = none := by
    intro n hn
    obtain ⟨word, _, rfl⟩ := hnode n hn
    rfl
  rw [hnames]
  refine ⟨hle, fun n hn => ?_, List.forall_mem_nil _, fun _ => .nil, fun n hn => ?_, ?_⟩
  · obtain ⟨word, hword, rfl⟩ := hnode n hn
    exact ⟨(h.ended word hword).toBetween, h.stands word hword,
      .of_encloses (List.forall_mem_nil _) (Node.forall_name _ rfl), trivial, .inl (h.ended word hword).ends⟩
  · simp [hplace n hn]
  · refine List.pairwise_of_forall_mem_list fun n hn n' _ => ?_
    simp [Node.Apart, hplace n hn]

theorem parseCommand_lies (hname : s.current.isName = true) (hs : s.Sound B code) :
    Reaches L B code s (StmtLies B code s.here) (parseCommand gas s) := by
  have hkind := Token.kind_ne_of_isName hname
  have hempty : WordsLie B code (advance s).2.here [] s.current (advance s).2 :=
    ⟨List.forall_mem_nil _, List.forall_mem_nil _, nofun, List.forall_mem_nil _⟩
  refine .next (kind_ne_newline_of_isName hname)
    (.bind (parseCommandWords_lie gas (Position.le_refl _) hempty hs.advance) ?_)
  intro words s₂ h₂ hs₂ ⟨last, hwords⟩
  refine .bind (.finishStatement hs₂) fun silent s₃ h₃ hs₃ _ => .pure hs₃ (Built.later ?_ hs₂ h₃)
  have htoken := hs.current_ended hkind h₂
  refine StmtLies.call (UseLies.name ⟨?_, ?_, ⟨⟨s.current, hs.current_mem, ⟨hname, rfl⟩, rfl, nofun⟩, absurd rfl,
    fun _ => nofun⟩, List.forall_mem_map.mpr fun word hword => .inl ?_, (advance s).2.here,
    hs.not_here_le (hs.rest_ne_nil hkind), hwords.lies (hs.advance.here_le h₂)⟩)
  · cases words with
    | nil => exact htoken
    | cons word more => exact .join (hs.current_between (.refl _)) (hwords.ended word List.mem_cons_self)
  · rw [NameUse.rootSpan, ← hs.laid.name_stop _ hs.current_mem hname]
    exact hs.current_valid
  · have hlast := hwords.stop_le word (List.mem_reverse.mp hword)
    cases words with
    | nil => contradiction
    | cons first more => exact (hwords.stop_eq first rfl).symm ▸ hlast

/-! Assignments and expressions. -/

/-- The value of an assignment, which ends with the value or with the equals sign. -/
structure AssignedLies (B : Position → Prop) (code : Code) (lo : Position) (equals : Token) (atEnd : Prop)
    (value : Option Expr) (stop : Position) (s : State) : Prop where
  lies : OptionLies B code lo value s
  stop_eq : stop = (value.elim equals.span Expr.span).stop
  reported : value = none → atEnd → s.Reports ((Problem.endsAfter equals.text).toDiagnostic equals.span)

namespace AssignedLies

variable {equals : Token} {atEnd : Prop} {value : Option Expr} {stop mid : Position}

theorem between (h : AssignedLies B code mid equals atEnd value stop s)
    (hequals : Span.Between B lo mid ⟨start, equals.span.stop⟩) : Span.Between B lo s.here ⟨start, stop⟩ := by
  rw [h.stop_eq]
  cases value with
  | none => exact hequals.mono (Position.le_refl _) h.lies.le
  | some value => exact hequals.join (ExprLies.span h.lies).toBetween

theorem encloses (h : AssignedLies B code mid equals atEnd value stop s)
    (hequals : equals.span.Between B lo mid) {targets : List Expr}
    (htargets : ∀ e ∈ targets, Span.Encloses ⟨lo, equals.span.stop⟩ e.span) :
    ∀ part ∈ targets.map Node.expr ++ value.toList.map .expr, Span.Encloses ⟨lo, stop⟩ part.span := by
  rw [h.stop_eq]
  refine List.forall_mem_append.mpr ⟨?_, Built.encloses_elim h.lies _ hequals.le⟩
  refine List.forall_mem_map.mpr fun e he => ⟨(htargets e he).1, ?_⟩
  exact Position.le_trans (htargets e he).2 (Built.le_elim h.lies hequals.le_hi)

/-- An assignment ends with its value or with a token that was read, unless the end token was taken for the
equals sign. -/
theorem ends_or_overhangs {s₀ : State}
    (h : AssignedLies B code lo s₀.current ((advance s₀).2.current.kind = .eof) value stop s)
    (hs₀ : s₀.Sound B code) (targets : List Target) (start : Position) (silent : Bool) :
    code.Ends stop ∨
      (Node.stmt (.assignMany targets value ⟨start, stop⟩ silent)).Overhangs s.Reports code.eof := by
  obtain ⟨hvalue, rfl, hreported⟩ := h
  cases value with
  | some value => exact .inl (ExprLies.span hvalue).ends
  | none =>
    by_cases hend : s₀.current.kind = .eof
    · have hrest := hs₀.rest_eq_nil hend
      have heof : s₀.current = code.eof := by
        rw [State.current, hrest, hs₀.code_eq]
        rfl
      rw [advance_eq_self hrest, heof] at hreported
      rw [heof]
      exact .inr ⟨rfl, hreported rfl (heof ▸ hend)⟩
    · exact .inl (hs₀.current_ended hend (.refl _)).ends

end AssignedLies

theorem parseAssigned_lies {equals : Token} (hequals : equals.span.Valid B) (hs : s.Sound B code) :
    Reaches L B code s (fun a => AssignedLies B code s.here equals (s.current.kind = .eof) a.1 a.2)
      (parseAssigned gas equals s) := by
  refine .bind (parseExpression_lies gas 0 s hs) fun value s₁ h₁ hs₁ hvalue => ?_
  cases value with
  | some value => exact .pure hs₁ ⟨hvalue, rfl, fun hnone => absurd hnone (Option.some_ne_none _)⟩
  | none =>
    refine .bind (.expectedExpression hs₁ hequals) fun _ s₂ h₂ hs₂ hreported => ?_
    refine .bind (.synchronize hs₂) fun _ s₃ h₃ hs₃ _ => .pure hs₃ ⟨?_, rfl, fun _ hend => ?_⟩
    · exact hvalue.later hs₁ (h₂.trans h₃)
    · refine h₃.reports (hreported ?_)
      rw [State.current, h₁.rest_eq_nil (hs.rest_eq_nil hend), hs₁.code_eq]
      exact hs.laid.eof_kind

theorem finishAssignment_keeps {span : Span} (hspan : span.Valid B) (hs : s.Sound B code) :
    Reaches L B code s (fun _ _ => True) (finishAssignment span s) := by
  refine .bind (.finishStatement hs) fun silent s₁ _ hs₁ _ => ?_
  refine .ite (fun _ => ?_) (fun _ => .pure hs₁ trivial)
  exact .bind (.report _ hs₁ hspan rfl) fun _ _ _ hs₂ _ => .pure hs₂ trivial

theorem parseAssignment_lies (hname : s.current.isName = true) (hs : s.Sound B code) :
    Reaches L B code s (OptionStmtLies B code s.here) (parseAssignment gas s) := by
  refine .bind (parseName_lies (parseExpression_lies gas) gas hname hs) fun target s₁ h₁ hs₁ htarget => ?_
  refine .ite (fun _ => ?_) (fun hequals => ?_)
  · refine .bind (.report _ hs₁ htarget.span.toValid rfl) fun _ s₂ _ hs₂ _ => ?_
    refine .bind (.synchronize hs₂) fun _ s₃ _ hs₃ _ => ?_
    exact .bind (.finishStatement hs₃) fun _ _ _ hs₄ _ => .pure hs₄ .none
  · have hkind : s₁.current.kind = .sign .equals := by simpa using hequals
    replace hequals := hs₁.current_ended (by rw [hkind]; exact nofun) (.refl _)
    refine .next (by rw [hkind]; exact nofun) ?_
    refine .bind (parseAssigned_lies hs₁.current_valid hs₁.advance) fun value s₃ h₃ hs₃ hvalue => ?_
    have hspan : Span.Ended B code s.here s₃.here ⟨target.span.start, value.2⟩ := by
      rw [hvalue.stop_eq]
      exact .join htarget.span.toBetween (Built.elim_span hvalue.lies hequals)
    refine .bind (finishAssignment_keeps hspan.toValid hs₃) fun silent s₄ h₄ hs₄ _ => .pure hs₄ (.some ?_)
    have hnames := htarget.lies [⟨target.root, target.rootSpan, .binding⟩] (by simp)
    have hstart := Position.le_trans htarget.span.start_le htarget.span.le_hi
    have hparts := hnames.append ((Extends.advance s₁).trans h₃) (hvalue.lies.wider hequals.le)
    refine Built.later ?_ hs₃ h₄
    rw [Stmt.nodes, Stmt.occurrences, List.cons_append]
    refine .within hspan ⟨List.forall_mem_nil _, hvalue.lies.spelled, List.forall_mem_nil _⟩ ?_
      hparts.placed rfl rfl
    refine hvalue.encloses (hequals.toBetween.mono hstart (Position.le_refl _))
      (List.forall_mem_singleton.mpr ⟨Position.le_refl _, ?_⟩)
    exact Position.le_trans htarget.span.le_hi hequals.start_le

theorem parseTargets_lie (nameGas gas : Nat) {targets : List Target}
    (h : ItemsLie B code lo Target.toExpr Target.occurrences targets.reverse s) (hs : s.Sound B code) :
    Reaches False B code s (ItemsLie B code lo Target.toExpr Target.occurrences)
      (parseTargets nameGas gas targets s) := by
  induction gas generalizing s targets with
  | zero => exact .outOfGas hs (h.later hs (.fault _ s))
  | succ gas ih =>
    have hmore (target : Target) {s' : State} (h' : Extends s s')
        (htarget : Built (Node.Placed code) B code s.here target.toExpr.nodes target.occurrences s') :
        ItemsLie B code lo Target.toExpr Target.occurrences (target :: targets).reverse s' := by
      rw [List.reverse_cons]
      exact h.concat h' htarget
    have hgo {s' : State} (h' : Extends s s') (hs' : s'.Sound B code) := ih (h.later hs h') hs'
    have hskip : Reaches False B code s (ItemsLie B code lo Target.toExpr Target.occurrences)
        ((advance >>= fun _ => parseTargets nameGas gas targets) s) :=
      .step (hgo (.advance s) hs.advance)
    have hbad : Reaches False B code s (ItemsLie B code lo Target.toExpr Target.occurrences)
        ((advance >>= fun _ => report (.inTargets s.current.text) s.current.span >>= fun _ =>
          parseTargets nameGas gas targets) s) :=
      .step (.bind (.report _ hs.advance hs.current_valid rfl) fun _ _ h₂ hs₂ _ =>
        hgo ((Extends.advance s).trans h₂) hs₂)
    refine .ite (fun _ => .pure hs h) (fun _ => .read rfl ?_)
    cases hkind : s.current.kind with
    | identifier | native =>
      have hname : s.current.isName = true := by rw [Token.isName, hkind]; rfl
      refine .bind (parseName_lies (parseExpression_lies nameGas) nameGas hname hs) ?_
      intro use s₁ h₁ hs₁ huse
      exact ih (hmore (.name use) h₁ (huse.lies [⟨use.root, use.rootSpan, .binding⟩] (by simp)).placed) hs₁
    | sign sign =>
      cases sign with
      | tilde | bang =>
        have hsign := hs.current_ended (by simp [hkind]) (.refl _)
        exact .step (ih (hmore (.ignored s.current.span) (.advance s) (.ignored hsign)) hs.advance)
      | comma => exact hskip
      | _ => exact hbad
    | newline => exact hskip
    | _ => exact hbad

theorem parseManyAssignment_lies (hs : s.Sound B code) :
    Reaches False B code s (StmtLies B code s.here) (parseManyAssignment gas s) := by
  have hopening := hs.current_between (.refl _)
  refine .step (.bind (parseTargets_lie gas gas (.nil (Position.le_refl _)) hs.advance) ?_)
  intro targets s₂ h₂ hs₂ htargets
  refine .bind (.expectSign _ _ hs₂ hs.current_valid rfl) fun _ s₃ h₃ hs₃ _ => .step ?_
  have hequals := hs₃.current_between (.refl _)
  have hmid := hs.advance.here_le (h₂.trans h₃)
  have hopened := hequals.mono (Position.le_trans hopening.le hmid) (Position.le_refl _)
  refine .bind (parseAssigned_lies hequals.toValid hs₃.advance) fun value s₅ h₅ hs₅ hvalue => ?_
  have hspan := hvalue.between (hopening.join (hequals.mono hmid (Position.le_refl _)))
  refine .bind (finishAssignment_keeps hspan.toValid hs₅) fun silent s₆ h₆ hs₆ _ => .pure hs₆ ?_
  have hparts := (htargets.wider hopening.le).append (h₃.trans ((Extends.advance s₃).trans h₅))
    (hvalue.lies.placed.wider (hs₂.here_le (h₃.trans (.advance s₃))))
  refine Built.later ?_ hs₅ h₆
  rw [Stmt.nodes, Stmt.occurrences, List.cons_append]
  refine Lies.node (by simp [Node.place?]) hspan
    ⟨⟨List.forall_mem_nil _, hvalue.lies.spelled, List.forall_mem_nil _⟩, .of_encloses ?_ (Node.forall_name _ rfl),
      trivial, hvalue.ends_or_overhangs hs₃ targets s.here silent⟩ hparts
  refine hvalue.encloses hopened (List.forall_mem_map.mpr fun target htarget => ?_)
  have htarget := ItemsLie.span htargets htarget
  refine ⟨Position.le_trans hopening.le htarget.lo_le, Position.le_trans htarget.le_hi ?_⟩
  exact Position.le_trans (hs₂.here_le h₃) hequals.start_le

theorem standAlone_lies (silent : Bool) {e : Expr} (h : ExprLies B code lo e s) :
    StmtLies B code lo (standAlone silent e) s := by
  cases e with
  | name use => exact .call h.placed
  | _ => exact .expr h

theorem parseExpressionStatement_lies (hs : s.Sound B code) :
    Reaches L B code s (OptionStmtLies B code s.here) (parseExpressionStatement gas s) := by
  refine .read rfl (.bind (parseExpression_lies gas 0 s hs) fun value s₁ _ hs₁ hvalue => ?_)
  cases value with
  | none =>
    refine .read rfl (.read rfl (.ite (fun hmore => ?_) (fun _ => ?_)))
    · have hkind : s₁.current.kind ≠ .newline := by
        intro hkind
        simp [hkind, endsStatement, isSeparator] at hmore
      refine .next hkind ?_
      have hproblem := Problem.isOpenString_ofToken s₁.current
      refine .bind (.report _ hs₁.advance hs₁.current_valid hproblem) fun _ s₃ _ hs₃ _ => ?_
      exact .bind (.synchronize hs₃) fun _ _ _ hs₄ _ => .pure hs₄ .none
    · exact .bind (.synchronize hs₁) fun _ _ _ hs₂ _ => .pure hs₂ .none
  | some value =>
    refine .bind (.finishStatement hs₁) fun silent s₂ h₂ hs₂ _ => .pure hs₂ (.some ?_)
    exact standAlone_lies silent (hvalue.later hs₁ h₂)

/-! Jumps and declarations. -/

theorem parseJump_lies (jump : Jump) (hkind : isNewlineOrEnd s.current.kind = false) (hs : s.Sound B code) :
    Reaches L B code s (StmtLies B code s.here) (parseJump jump s) := by
  refine .next (kind_ne_newline_of_more hkind)
    (.bind (.finishStatement hs.advance) fun _ _ h₂ hs₂ _ => .pure hs₂ ?_)
  have hspan := hs.current_ended (kind_ne_eof_of_more hkind) h₂
  rw [StmtLies, Stmt.nodes, Stmt.occurrences]
  exact .within hspan (.bare rfl rfl rfl) (List.forall_mem_nil _) (.nil hspan.le) rfl rfl

/-- A name that is introduced at the current token. -/
theorem VariablesLie.add {names : List Variable} (h : VariablesLie B code lo names s)
    (hs : s.Sound B code) (hname : s.current.isName = true) (h' : Extends (advance s).2 s') :
    VariablesLie B code lo (names ++ [⟨s.current.text, s.current.span⟩]) s' :=
  ItemsLie.concat h ((Extends.advance s).trans h') (.variable (hs.current_standsIn hname)
    (hs.current_ended (Token.kind_ne_of_isName hname) h') (hs.not_le_name hname h'))

/-- The declared names so far. The last one comes first, and it ends behind the others. -/
structure DeclaredLie (B : Position → Prop) (code : Code) (lo : Position) (names : List Variable)
    (s : State) : Prop where
  lie : VariablesLie B code lo names.reverse s
  ends : ∀ last ∈ names.head?, ∀ v ∈ names, v.span.stop ≤ last.span.stop

theorem DeclaredLie.later {names : List Variable} (h : DeclaredLie B code lo names s) (hs : s.Sound B code)
    (hextends : Extends s s') : DeclaredLie B code lo names s' :=
  ⟨h.lie.later hs hextends, h.ends⟩

theorem DeclaredLie.add {names : List Variable} (h : DeclaredLie B code lo names s) (hs : s.Sound B code)
    (hname : s.current.isName = true) (h' : Extends (advance s).2 s') :
    DeclaredLie B code lo (⟨s.current.text, s.current.span⟩ :: names) s' := by
  refine ⟨?_, ?_⟩
  · rw [List.reverse_cons]
    exact VariablesLie.add h.lie hs hname h'
  · rintro _ ⟨⟩
    refine List.forall_mem_cons.mpr ⟨Position.le_refl _, fun v hv => ?_⟩
    exact Position.le_trans (ItemsLie.span h.lie (List.mem_reverse.mpr hv)).le_hi hs.current_valid.start_le

theorem parseDeclared_lie (exprGas gas : Nat) {names : List Variable} (h : DeclaredLie B code lo names s)
    (hs : s.Sound B code) :
    Reaches L B code s (DeclaredLie B code lo) (parseDeclared exprGas gas names s) := by
  induction gas generalizing s names with
  | zero => exact .outOfGas hs (h.later hs (.fault _ s))
  | succ gas ih =>
    refine .read rfl (.ite (fun _ => .pure hs h) (fun hname => ?_))
    replace hname : s.current.isName = true := by simpa using hname
    have hs₁ := hs.advance
    refine .next (kind_ne_newline_of_isName hname) ?_
    refine .ite (fun hequals => .next (kind_ne_newline_of_is hequals) ?_)
      (fun _ => ih (h.add hs hname (.refl _)) hs₁)
    refine .bind (parseExpression_lies exprGas 0 _ hs₁.advance) fun value s₃ h₃ hs₃ _ => ?_
    have hto₃ := (Extends.advance (advance s).2).trans h₃
    refine .ite (fun _ => ?_) (fun _ => ih (h.add hs hname hto₃) hs₃)
    exact .bind (.expectedExpression hs₃ hs₁.current_valid) fun _ _ h₄ hs₄ _ =>
      ih (h.add hs hname (hto₃.trans h₄)) hs₄

theorem parseDeclaration_lies (storage : Storage) (hkind : isNewlineOrEnd s.current.kind = false)
    (hs : s.Sound B code) :
    Reaches L B code s (StmtLies B code s.here) (parseDeclaration gas storage s) := by
  have hkeyword := hs.current_between (.refl _)
  refine .next (kind_ne_newline_of_more hkind)
    (.bind (parseDeclared_lie gas gas ⟨.nil (Position.le_refl _), by simp⟩ hs.advance) ?_)
  intro names s₂ h₂ hs₂ hnames
  refine .bind (.finishStatement hs₂) fun _ s₃ h₃ hs₃ _ => .pure hs₃ (Built.later ?_ hs₂ h₃)
  rw [Stmt.nodes, Stmt.occurrences]
  refine .within ?_ (.of_introduced rfl rfl hnames.lie.standsIn) ?_ (hnames.lie.wider hkeyword.le) rfl rfl
  · cases names with
    | nil => exact hs.current_ended (kind_ne_eof_of_more hkind) h₂
    | cons v names => exact .join hkeyword (ItemsLie.span hnames.lie (a := v) (by simp))
  · rw [Node.parts, List.forall_mem_map, List.forall_mem_map]
    intro v hv
    refine ⟨Position.le_trans hkeyword.le (ItemsLie.span hnames.lie hv).lo_le, ?_⟩
    cases names with
    | nil => contradiction
    | cons last names => exact hnames.ends last rfl v (List.mem_reverse.mp hv)

end MatrixScript.Parser
