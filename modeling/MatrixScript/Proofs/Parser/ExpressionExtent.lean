import MatrixScript.Proofs.Parser.Formation

/-! An expression lies between the places where the parser starts and where it stops reading it. Its nodes
enclose their parts, apart from named arguments behind an open bracket. -/
namespace MatrixScript

variable {exprGas : Nat} {group : Group} {first stop : Position} {args : List Expr}

/-- One more field, with its point, makes the name longer. -/
theorem NameUse.length_name_concat (root : String) (fields : List String) (field : String) :
    (".".intercalate (root :: (fields ++ [field]))).length =
      (".".intercalate (root :: fields)).length + 1 + field.length := by
  have hpoint : ".".length = 1 := rfl
  induction fields generalizing root with
  | nil => simp [String.intercalate_cons_cons, hpoint]
  | cons first fields ih =>
    rw [List.cons_append, String.intercalate_cons_cons, String.intercalate_cons_cons,
      String.length_append, String.length_append, String.length_append, String.length_append, ih]
    omega

/-- Behind a point and a field, there was room for the longer name. -/
theorem NameUse.nameSpan_stop_le (use : NameUse Expr) {reached : Position}
    (h : use.nameSpan.stop ≤ reached) (field : String) (stop : Position) :
    (NameUse.nameSpan
      { use with fields := use.fields ++ [field], span := ⟨use.span.start, stop⟩ }).stop ≤
        (reached.right 1).right field.length := by
  have hlonger := Position.right_le_right h (1 + field.length)
  simpa only [nameSpan, name, length_name_concat, Position.right_right, Nat.add_assoc] using hlonger

namespace Parser

variable {L : Prop} {B : Position → Prop} {code : Code} {s s' : State} {sub : SubParser}
  {lo start : Position}

/-- The parser for the expressions inside others. -/
def SubLies (L : Prop) (B : Position → Prop) (code : Code) (sub : SubParser) : Prop :=
  ∀ least s, s.Sound B code → Reaches L B code s (OptionLies B code s.here) (sub least s)

/-! Names and their arguments. -/

namespace UseLies

variable {use : NameUse Expr}

/-- The arguments so far end before the next token. -/
theorem arg_stop_le {Q : Node → Prop} (h : UseLies Q B code lo use s) :
    ∀ arg ∈ use.args.getD [], arg.span.stop ≤ s.here := by
  obtain ⟨mid, _, hargs⟩ := h.args
  exact fun arg harg => (Built.span hargs (mem_exprNodes.mpr ⟨arg, harg, arg.mem_nodes⟩)).le_hi

theorem addField (h : UseLies (Node.Spelled code) B code lo use s) (hs : s.Sound B code)
    (hextends : Extends s s') {field : Token} (hmem : field ∈ code.all) (hname : field.isName = true)
    (hfield : field.span.Ended B code s.here s'.here)
    (hlonger : (NameUse.nameSpan
      { use with fields := use.fields ++ [field.text], span := ⟨use.span.start, field.span.stop⟩ }).stop ≤
        field.span.stop) :
    UseLies (Node.Spelled code) B code lo
      { use with fields := use.fields ++ [field.text], span := ⟨use.span.start, field.span.stop⟩ } s' := by
  obtain ⟨mid, hmid, hargs⟩ := h.args
  obtain ⟨t, ht, hstarts, hnative⟩ := h.own.1.root
  have hspelled : NameUse.Spelled code.all
      { use with fields := use.fields ++ [field.text], span := ⟨use.span.start, field.span.stop⟩ } := by
    refine ⟨⟨t, ht, ⟨hstarts.names, hstarts.start_eq, fun hnil => ?_⟩, hnative⟩, ?_, h.own.1.command⟩
    · exact absurd hnil (List.concat_ne_nil _ _)
    · exact List.forall_mem_append.mpr ⟨h.own.1.fields, List.forall_mem_singleton.mpr
        ⟨field, hmem, hname, rfl⟩⟩
  have hbefore : ∀ arg ∈ use.args.getD [], arg.span.stop ≤ field.span.start :=
    fun arg harg => Position.le_trans (h.arg_stop_le arg harg) hfield.lo_le
  refine ⟨.join h.span.toBetween hfield, h.root, ⟨hspelled, fun _ => ?_, fun hnil => ?_⟩, fun arg harg => ?_,
    mid, hmid, hargs.later hs hextends⟩
  · refine ⟨field, hmem, ⟨⟨field.text, ?_, hname, rfl⟩, ⟨?_, Position.le_refl _⟩, fun arg harg => ?_⟩, hlonger⟩
    · exact List.getLast?_concat
    · exact Position.le_trans h.span.start_le (Position.le_trans h.span.le_hi hfield.lo_le)
    · exact .inl (hbefore arg harg)
  · exact absurd hnil (List.concat_ne_nil _ _)
  · exact .inl (Position.le_trans (hbefore arg harg) hfield.start_le)

theorem addArgs (h : UseLies (Node.Spelled code) B code lo use s) (hextends : Extends s s')
    {opening : Position} (hargs : ExprsLie B code s.here args s')
    (hstop : Span.Ended B code s.here s'.here ⟨opening, stop⟩)
    (hends : ∀ arg ∈ args, arg.span.stop ≤ stop ∨ (Node.expr (.name
      { use with args := some (use.args.getD [] ++ args), span := ⟨use.span.start, stop⟩ })).Escapes
        s'.Reports code.eof (.expr arg)) (hlisted : NameUse.Listed code
      { use with args := some (use.args.getD [] ++ args), span := ⟨use.span.start, stop⟩ }) :
    UseLies (Node.Spelled code) B code lo
      { use with args := some (use.args.getD [] ++ args), span := ⟨use.span.start, stop⟩ } s' := by
  obtain ⟨mid, hmid, hfirst⟩ := h.args
  obtain ⟨t, ht, hstarts, hnative⟩ := h.own.1.root
  have hbehind : s.here ≤ stop := Position.le_trans hstop.lo_le hstop.start_le
  refine ⟨.join h.span.toBetween hstop, h.root, ⟨⟨⟨t, ht, ⟨hstarts.names, hstarts.start_eq, nofun⟩, hnative⟩,
    h.own.1.fields, h.own.1.command⟩, fun hfields => ?_, hlisted⟩, ?_, mid, hmid,
    ExprsLie.append hfirst hextends hargs⟩
  · obtain ⟨last, hlast, ⟨hnames, hencloses, hapart⟩, hreach⟩ := h.own.2.1 hfields
    have hbefore : last.span.stop ≤ s.here := Position.le_trans hencloses.2 h.span.le_hi
    refine ⟨last, hlast, ⟨hnames, ⟨hencloses.1, Position.le_trans hbefore hbehind⟩, ?_⟩, hreach⟩
    refine List.forall_mem_append.mpr ⟨hapart, fun arg harg => ?_⟩
    exact .inr (Position.le_trans hbefore (hargs.span harg).lo_le)
  · refine List.forall_mem_append.mpr ⟨fun arg harg => .inl ?_, hends⟩
    exact Position.le_trans (h.arg_stop_le arg harg) hbehind

end UseLies

theorem parseNamedValue_lies (hsub : SubLies L B code sub) (hname : s.current.isName = true)
    (hequals : (s.ahead 1).is .equals = true) (hs : s.Sound B code) :
    Reaches L B code s (fun value => ExprLies B code s.here (.named value)) (parseNamedValue sub s) := by
  rw [← advance_current] at hequals
  have hs₁ := hs.advance
  refine .next (kind_ne_newline_of_isName hname) (.next (kind_ne_newline_of_is hequals) ?_)
  refine .bind (hsub 0 _ hs₁.advance) fun value s₃ h₃ hs₃ hvalue => ?_
  refine .bind (.expectValue value _ hs₃ hs₁.current_valid rfl) fun _ s₄ h₄ hs₄ _ => .pure hs₄ ?_
  rw [ExprLies, Expr.occurrences, namedOccurrences_eq, ← List.singleton_append]
  exact Built.named (hs.current_standsIn hname) (hs.current_between (.refl _))
    (hs₁.current_ended (kind_ne_of_sign hequals) (.refl _)) (hvalue.later hs₃ h₄) (fun _ => id) (by simp)

/-- The arguments behind a bracket so far, the last one first, and the place where the list ends. A named
argument does not move it. -/
structure ArgumentsLie (B : Position → Prop) (code : Code) (first start : Position) (args : List Expr)
    (stop : Position) (s : State) : Prop where
  lie : ExprsLie B code first args.reverse s
  extent : Span.Ended B code start s.here ⟨start, stop⟩
  ends : ∀ arg ∈ args, arg.span.stop ≤ stop ∨ ∃ value, arg = .named value ∧ stop ≤ value.span.start

namespace ArgumentsLie

theorem later (h : ArgumentsLie B code first start args stop s) (hs : s.Sound B code)
    (hextends : Extends s s') : ArgumentsLie B code first start args stop s' :=
  ⟨h.lie.later hs hextends, h.extent.mono (Position.le_refl _) (hs.here_le hextends), h.ends⟩

theorem stop_le (h : ArgumentsLie B code first start args stop s) : ∀ arg ∈ args, arg.span.stop ≤ s.here :=
  fun _ harg => (h.lie.span (List.mem_reverse.mpr harg)).le_hi

theorem addNamed (h : ArgumentsLie B code first start args stop s) (hs : s.Sound B code)
    (hextends : Extends s s') {value : NamedValue Expr} (hvalue : ExprLies B code s.here (.named value) s') :
    ArgumentsLie B code first start (.named value :: args) stop s' := by
  refine ⟨?_, (h.later hs hextends).extent, List.forall_mem_cons.mpr ⟨.inr ⟨value, rfl, ?_⟩, h.ends⟩⟩
  · rw [List.reverse_cons]
    exact h.lie.append hextends hvalue.singleton
  · exact Position.le_trans h.extent.le_hi hvalue.span.lo_le

theorem addArgument (h : ArgumentsLie B code first start args stop s) (hextends : Extends s s') {arg : Expr}
    (harg : ExprLies B code s.here arg s') : ArgumentsLie B code first start (arg :: args) arg.span.stop s' := by
  refine ⟨?_, .join h.extent.toBetween harg.span, List.forall_mem_cons.mpr ⟨.inl (Position.le_refl _), ?_⟩⟩
  · rw [List.reverse_cons]
    exact h.lie.append hextends harg.singleton
  · intro other hother
    exact .inl (Position.le_trans (h.stop_le other hother) (Position.le_trans harg.span.lo_le harg.span.start_le))

end ArgumentsLie

theorem skipArgument_keeps (group : Group) (hs : s.Sound B code) :
    Reaches L B code s (fun _ _ => True) (skipArgument group s) :=
  .skipUntil (fun _ => by simp [isNewlineOrEnd]) hs

theorem parseArgument_lies (hsub : SubLies L B code sub) (group : Group)
    (h : ArgumentsLie B code first start args stop s) (hkind : s.current.kind ≠ .newline)
    (hs : s.Sound B code) :
    Reaches L B code s (fun a => ArgumentsLie B code first start (a.1.toList ++ args) a.2)
      (parseArgument sub group stop s) := by
  refine .read rfl (.read rfl (.read rfl (.ite (fun hnamed => ?_) (fun _ => ?_))))
  · change isNamedValue s.current (s.ahead 1) (s.ahead 2) = true at hnamed
    simp only [isNamedValue, Bool.and_eq_true] at hnamed
    exact .bind (parseNamedValue_lies hsub hnamed.1.1 hnamed.1.2 hs)
      fun value s₁ h₁ hs₁ hvalue => .pure hs₁ (h.addNamed hs h₁ hvalue)
  · refine .read rfl (.bind (hsub 0 s hs) fun arg s₁ h₁ hs₁ harg => ?_)
    cases arg with
    | some arg => exact .pure hs₁ (h.addArgument h₁ harg)
    | none =>
      refine .read rfl (.ite (fun _ => ?_) (fun hpos => .ite (fun _ => ?_) (fun _ => ?_)))
      · exact .bind (skipArgument_keeps group hs₁) fun _ _ h₂ hs₂ _ => .pure hs₂ (h.later hs (h₁.trans h₂))
      · exact .bind (.reportHere _ hs₁ rfl) fun _ _ h₂ hs₂ _ => .pure hs₂ (h.later hs (h₁.trans h₂))
      · have hsame := h₁.current_eq (by simpa using hpos)
        refine .next (hsame ▸ hkind) (.bind (.report _ hs₁.advance hs₁.current_valid rfl) ?_)
        intro _ s₃ h₃ hs₃ _
        refine .bind (skipArgument_keeps group hs₃) fun _ _ h₄ hs₄ _ => .pure hs₄ (h.later hs ?_)
        exact h₁.trans ((Extends.advance s₁).trans (h₃.trans h₄))

/-- A whole list. Only a list that is not closed can end before the end of an argument. -/
structure ListLies (B : Position → Prop) (code : Code) (first : Position) (group : Group) (bracket : Span)
    (args : List Expr) (stop : Position) (s : State) : Prop where
  lie : ExprsLie B code first args s
  extent : Span.Ended B code bracket.stop s.here ⟨bracket.stop, stop⟩
  ends : ∀ arg ∈ args, arg.span.stop ≤ stop ∨ s.Reports ((Problem.groupOpen group).toDiagnostic bracket) ∧
    ∃ value, arg = .named value ∧ stop ≤ value.span.start

theorem ListLies.later {bracket : Span} (h : ListLies B code first group bracket args stop s)
    (hs : s.Sound B code) (hextends : Extends s s') :
    ListLies B code first group bracket args stop s' :=
  ⟨h.lie.later hs hextends, h.extent.mono (Position.le_refl _) (hs.here_le hextends),
    fun arg harg => (h.ends arg harg).imp_right fun hopen => ⟨hextends.reports hopen.1, hopen.2⟩⟩

/-- The list is not closed, and this is reported. -/
theorem ArgumentsLie.listLies {bracket : Span}
    (h : ArgumentsLie B code first bracket.stop args stop s)
    (hopen : s.Reports ((Problem.groupOpen group).toDiagnostic bracket)) :
    ListLies B code first group bracket args.reverse stop s :=
  ⟨h.lie, h.extent, fun arg harg => (h.ends arg (List.mem_reverse.mp harg)).imp_right (⟨hopen, ·⟩)⟩

theorem parseArgumentsFrom_lies (hsub : SubLies L B code sub) (group : Group) {bracket : Span}
    (hbracket : bracket.Valid B) (gas : Nat)
    (h : ArgumentsLie B code first bracket.stop args stop s) (hs : s.Sound B code) :
    Reaches L B code s (fun a => ListLies B code first group bracket a.1 a.2)
      (parseArgumentsFrom sub group bracket gas args stop s) := by
  induction gas generalizing s args stop with
  | zero =>
    refine .outOfGas hs ((h.later hs (.fault _ s)).listLies fun hnone => ?_)
    exact absurd hnone (List.cons_ne_nil _ _)
  | succ gas ih =>
    refine .ite (fun hclosing => .next (kind_ne_newline_of_is hclosing) ?_)
      (fun _ => .ite (fun _ => ?_) (fun hend => ?_))
    · have hlast := hs.current_ended (kind_ne_of_sign hclosing) (.refl _)
      refine .pure hs.advance ⟨h.lie.later hs (.advance s), .join h.extent.toBetween hlast, fun arg harg => ?_⟩
      exact .inl (Position.le_trans (h.stop_le arg (List.mem_reverse.mp harg)) hlast.start_le)
    · refine ⟨.report _ _ s, hs.report hbracket rfl, ?_, fun _ => .still rfl⟩
      exact (h.later hs (.report _ _ s)).listLies (report_reports _ _ s)
    · have hkind := kind_ne_newline_of_more (Bool.eq_false_iff.mpr hend)
      refine .bind (parseArgument_lies hsub group h hkind hs) fun arg s₁ _ hs₁ harg => ?_
      refine .bind (.accepts rfl hs₁) fun _ s₂ h₂ hs₂ _ => ?_
      have hnext {s' : State} (h' : Extends s₁ s') (hs' : s'.Sound B code) := ih (harg.later hs₁ h') hs'
      refine .ite (fun _ => hnext h₂ hs₂) (fun _ => .ite (fun _ => hnext h₂ hs₂) (fun _ => ?_))
      refine .bind (.reportHere _ hs₂ rfl) fun _ s₃ h₃ hs₃ _ => ?_
      refine .bind (skipArgument_keeps group hs₃) fun _ s₄ h₄ hs₄ _ => ?_
      refine .bind (.accepts rfl hs₄) fun _ s₅ h₅ hs₅ _ => hnext ?_ hs₅
      exact h₂.trans (h₃.trans (h₄.trans h₅))

/-- The arguments behind a name. -/
theorem parseArguments_lies (hsub : SubLies L B code sub) (gas : Nat) (group : Group)
    (hkind : isNewlineOrEnd s.current.kind = false) (hs : s.Sound B code) :
    Reaches L B code s (fun a => ListLies B code s.here group s.current.span a.1 a.2)
      (parseArguments gas sub group s) := by
  have hopening := hs.current_ended (kind_ne_eof_of_more hkind) (.refl _)
  refine .next (kind_ne_newline_of_more hkind) (.inside (fun a s₁ s₂ h₂ hs₁ h => h.later hs₁ h₂) ?_)
  exact parseArgumentsFrom_lies hsub group hs.current_valid gas
    ⟨.nil hopening.le, hopening.atStop, List.forall_mem_nil _⟩ (hs.advance.groups _)

theorem argumentGroup?_more {kind : Token.Kind} (h : argumentGroup? kind = some group) :
    isNewlineOrEnd kind = false := by
  cases kind with
  | newline | eof => contradiction
  | _ => rfl

/-- The argument lists of a name up to the present token. -/
def State.BehindLists (code : Code) (gas exprGas : Nat) (use : NameUse Expr) (s : State) : Prop :=
  use.fields = [] → ∃ s₀ lists, s₀.code = code ∧ s₀.previous.span.start = use.span.start ∧
    ReadsLists gas exprGas s₀ lists s ∧ use.args.getD [] = lists.flatten

theorem State.BehindLists.next {use : NameUse Expr} {gas : Nat} {s₁ : State}
    (h : s.BehindLists code gas exprGas use)
    (hrun : parseArguments gas (parseExpression exprGas) group s = ((args, stop), s₁)) :
    NameUse.Listed code
        { use with args := some (use.args.getD [] ++ args), span := ⟨use.span.start, stop⟩ } ∧
      s₁.BehindLists code gas exprGas
        { use with args := some (use.args.getD [] ++ args), span := ⟨use.span.start, stop⟩ } := by
  have hall (hfields : use.fields = []) : ∃ s₀ lists, s₀.code = code ∧
      s₀.previous.span.start = use.span.start ∧ ReadsLists gas exprGas s₀ (lists ++ [args]) s₁ ∧
        use.args.getD [] ++ args = (lists ++ [args]).flatten := by
    obtain ⟨s₀, lists, hcode, hstart, hlists, hargs⟩ := h hfields
    refine ⟨s₀, lists, hcode, hstart, .next hlists hrun, ?_⟩
    rw [List.flatten_append, List.flatten_singleton, hargs]
  refine ⟨fun hfields _ all hmem => ?_, fun hfields => ?_⟩
  · obtain ⟨s₀, lists, hcode, hstart, hlists, hargs⟩ := hall hfields
    obtain rfl := Option.some.inj hmem
    exact ⟨_, ⟨List.concat_ne_nil _ _, gas, exprGas, s₀, s₁, hcode, hstart, hlists⟩, hargs⟩
  · obtain ⟨s₀, lists, hlists⟩ := hall hfields
    exact ⟨s₀, _, hlists⟩

/-- The name so far takes no more columns than were read. -/
theorem parseNameFrom_lies (hsub : SubLies L B code (parseExpression exprGas)) (listGas gas : Nat)
    {use : NameUse Expr} (huse : UseLies (Node.Spelled code) B code lo use s)
    (hreach : use.nameSpan.stop ≤ s.previous.span.stop)
    (hlists : s.BehindLists code listGas exprGas use) (hs : s.Sound B code) :
    Reaches L B code s (UseLies (Node.Spelled code) B code lo)
      (parseNameFrom listGas (parseExpression exprGas) gas use s) := by
  induction gas generalizing s use with
  | zero => exact .outOfGas hs (huse.later hs (.fault _ s))
  | succ gas ih =>
    refine .read rfl (.read rfl (.read rfl (.ite (fun hfield => ?_) (fun _ => ?_))))
    · change isField s.previous s.current (s.ahead 1) = true at hfield
      unfold isField at hfield
      simp only [Bool.and_eq_true, ← advance_current] at hfield
      obtain ⟨⟨⟨hperiod, hbefore⟩, hname⟩, hadjacent⟩ := hfield
      have hs₁ := hs.advance
      have hmem := hs₁.current_mem
      have hkind := Token.kind_ne_of_isName hname
      have hlast := (hs₁.current_ended hkind (.refl _)).mono (hs.here_le (.advance s)) (Position.le_refl _)
      have hlonger := use.nameSpan_stop_le hreach (advance s).2.current.text
        (advance s).2.current.span.stop
      rw [beq_iff_eq.mp hbefore, ← hs.laid.period_stop _ hs.current_mem hperiod,
        beq_iff_eq.mp hadjacent, ← hs₁.laid.name_stop _ hmem hname] at hlonger
      have hgo := (Extends.advance s).trans (.advance (advance s).2)
      refine .next (kind_ne_newline_of_is hperiod) (.next (kind_ne_newline_of_isName hname)
        (ih (huse.addField hs hgo hmem hname hlast hlonger) ?_ ?_ hs₁.advance))
      · rwa [advance_previous (hs₁.rest_ne_nil hkind)]
      · exact fun hnil => absurd hnil (List.concat_ne_nil _ _)
    · cases hgroup : argumentGroup? s.current.kind with
      | none => exact .pure hs huse
      | some group =>
        refine .read rfl (.ite (fun _ => .pure hs huse) (fun _ => ?_))
        refine .run (parseArguments_lies hsub listGas group (argumentGroup?_more hgroup) hs) ?_
        intro args s₁ hrun h₁ hs₁ hargs
        obtain ⟨hlisted, hmore⟩ := hlists.next hrun
        have hopening := hs.current_valid.start_le
        refine ih (huse.addArgs h₁ hargs.lie (hargs.extent.mono hopening (Position.le_refl _)) ?_ hlisted) ?_
          hmore hs₁
        · refine fun arg harg => (hargs.ends arg harg).imp_right ?_
          rintro ⟨hopen, value, rfl, hbehind⟩
          refine .argument hopen ⟨?_, hargs.extent.start_le⟩ hbehind
          exact Position.le_trans huse.span.start_le huse.span.le_hi
        · exact Position.le_trans hreach (hs.previous_le_previous hs₁ h₁)

theorem parseName_lies (hsub : SubLies L B code (parseExpression exprGas)) (gas : Nat)
    (hname : s.current.isName = true) (hs : s.Sound B code) :
    Reaches L B code s (UseLies (Node.Spelled code) B code s.here)
      (parseName gas (parseExpression exprGas) s) := by
  have hkind := Token.kind_ne_of_isName hname
  have hstop := hs.laid.name_stop _ hs.current_mem hname
  have hroot : (⟨s.current.span.start, s.current.span.start.right s.current.text.length⟩ : Span) =
      s.current.span := by rw [← hstop]
  have hrest := hs.rest_ne_nil hkind
  refine .next (kind_ne_newline_of_isName hname) (parseNameFrom_lies hsub gas gas
    ⟨hs.current_ended hkind (.refl _), ?_, ⟨⟨⟨s.current, hs.current_mem, ?_, rfl⟩, List.forall_mem_nil _, rfl⟩,
      absurd rfl, fun _ _ => nofun⟩, List.forall_mem_nil _, ?_⟩ ?_ ?_ hs.advance)
  · rw [NameUse.rootSpan, hroot]
    exact hs.current_valid
  · exact ⟨⟨hname, rfl⟩, rfl, fun _ _ => rfl⟩
  · exact ⟨_, hs.not_here_le hrest, .nil (Position.le_refl _)⟩
  · rw [advance_previous hrest, NameUse.nameSpan, NameUse.name,
      String.intercalate_singleton, hroot]
    exact Position.le_refl _
  · refine fun _ => ⟨_, [], hs.advance.code_eq, ?_, .none _, rfl⟩
    rw [advance_previous hrest]

/-! Brackets. -/

theorem parseGrouping_lies (hsub : SubLies L B code sub) (hkind : s.current.kind ≠ .newline)
    (hs : s.Sound B code) :
    Reaches L B code s (OptionLies B code s.here) (parseGrouping sub s) := by
  have hread : Reaches L B code (advance s).2 (OptionLies B code (advance s).2.here)
      (inside .paren (sub 0) (advance s).2) :=
    .inside (fun _ _ _ h hs₁ he => he.later hs₁ h) (hsub 0 _ (hs.advance.groups _))
  refine .next hkind (.bind hread fun inner s₂ h₂ hs₂ hinner => ?_)
  replace hinner : OptionLies B code s.here inner s₂ := hinner.wider (hs.here_le (.advance s))
  cases inner with
  | none =>
    exact .bind (.expectedExpression hs₂ hs.current_valid) fun _ s₃ h₃ hs₃ _ => .pure hs₃ (hinner.later hs₂ h₃)
  | some inner =>
    exact .bind (.expectSign _ _ hs₂ hs.current_valid rfl) fun _ s₃ h₃ hs₃ _ => .pure hs₃ (hinner.later hs₂ h₃)

/-- The elements of a literal so far, and the end of its span. -/
structure MatrixRows.Lies (B : Position → Prop) (code : Code) (start : Position) (m : MatrixRows)
    (s : State) : Prop where
  rows : ExprsLie B code start m.toRows.flatten s
  extent : Span.Ended B code start s.here ⟨start, m.stop⟩
  ends : ∀ e ∈ m.toRows.flatten, e.span.stop ≤ m.stop
  rows_ne : ∀ row ∈ m.rows, row ≠ []

namespace MatrixRows.Lies

variable {m : MatrixRows}

theorem later (h : m.Lies B code start s) (hs : s.Sound B code) (hextends : Extends s s') :
    m.Lies B code start s' :=
  ⟨h.rows.later hs hextends, h.extent.mono (Position.le_refl _) (hs.here_le hextends), h.ends, h.rows_ne⟩

theorem endRow (h : m.Lies B code start s) : m.endRow.Lies B code start s := by
  refine ⟨?_, h.extent, ?_, ?_⟩
  · rw [flatten_endRow]
    exact h.rows
  · rw [flatten_endRow]
    exact h.ends
  · by_cases hrow : m.row = []
    · simpa [MatrixRows.endRow, hrow] using h.rows_ne
    · simpa [MatrixRows.endRow, hrow] using h.rows_ne

/-- The elements so far end before what follows them. -/
theorem stop_le (h : m.Lies B code start s) {last : Span} (hlast : last.Ended B code s.here s'.here) :
    ∀ e ∈ m.toRows.flatten, e.span.stop ≤ last.stop :=
  fun _ he => Position.le_trans (h.rows.span he).le_hi (Position.le_trans hlast.lo_le hlast.start_le)

theorem push (h : m.Lies B code start s) (hextends : Extends s s') {e : Expr}
    (he : ExprLies B code s.here e s') : (m.push e).Lies B code start s' := by
  refine ⟨?_, .join h.extent.toBetween he.span, ?_, h.rows_ne⟩
  · rw [flatten_push]
    exact h.rows.append hextends he.singleton
  · rw [flatten_push]
    exact List.forall_mem_append.mpr ⟨h.stop_le he.span, List.forall_mem_singleton.mpr (Position.le_refl _)⟩

end MatrixRows.Lies

theorem parseMatrixFrom_lies (hsub : SubLies L B code sub) (kind : MatrixKind) {openSpan : Span}
    (hopen : openSpan.Valid B) (gas : Nat) {m : MatrixRows} (hm : m.Lies B code start s)
    (hs : s.Sound B code) :
    Reaches L B code s (fun m' => m'.Lies B code start) (parseMatrixFrom sub kind openSpan gas m s) := by
  induction gas generalizing s m with
  | zero => exact .outOfGas hs (hm.later hs (.fault _ s))
  | succ gas ih =>
    refine .ite (fun hclosing => .next (kind_ne_newline_of_is hclosing) ?_)
      (fun _ => .read rfl (.ite (fun _ => ?_) (fun hend => ?_)))
    · have hlast := hs.current_ended (kind_ne_of_sign hclosing) (.refl _)
      exact .pure hs.advance ⟨hm.rows.later hs (.advance s), .join hm.extent.toBetween hlast, hm.stop_le hlast,
        hm.rows_ne⟩
    · exact .bind (.report _ hs hopen rfl) fun _ _ h₁ hs₁ _ => .pure hs₁ (hm.later hs h₁)
    · refine .bind (.acceptsRow (Bool.eq_false_iff.mpr hend) hs) fun _ s₁ h₁ hs₁ hrow => ?_
      have hm₁ := hm.later hs h₁
      refine .ite (fun _ => ih hm₁.endRow hs₁) (fun hsame => .ite (fun _ => ?_) (fun _ => ?_)) <;>
        have hkind := hrow (Bool.eq_false_iff.mpr hsame)
      · have hcomma {s' : State} (h' : Extends s₁ s') :
            MatrixRows.Lies B code start { m with expectsElement := true } s' :=
          ⟨(hm₁.later hs₁ h').rows, (hm₁.later hs₁ h').extent, hm.ends, hm.rows_ne⟩
        refine .next hkind (.ite (fun _ => ?_) (fun _ => ih (hcomma (.advance s₁)) hs₁.advance))
        refine .bind (.report _ hs₁.advance hs₁.current_valid rfl) fun _ s₃ h₃ hs₃ _ => ih (hcomma ?_) hs₃
        exact (Extends.advance s₁).trans h₃
      · refine .read rfl (.bind (hsub 0 s₁ hs₁) fun element s₂ h₂ hs₂ helement => ?_)
        have hm₂ := hm₁.later hs₁ h₂
        cases element with
        | some element => exact ih (hm₁.push h₂ helement) hs₂
        | none =>
          refine .read rfl (.ite (fun hpos => ?_) (fun _ => ih hm₂ hs₂))
          have hsame := h₂.current_eq (by simpa using hpos)
          refine .next (hsame ▸ hkind) ?_
          refine .bind (.report _ hs₂.advance hs₂.current_valid rfl) fun _ s₄ h₄ hs₄ _ => ?_
          exact ih (hm₂.later hs₂ ((Extends.advance s₂).trans h₄)) hs₄

theorem parseMatrix_lies (hsub : SubLies L B code sub) (gas : Nat) (kind : MatrixKind)
    (hkind : isNewlineOrEnd s.current.kind = false) (hs : s.Sound B code) :
    Reaches L B code s (ExprLies B code s.here) (parseMatrix gas sub kind s) := by
  have hopening := hs.current_ended (kind_ne_eof_of_more hkind) (.refl _)
  refine .next (kind_ne_newline_of_more hkind) (.bind (.inside (fun m s₁ s₂ h₂ hs₁ h => h.later hs₁ h₂)
    (parseMatrixFrom_lies hsub kind hs.current_valid gas
      ⟨.nil hopening.le, hopening, List.forall_mem_nil _, List.forall_mem_nil _⟩ (hs.advance.groups _))) fun m _ _ hs₂ hm => .pure hs₂ ?_)
  rw [ExprLies, Expr.nodes, Expr.occurrences, rowNodes_eq, rowOccurrences_eq]
  refine .within hm.extent (fun row hrow => ?_) (List.forall_mem_map.mpr fun e he => ?_) hm.rows rfl rfl
  · exact hm.endRow.rows_ne row (List.mem_reverse.mp hrow)
  · exact ⟨(hm.rows.span he).lo_le, hm.ends e he⟩

/-! Function handles. -/

theorem parseAnonymousParams_keeps {openSpan : Span} (hopen : openSpan.Valid B) (gas : Nat)
    {params : List String} (h : ∀ param ∈ params, NamedBy code.all param) (hs : s.Sound B code) :
    Reaches L B code s (fun all _ => ∀ param ∈ all, NamedBy code.all param)
      (parseAnonymousParams openSpan gas params s) := by
  have hreverse {params : List String} (h : ∀ param ∈ params, NamedBy code.all param) :
      ∀ param ∈ params.reverse, NamedBy code.all param :=
    fun param hparam => h param (List.mem_reverse.mp hparam)
  induction gas generalizing s params with
  | zero => exact .outOfGas hs (hreverse h)
  | succ gas ih =>
    refine .bind (.accepts rfl hs) fun _ s₁ _ hs₁ _ => .ite (fun _ => .pure hs₁ (hreverse h)) (fun _ => ?_)
    refine .ite (fun _ => ?_) (fun hend => .next (kind_ne_newline_of_more (Bool.eq_false_iff.mpr hend))
      (.ite (fun hname => ?_) (fun _ => ?_)))
    · exact .bind (.report _ hs₁ hopen rfl) fun _ _ _ hs₂ _ => .pure hs₂ (hreverse h)
    · refine ih (List.forall_mem_cons.mpr ⟨?_, h⟩) hs₁.advance
      exact ⟨s₁.current, hs₁.current_mem, hname, rfl⟩
    · refine .ite (fun _ => ?_) (fun _ => ih h hs₁.advance)
      exact .bind (.report _ hs₁.advance hs₁.current_valid rfl) fun _ _ _ hs₂ _ => ih h hs₂

theorem parseAt_lies (hsub : SubLies L B code sub) (gas : Nat) (hkind : isNewlineOrEnd s.current.kind = false)
    (hs : s.Sound B code) : Reaches L B code s (OptionLies B code s.here) (parseAt gas sub s) := by
  have hs₁ := hs.advance
  have hsign := hs.current_between (.refl _)
  refine .next (kind_ne_newline_of_more hkind) (.ite (fun hopen => .next (kind_ne_newline_of_is hopen) ?_)
    (fun _ => .read rfl (.ite (fun hname => .next (kind_ne_newline_of_isName hname) ?_) (fun _ => ?_))))
  · refine .bind (parseAnonymousParams_keeps hs₁.current_valid gas (List.forall_mem_nil _) hs₁.advance) ?_
    intro params s₃ h₃ hs₃ hparams
    refine .bind (hsub 0 s₃ hs₃) fun body s₄ h₄ hs₄ hbody => ?_
    have hmid : s.here ≤ s₃.here := hs.here_le ((Extends.advance s).trans ((Extends.advance _).trans h₃))
    have hto₄ : Extends (advance s).2 s₄ := (Extends.advance _).trans (h₃.trans h₄)
    -- Without a body the function ends with the last token that was read.
    have hdone {s₅ : State} (h₅ : Extends s₄ s₅) (hs₅ : s₅.Sound B code) :
        OptionLies B code s.here (some (.anonymous params body
          ⟨s.current.span.start, (body.elim s₅.previous.span Expr.span).stop⟩)) s₅ := by
      have hbody₅ := hbody.later hs₄ h₅
      refine .some (.anonymous hparams hmid ?_ hbody₅)
      cases body with
      | none => exact (hs.previous_whole (hs.rest_ne_nil (kind_ne_eof_of_more hkind)) (hto₄.trans h₅) hs₅).toEnded
      | some body =>
        refine .join hsign (ExprLies.span hbody₅ |>.mono ?_ (Position.le_refl _))
        exact hs₁.here_le ((Extends.advance _).trans h₃)
    refine .ite (fun _ => .read rfl ?_) (fun _ => .read rfl (.pure hs₄ (hdone (.refl _) hs₄)))
    refine .bind (.expectedExpression hs₄ hs₄.previous_valid) fun _ s₅ h₅ hs₅ _ => ?_
    exact .read rfl (.pure hs₅ (hdone h₅ hs₅))
  · have htoken := hs₁.current_ended (Token.kind_ne_of_isName hname) (.refl _)
    refine .pure hs₁.advance (.some (.handle (hs₁.current_standsIn hname) hsign htoken ?_))
    exact hs₁.not_le_name hname (.refl _)
  · refine .bind (.report _ hs₁ hs.current_valid rfl) fun _ _ h₂ hs₂ _ => .pure hs₂ (.none ?_)
    exact hs.here_le ((Extends.advance s).trans h₂)

theorem parseMark_lies (mark : Mark) (hkind : isNewlineOrEnd s.current.kind = false) (hs : s.Sound B code) :
    Reaches L B code s (OptionLies B code s.here) (parseMark mark s) := by
  refine .read rfl (.ite (fun _ => .next (kind_ne_newline_of_more hkind) ?_)
    (fun _ => .pure hs (.none (Position.le_refl _))))
  exact .pure hs.advance (.some (.leaf (hs.current_ended (kind_ne_eof_of_more hkind) (.refl _)) trivial rfl rfl
    rfl rfl rfl))

/-! Whole expressions. -/

theorem parsePrimary_lies (hsub : SubLies L B code (parseExpression exprGas)) (gas : Nat)
    (hs : s.Sound B code) :
    Reaches L B code s (OptionLies B code s.here) (parsePrimary gas (parseExpression exprGas) s) := by
  have hnone : Reaches L B code s (OptionLies B code s.here)
      ((pure none : Parser (Option Expr)) s) := .pure hs (.none (Position.le_refl _))
  refine .read rfl ?_
  cases hkind : s.current.kind with
  | number =>
    have hmem : ⟨.number, s.current.text, s.current.span⟩ ∈ code.all := hkind ▸ hs.current_mem
    have hspan := hs.current_ended (by simp [hkind]) (.refl _)
    exact .next (by simp [hkind]) (.pure hs.advance (.some (.leaf hspan hmem rfl rfl rfl rfl rfl)))
  | string =>
    have hmem : ⟨.string, s.current.text, s.current.span⟩ ∈ code.all := hkind ▸ hs.current_mem
    have hspan : s.current.span.Ended B code s.here (takeString s).2.here := by
      have hspan := hs.current_ended (by simp [hkind]) (.refl (advance s).2)
      rwa [takeString_eq]
    have htaken := (Leads.takeString s).1
    have hhalts : Halts code s (takeString s).2 := by
      rw [takeString_eq]
      exact Halts.advance hs.code_eq (by simp [hkind])
    refine .nextString ?_
    split_ifs with hclosed
    · have hsound := hs.reportString hkind (by simpa using hclosed)
      exact ⟨htaken.trans (.report _ _ _), hsound, .some (.leaf hspan hmem rfl rfl rfl rfl rfl),
        fun _ => hhalts⟩
    · refine ⟨htaken, hs.takeString hkind (by simpa using hclosed), .some ?_, fun _ => hhalts⟩
      exact .leaf hspan hmem rfl rfl rfl rfl rfl
  | identifier | native =>
    have hname : s.current.isName = true := by rw [Token.isName, hkind]; rfl
    exact .bind (parseName_lies hsub gas hname hs) fun use _ _ hs₁ huse => .pure hs₁ (.some huse.name)
  | sign sign =>
    have hsome : isNewlineOrEnd s.current.kind = false := by rw [hkind]; rfl
    cases sign with
    | openParen => exact parseGrouping_lies hsub (kind_ne_newline_of_more hsome) hs
    | openBracket =>
      exact .bind (parseMatrix_lies hsub gas .vector hsome hs) fun _ _ _ hs₁ he => .pure hs₁ (.some he)
    | openBrace =>
      exact .bind (parseMatrix_lies hsub gas .cell hsome hs) fun _ _ _ hs₁ he => .pure hs₁ (.some he)
    | atSign => exact parseAt_lies hsub gas hsome hs
    | colon => exact parseMark_lies .whole hsome hs
    | _ => exact hnone
  | keyword word =>
    cases word with
    | endAny => exact parseMark_lies .last (by rw [hkind]; rfl) hs
    | _ => exact hnone
  | _ => exact hnone

theorem parseTransposes_lies (gas : Nat) {operand : Expr} (h : ExprLies B code lo operand s)
    (hs : s.Sound B code) : Reaches L B code s (ExprLies B code lo) (parseTransposes gas operand s) := by
  induction gas generalizing s operand with
  | zero => exact .outOfGas hs (h.later hs (.fault _ s))
  | succ gas ih =>
    have hs₁ := hs.advance
    refine .read rfl (.read rfl (.ite (fun hquote => .next (by simp [beq_iff_eq.mp hquote]) ?_)
      (fun _ => .ite (fun hplain => ?_) (fun _ => .pure hs h))))
    · have hkind : s.current.kind ≠ .eof := by simp [beq_iff_eq.mp hquote]
      exact ih (.transposed h hs (.advance s) (hs.current_ended hkind (.refl _))) hs₁
    · simp only [isPlainTranspose, Bool.and_eq_true, ← advance_current] at hplain
      have hkind : (advance s).2.current.kind ≠ .eof := by simp [beq_iff_eq.mp hplain.1.2]
      have hquote := (hs₁.current_ended hkind (.refl _)).mono (hs.here_le (.advance s)) (Position.le_refl _)
      rw [advance_current] at hquote
      refine .next (kind_ne_newline_of_is hplain.1.1) (.next (by simp [beq_iff_eq.mp hplain.1.2])
        (ih (.transposed h hs ?_ hquote) hs₁.advance))
      exact (Extends.advance s).trans (.advance _)

theorem parseUnary_lies (hsub : SubLies L B code (parseExpression exprGas)) (gas : Nat)
    (hs : s.Sound B code) :
    Reaches L B code s (OptionLies B code s.here) (parseUnary gas (parseExpression exprGas) s) := by
  refine .read rfl ?_
  cases hoperator : prefixAt s.current with
  | some op =>
    have hkind : s.current.kind ≠ .newline := by
      intro hkind
      rw [prefixAt, hkind] at hoperator
      contradiction
    refine .next hkind (.bind (hsub _ _ hs.advance) fun operand s₂ h₂ hs₂ hoperand => ?_)
    cases operand with
    | none =>
      refine .bind (.expectedExpression hs₂ hs.current_valid) fun _ _ h₃ hs₃ _ => .pure hs₃ (.none ?_)
      exact hs.here_le ((Extends.advance s).trans (h₂.trans h₃))
    | some operand => exact .pure hs₂ (.some (.prefixed (hs.current_between (.refl _)) hoperand))
  | none =>
    refine .bind (parsePrimary_lies hsub gas hs) fun operand s₁ h₁ hs₁ hoperand => ?_
    cases operand with
    | none => exact .pure hs₁ (.none (hs.here_le h₁))
    | some operand =>
      exact .bind (parseTransposes_lies gas hoperand hs₁) fun _ _ _ hs₂ he => .pure hs₂ (.some he)

/-- The signs of an operator stand on one line. -/
theorem advanceBy_keeps {op : BinaryOp} {width : Nat}
    (hop : operatorAt s.current (s.ahead 1) = some (op, width)) (hs : s.Sound B code) :
    Reaches L B code s (fun _ _ => True) (advanceBy width s) := by
  obtain ⟨first, hfirst, ⟨rfl, -⟩ | ⟨rfl, second, hsecond, -⟩⟩ := operatorAt_eq_some hop
  · exact .next (by rw [hfirst]; exact nofun) (.pure hs.advance trivial)
  · refine .next (by rw [hfirst]; exact nofun) (.next ?_ (.pure hs.advance.advance trivial))
    rw [advance_current, hsecond]
    exact nofun

theorem parseOperators_lies (hsub : SubLies L B code sub) (least gas : Nat) {left : Expr}
    (hleft : ExprLies B code lo left s) (hs : s.Sound B code) :
    Reaches L B code s (ExprLies B code lo) (parseOperators sub least gas left s) := by
  induction gas generalizing s left with
  | zero => exact .outOfGas hs (hleft.later hs (.fault _ s))
  | succ gas ih =>
    refine .read rfl ?_
    cases hop : operatorAt s.current (s.ahead 1) with
    | none => exact .pure hs hleft
    | some found =>
      obtain ⟨op, width⟩ := found
      refine .ite (fun _ => .pure hs hleft) (fun _ => .read rfl (.ite (fun _ => .pure hs hleft)
        (fun _ => .read rfl (.bind (advanceBy_keeps hop hs) fun _ s₁ h₁ hs₁ _ => ?_))))
      refine .bind (hsub _ s₁ hs₁) fun right s₂ h₂ hs₂ hright => ?_
      cases right with
      | none =>
        refine .bind (.expectedExpression hs₂ hs.current_valid) fun _ _ h₃ hs₃ _ => .pure hs₃ ?_
        exact hleft.later hs (h₁.trans (h₂.trans h₃))
      | some right => exact ih (.binary (hleft.later hs h₁) h₂ hright) hs₂

/-- An expression lies where it was read. -/
theorem parseExpression_lies (gas : Nat) : SubLies L B code (parseExpression gas) := by
  induction gas with
  | zero => exact fun _ _ hs => .outOfGas hs (.none (Position.le_refl _))
  | succ gas ih =>
    intro least s hs
    refine .bind (parseUnary_lies ih (gas + 1) hs) fun left s₁ h₁ hs₁ hleft => ?_
    cases left with
    | none => exact .pure hs₁ (.none (hs.here_le h₁))
    | some left =>
      exact .bind (parseOperators_lies ih least (gas + 1) hleft hs₁) fun _ _ _ hs₂ he =>
        .pure hs₂ (.some he)

end Parser

end MatrixScript
