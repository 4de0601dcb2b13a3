import MatrixScript.Proofs.Parser.Run
import MatrixScript.Proofs.Syntax.Tally
import MatrixScript.Proofs.Token.Nesting

/-! Runs of a parser that find no error.

A run that reports an error is of no interest here, whatever it does afterwards. So the rules ask only
for what holds where no error was reported yet, and a branch with an error needs no argument. -/
namespace MatrixScript

/-! Places in commands. -/

namespace Code

/-- A call in the style of a command begins before `place`, and no token between ends it. -/
def InCommand (code : Code) (place : Nat) : Prop :=
  ∃ n < place, (code.token n).isName = true ∧
    Parser.isCommand (code.token n) (code.token (n + 1)) (code.token (n + 2)) = true ∧
    ∀ k, n < k → k < place → Parser.endsStatement (code.token k).kind = false

/-- The token at `place` is a word of a command. -/
def HasWord (code : Code) (place : Nat) : Prop :=
  code.InCommand place ∧ Parser.endsStatement (code.token place).kind = false

theorem HasWord.inCommand {code : Code} {place : Nat} (h : code.HasWord place) :
    code.InCommand (place + 1) := by
  obtain ⟨⟨n, hn, hname, hcommand, hbetween⟩, hend⟩ := h
  refine ⟨n, by omega, hname, hcommand, fun k hk hlt => ?_⟩
  obtain rfl | hne := eq_or_ne k place
  · exact hend
  · exact hbetween k hk (by omega)

end Code

namespace Parser

theorem State.extract_succ (s : State) {start : Nat} (hstart : start ≤ s.pos) (hne : s.rest ≠ []) :
    s.code.tokens.extract start (s.pos + 1) = s.code.tokens.extract start s.pos ++ [s.current] := by
  have hcurrent := s.getElem?_pos hne
  have hsub : s.pos + 1 - start = s.pos - start + 1 := by omega
  have hplace : start + (s.pos - start) = s.pos := by omega
  rw [List.extract_eq_take_drop, List.extract_eq_take_drop, hsub, List.take_add_one,
    List.getElem?_drop, hplace, hcurrent]
  rfl

/-- What every token of some kind keeps is kept where such tokens are skipped. -/
theorem State.skip_keeps {I : State → Prop} {p : Token → Prop}
    (hnext : ∀ s, I s → p s.current → I (advance s).2) {s : State} {n : Nat} (hn : n ≤ s.rest.length)
    (hp : ∀ t ∈ s.rest.take n, p t) (h : I s) : I (s.skip n hn) := by
  induction n generalizing s with
  | zero => exact h
  | succ n ih =>
    obtain ⟨t, ts, hrest⟩ := List.exists_cons_of_length_pos (Nat.zero_lt_of_lt hn)
    rw [hrest, List.take_succ_cons, List.forall_mem_cons] at hp
    have hcurrent : s.current = t := by rw [current, hrest]; rfl
    have hone : 1 ≤ s.rest.length := Nat.le_trans (Nat.le_add_left 1 n) hn
    have hstep := hnext s h (hcurrent ▸ hp.1)
    rw [advance_eq (List.ne_nil_of_length_pos hone)] at hstep
    have hrest' : (s.skip 1 hone).rest = ts := by simp [skip, hrest]
    have hmore : n ≤ (s.skip 1 hone).rest.length := by
      rw [hrest']
      rw [hrest, List.length_cons] at hn
      omega
    have hskip := ih hmore (by rw [hrest']; exact hp.2) hstep
    rw [s.skip_skip hone hmore (by omega), skip_congr (Nat.add_comm 1 n) _ hn] at hskip
    exact hskip

theorem skipUntil_keeps {I : State → Prop} {p : Token.Kind → Bool}
    (hnext : ∀ s, I s → p s.current.kind = false → I (advance s).2) {s : State} (h : I s) :
    I (skipUntil p s).2 := by
  refine State.skip_keeps (p := fun t => p t.kind = false) hnext (List.takeWhile_sublist _).length_le
    (fun t ht => ?_) h
  rw [(List.prefix_iff_eq_take.mp (List.takeWhile_prefix _)).symm] at ht
  simpa using List.mem_takeWhile_imp ht

/-- Where the end of a statement is reached, there is nothing to be skipped. -/
theorem synchronize_eq_self {s : State} (hgroups : s.groups = [])
    (hend : (endsStatement s.current.kind || closesBlock s.current.kind) = true) :
    (synchronize s).2 = s := by
  have hnone : s.rest.takeWhile (fun t => !(endsStatement t.kind || closesBlock t.kind)) = [] := by
    cases hrest : s.rest with
    | nil => rfl
    | cons t ts =>
      have hcurrent : s.current = t := by rw [State.current, hrest]; rfl
      rw [← hcurrent, List.takeWhile_cons, hend]
      rfl
  have hlength : (s.rest.takeWhile fun t => !(endsStatement t.kind || closesBlock t.kind)).length = 0 := by
    rw [hnone]
    rfl
  have hsame : { s with groups := [] } = s := by
    cases s
    simp_all
  change State.skip { s with groups := [] } _ (List.takeWhile_sublist _).length_le = s
  rw [State.skip_congr hlength _ (Nat.zero_le _)]
  exact hsame

/-- No error and no fault was found so far. Warnings do not count. -/
structure State.Clean (s : State) : Prop where
  faults_eq : s.faults = []
  isError_eq : ∀ d ∈ s.diagnostics.toList, d.isError = false

variable {s s' : State} {α β : Type} {P P' : Prop} {Q : α → State → Prop} {R : β → State → Prop}
  {problem : Problem} {x : α × State}

theorem Extends.clean (h : Extends s s') (hclean : s'.Clean) : s.Clean where
  faults_eq := by
    have hfaults := h.faults
    rw [hclean.faults_eq] at hfaults
    exact List.suffix_nil.mp hfaults
  isError_eq := fun d hd => hclean.isError_eq d (h.diagnostics.subset hd)

/-- From `s`, where `P` holds, the parser goes on to a value and a state in the relation `Q`, unless it
finds an error. -/
def CleanRun (P : Prop) (s : State) (Q : α → State → Prop) (x : α × State) : Prop :=
  Extends s x.2 ∧ (x.2.Clean → P → Q x.1 x.2)

namespace CleanRun

theorem pure {a : α} (h : P → Q a s) : CleanRun P s Q ((Pure.pure a : Parser α) s) :=
  ⟨.refl s, fun _ => h⟩

theorem bind {p : Parser α} {f : α → Parser β} (hp : CleanRun P s Q (p s))
    (hf : ∀ a s', CleanRun (Q a s') s' R (f a s')) : CleanRun P s R ((p >>= f) s) :=
  have hnext := hf (p s).1 (p s).2
  ⟨hp.1.trans hnext.1, fun hclean hP => hnext.2 hclean (hp.2 (hnext.1.clean hclean) hP)⟩

/-- Looking at the state changes nothing. -/
theorem read {p : Parser α} {f : α → Parser β} {a : α} (hp : p s = (a, s))
    (h : CleanRun P s R (f a s)) : CleanRun P s R ((p >>= f) s) := by
  change CleanRun P s R (f (p s).1 (p s).2)
  rwa [hp]

theorem pre (hP : P' → P) (h : CleanRun P s Q x) : CleanRun P' s Q x :=
  ⟨h.1, fun hclean hP' => h.2 hclean (hP hP')⟩

theorem mono {Q' : α → State → Prop} (h : CleanRun P s Q x) (hQ : ∀ a s', P → Q a s' → Q' a s') : CleanRun P s Q' x :=
  ⟨h.1, fun hclean hP => hQ _ _ hP (h.2 hclean hP)⟩

theorem map {p : Parser α} {f : α → β} (hp : CleanRun P s Q (p s))
    (hQ : ∀ a s', Q a s' → R (f a) s') : CleanRun P s R ((f <$> p) s) :=
  ⟨hp.1, fun hclean hP => hQ _ _ (hp.2 hclean hP)⟩

theorem and {Q' : α → State → Prop} (h : CleanRun P s Q x) (h' : CleanRun P' s Q' x) : CleanRun (P ∧ P') s (fun a s' => Q a s' ∧ Q' a s') x :=
  ⟨h.1, fun hclean hP => ⟨h.2 hclean hP.1, h'.2 hclean hP.2⟩⟩

/-- What does not speak of the state goes on to hold. -/
theorem frame (h : CleanRun P s Q x) :
    CleanRun (P ∧ P') s (fun a s' => Q a s' ∧ P') x :=
  ⟨h.1, fun hclean hP => ⟨h.2 hclean hP.1, hP.2⟩⟩

theorem ite {c : Prop} [Decidable c] {p q : Parser α} (yes : c → CleanRun P s Q (p s))
    (no : ¬c → CleanRun P s Q (q s)) : CleanRun P s Q ((if c then p else q) s) := by
  split_ifs with hc
  · exact yes hc
  · exact no hc

/-- What cannot be reached only has to go on. -/
theorem dead (hP : ¬P) (h : Leads s (fun _ => True) x) : CleanRun P s Q x :=
  ⟨h.1, fun _ hholds => absurd hholds hP⟩

/-- What is known already does not depend on how the parser goes on. -/
theorem known {R : Prop} (hR : P → R) (h : Leads s (fun _ => True) x) :
    CleanRun P s (fun _ _ => R) x :=
  ⟨h.1, fun _ => hR⟩

/-- An error ends what is of interest. -/
theorem error (hproblem : problem.severity = .error) (span : Span) (s : State)
    {Q : Unit → State → Prop} : CleanRun P s Q (Parser.report problem span s) := by
  refine ⟨.report problem span s, fun hclean => ?_⟩
  have hmem : problem.toDiagnostic span ∈ (Parser.report problem span s).2.diagnostics.toList := by
    change _ ∈ (s.diagnostics.push _).toList
    simp
  have herror := hclean.isError_eq _ hmem
  simp [Problem.toDiagnostic, Diagnostic.isError, hproblem] at herror

theorem errorHere (hproblem : problem.severity = .error) (s : State) {Q : Unit → State → Prop} : CleanRun P s Q (Parser.reportHere problem s) :=
  error hproblem s.current.span s

theorem outOfGas {a : α} : CleanRun P s Q (Parser.outOfGas a s) := by
  refine ⟨.fault .outOfGas s, fun hclean => ?_⟩
  have hfaults : Fault.outOfGas :: s.faults = [] := hclean.faults_eq
  contradiction

theorem expectedExpression (after : Token) (s : State) {Q : Unit → State → Prop} :
    CleanRun P s Q (Parser.expectedExpression after s) :=
  ite (fun _ => error rfl after.span s) (fun _ => errorHere rfl s)

/-- Behind an error the parser only has to go on. -/
theorem fail (hproblem : problem.severity = .error) (span : Span) {f : Unit → Parser β}
    (h : ∀ s', Leads s' (fun _ => True) (f () s')) :
    CleanRun P s R ((Parser.report problem span >>= f) s) :=
  bind (error hproblem span s) fun _ s' => dead id (h s')

theorem failHere (hproblem : problem.severity = .error) {f : Unit → Parser β}
    (h : ∀ s', Leads s' (fun _ => True) (f () s')) :
    CleanRun P s R ((Parser.reportHere problem >>= f) s) :=
  fail hproblem s.current.span h

theorem failExpected (after : Token) {f : Unit → Parser β}
    (h : ∀ s', Leads s' (fun _ => True) (f () s')) :
    CleanRun P s R ((Parser.expectedExpression after >>= f) s) :=
  bind (expectedExpression after s) fun _ s' => dead id (h s')

theorem leads (h : CleanRun P s Q x) : Leads s (fun _ => True) x :=
  ⟨h.1, trivial⟩

/-- A token is consumed. What is known is still known of the state before. -/
theorem next {f : Token → Parser β}
    (h : CleanRun P (advance s).2 R (f s.current (advance s).2)) :
    CleanRun P s R ((advance >>= f) s) := by
  have hfst : (advance s).1 = s.current := (Leads.advance s).2
  rw [← hfst] at h
  exact ⟨(Extends.advance s).trans h.1, h.2⟩

/-- A string is consumed. Its place is noted before. -/
theorem nextString {f : Token → Parser β}
    (h : CleanRun P { s with strings := s.pos :: s.strings } R
      ((advance >>= f) { s with strings := s.pos :: s.strings })) :
    CleanRun P s R ((takeString >>= f) s) :=
  ⟨⟨h.1.code, h.1.pos_le, h.1.diagnostics, h.1.faults⟩, h.2⟩

theorem accepted {p : Token.Kind → Bool} {f : Bool → Parser β}
    (yes : p s.current.kind = true → CleanRun P (advance s).2 R (f true (advance s).2))
    (no : p s.current.kind = false → CleanRun P s R (f false s)) :
    CleanRun P s R ((Parser.accept p >>= f) s) := by
  change CleanRun P s R (f (Parser.accept p s).1 (Parser.accept p s).2)
  rw [accept_eq]
  split_ifs with hp
  · have hyes := yes hp
    exact ⟨(Extends.advance s).trans hyes.1, hyes.2⟩
  · exact no (by simpa using hp)

theorem accept {p : Token.Kind → Bool} {A B : Parser β}
    (yes : p s.current.kind = true → CleanRun P (advance s).2 R (A (advance s).2))
    (no : p s.current.kind = false → CleanRun P s R (B s)) :
    CleanRun P s R ((Parser.accept p >>= fun b => if b = true then A else B) s) :=
  accepted yes no

/-- A sign that has to be there is there. -/
theorem expectSign {sign : Sign} (hproblem : problem.severity = .error) (span : Span) (s : State) : CleanRun P s
      (fun _ s' => P ∧ s.current.kind = .sign sign ∧ s' = (advance s).2)
      (Parser.expectSign sign problem span s) := by
  refine accepted (fun hsign => ?_) (fun _ => error hproblem span s)
  exact pure fun hP => ⟨hP, beq_iff_eq.mp hsign, rfl⟩

/-- A value that has to be there is there. -/
theorem expectValue {value : Option Expr} (hproblem : problem.severity = .error) (span : Span)
    (s : State) : CleanRun P s (fun _ s' => P ∧ value.isSome = true ∧ s' = s)
      (Parser.expectValue value problem span s) := by
  refine ite (fun _ => error hproblem span s) (fun hsome => pure fun hP => ⟨hP, ?_, rfl⟩)
  cases value with
  | none => exact absurd rfl hsome
  | some _ => rfl

end CleanRun

/-! How far the tokens are properly nested. -/

/-- A place in code from which the tokens are scanned, and what is open there. `plain` says that no
word of a command is among the tokens. -/
structure Origin where
  code : Code
  eof_kind : code.eof.kind = .eof
  kind_ne : ∀ t ∈ code.tokens, t.kind ≠ .eof
  start : Nat
  stack : List Enclosure
  plain : Bool

/-- The tokens from a place on up to the present one, words of commands apart. -/
def State.kept (s : State) (start : Nat) : List Token :=
  keptTokens s.words start (s.code.tokens.extract start s.pos)

/-- The places that were reported to show their value, and the number of `otherwise` from a place on. -/
def State.tally (s : State) (start : Nat) : Tally :=
  (↑((s.diagnostics.toList.filter (·.code == .outputNotSuppressed)).map (·.span)),
    (s.kept start).countP (·.kind == .keyword .otherwiseBranch))

/-- From the origin up to the present place the tokens, words of commands apart, are properly nested.
They leave `stack` open, and the parser has the brackets `groups` open. What was read counts `t`, if it was not
dropped behind an `otherwise`. -/
structure At (o : Origin) (t : Tally) (groups : List Group) (stack : List Enclosure) (s : State) : Prop where
  code_eq : s.code = o.code
  groups_eq : s.groups = groups
  start_le : o.start ≤ s.pos
  words_lt : ∀ w ∈ s.words, w < s.pos
  plain : o.plain = true → ∀ w ∈ s.words, w < o.start
  commands : ∀ w ∈ s.words, o.code.HasWord w
  scan_eq : Enclosure.scan o.stack (s.kept o.start) = some stack
  tally_eq : ∃ dropped, s.tally o.start = t + .dropped dropped

namespace At

variable {o : Origin} {t : Tally} {groups : List Group} {stack stack' : List Enclosure}

section

variable (h : At o t groups stack s)
include h

theorem rest_ne_nil (hkind : s.current.kind ≠ .eof) : s.rest ≠ [] := by
  intro hnil
  apply hkind
  rw [State.current, hnil, h.code_eq]
  exact o.eof_kind

theorem length_extract : o.start + (s.code.tokens.extract o.start s.pos).length = s.pos := by
  have hle := s.pos_le
  have hstart := h.start_le
  rw [List.extract_eq_take_drop, List.length_take, List.length_drop]
  omega

/-- One token more is kept. -/
theorem kept_advance (hne : s.rest ≠ []) :
    (Parser.advance s).2.kept o.start = s.kept o.start ++ [s.current] := by
  rw [advance_eq hne]
  change keptTokens s.words o.start (s.code.tokens.extract o.start (s.pos + 1)) = _
  rw [s.extract_succ h.start_le hne, keptTokens_append, h.length_extract, keptTokens_of_lt h.words_lt]
  rfl

/-- A word of a command is not kept. -/
theorem kept_takeWord (hne : s.rest ≠ []) :
    (Parser.takeWord s).2.kept o.start = s.kept o.start := by
  change (Parser.advance { s with words := s.pos :: s.words }).2.kept o.start = _
  rw [advance_eq (s := { s with words := s.pos :: s.words }) hne]
  change keptTokens (s.pos :: s.words) o.start (s.code.tokens.extract o.start (s.pos + 1)) = _
  have hword : keptTokens (s.pos :: s.words) s.pos [s.current] = [] := by simp [keptTokens]
  have hbefore : keptTokens (s.pos :: s.words) o.start (s.code.tokens.extract o.start s.pos) =
      s.kept o.start := by
    refine keptTokens_congr fun n _ hlt => ?_
    rw [h.length_extract] at hlt
    rw [List.mem_cons, or_iff_right (Nat.ne_of_lt hlt)]
  rw [s.extract_succ h.start_le hne, keptTokens_append, h.length_extract, hword, List.append_nil, hbefore]

theorem advance {more : Tally} (hkind : s.current.kind ≠ .eof)
    (hstep : Enclosure.step stack s.current.kind = some stack')
    (hmore : more = (0, if s.current.kind == .keyword .otherwiseBranch then 1 else 0)) :
    At o (t + more) groups stack' (Parser.advance s).2 := by
  have hne := h.rest_ne_nil hkind
  have hkept := h.kept_advance hne
  obtain ⟨dropped, htally⟩ := h.tally_eq
  rw [advance_eq hne] at hkept ⊢
  refine ⟨h.code_eq, h.groups_eq, Nat.le_succ_of_le h.start_le,
    fun w hw => Nat.lt_succ_of_lt (h.words_lt w hw), h.plain, h.commands, ?_, dropped, ?_⟩
  · rw [hkept, Enclosure.scan_append, h.scan_eq]
    exact (Enclosure.scan_singleton _ _).trans hstep
  · have hcount : (s.skip 1 (List.length_pos_iff.mpr hne)).tally o.start = s.tally o.start + more := by
      rw [State.tally, hkept, hmore, List.countP_append, List.countP_singleton]
      exact Prod.ext (add_zero _).symm rfl
    rw [hcount, htally, add_right_comm]

/-- A word of a command is not scanned. -/
theorem takeWord (ho : o.plain = false) (hne : s.rest ≠ []) (hword : o.code.HasWord s.pos) :
    At o t groups stack (Parser.takeWord s).2 := by
  have hkept := h.kept_takeWord hne
  obtain ⟨dropped, htally⟩ := h.tally_eq
  change (Parser.advance { s with words := s.pos :: s.words }).2.kept o.start = _ at hkept
  change At o t groups stack (Parser.advance { s with words := s.pos :: s.words }).2
  rw [advance_eq (s := { s with words := s.pos :: s.words }) hne] at hkept ⊢
  refine ⟨h.code_eq, h.groups_eq, Nat.le_succ_of_le h.start_le, ?_, ?_, ?_, ?_, dropped, ?_⟩
  · exact List.forall_mem_cons.mpr ⟨Nat.lt_succ_self _, fun w hw => Nat.lt_succ_of_lt (h.words_lt w hw)⟩
  · simp [ho]
  · exact List.forall_mem_cons.mpr ⟨hword, h.commands⟩
  · rw [hkept]
    exact h.scan_eq
  · rw [State.tally, hkept]
    exact htally

/-- A token that is no `otherwise`. -/
theorem token (hkind : s.current.kind ≠ .eof) (hother : s.current.kind ≠ .keyword .otherwiseBranch)
    (hstep : Enclosure.step stack s.current.kind = some stack') :
    At o t groups stack' (Parser.advance s).2 := by
  have hnext := h.advance hkind hstep rfl
  rwa [beq_eq_false_iff_ne.mpr hother, if_neg Bool.false_ne_true, Prod.mk_zero_zero, add_zero] at hnext

theorem pass (hkind : s.current.kind.isNeutral = true) :
    At o t groups stack (Parser.advance s).2 := by
  refine h.token ?_ ?_ (Enclosure.step_of_isNeutral hkind stack) <;>
  · intro heq
    rw [heq] at hkind
    contradiction

theorem passSign {sign : Sign} (hkind : s.current.kind = .sign sign)
    (hsign : (Token.Kind.sign sign).isNeutral = true) : At o t groups stack (Parser.advance s).2 :=
  h.pass (hkind ▸ hsign)

theorem openBracket {sign : Sign} {group : Group} (hkind : s.current.kind = .sign sign)
    (hopen : Group.ofOpening? sign = some group) :
    At o t groups (.bracket group :: stack) (Parser.advance s).2 := by
  refine h.token (by rw [hkind]; exact nofun) (by rw [hkind]; exact nofun) ?_
  rw [hkind, Enclosure.step, Enclosure.stepSign, hopen]

end

theorem closeBracket {group : Group} (h : At o t groups (.bracket group :: stack) s)
    (hkind : s.current.kind = .sign group.closing) : At o t groups stack (Parser.advance s).2 := by
  refine h.token (by rw [hkind]; exact nofun) (by rw [hkind]; exact nofun) ?_
  rw [hkind, Enclosure.step, Enclosure.stepSign, Group.ofOpening?_closing, Group.ofClosing?_closing]
  exact if_pos rfl

theorem word (h : At o t groups stack s) {word : Keyword} (hkind : s.current.kind = .keyword word)
    (hother : word ≠ .otherwiseBranch) (hstep : Enclosure.stepWord stack word = some stack') :
    At o t groups stack' (Parser.advance s).2 := by
  refine h.token (by rw [hkind]; exact nofun) ?_ ?_
  · rw [hkind]
    exact fun heq => hother (Token.Kind.keyword.inj heq)
  · rw [hkind]
    exact hstep

theorem otherwise (h : At o t groups stack s) (hkind : s.current.kind = .keyword .otherwiseBranch)
    (hstep : Enclosure.stepWord stack .otherwiseBranch = some stack') :
    At o (t + (0, 1)) groups stack' (Parser.advance s).2 := by
  refine h.advance (by rw [hkind]; exact nofun) ?_ ?_
  · rw [hkind]
    exact hstep
  · rw [hkind]
    rfl

/-- A part behind an `otherwise` does not get into the tree. -/
theorem drop {body : Option (List Stmt)} (h : At o (t + .otherwise body) groups stack s) :
    At o t groups stack s := by
  obtain ⟨dropped, htally⟩ := h.tally_eq
  refine ⟨h.code_eq, h.groups_eq, h.start_le, h.words_lt, h.plain, h.commands, h.scan_eq,
    body.toList ++ dropped, htally.trans ?_⟩
  cases body with
  | none => rw [Tally.otherwise, Option.elim_none, add_zero]; rfl
  | some body =>
    rw [add_assoc]
    rfl

theorem reportShown (h : At o t groups stack s) (span : Span) :
    At o (t + ({span}, 0)) groups stack (Parser.report .showsOutput span s).2 := by
  obtain ⟨dropped, htally⟩ := h.tally_eq
  refine ⟨h.code_eq, h.groups_eq, h.start_le, h.words_lt, h.plain, h.commands, h.scan_eq, dropped, ?_⟩
  have hcount : (Parser.report .showsOutput span s).2.tally o.start = s.tally o.start + ({span}, 0) := by
    refine Prod.ext ?_ (add_zero _).symm
    change (↑(((s.diagnostics.push (Problem.showsOutput.toDiagnostic span)).toList.filter
      (·.code == .outputNotSuppressed)).map (·.span)) : Multiset Span) = _
    rw [Array.toList_push, List.filter_append, List.map_append, ← Multiset.coe_add]
    rfl
  rw [hcount, htally, add_right_comm]

end At

end Parser

end MatrixScript
