import MatrixScript.Proofs.Parser.Halting
import MatrixScript.Proofs.Parser.Header

/-! What the parser keeps through whole statements as long as it finds no error.

Main statement: a fact about the parser's state, the nodes of the tree and the names used so far is kept by
whole blocks if it is kept in headers, at keywords and words of commands, and by the few statements that
treat their parts in their own way. -/
namespace MatrixScript

variable {word : Keyword} {st : Stmt}

/-! The steps that keywords make. -/

theorem Enclosure.stepWord_terminator {opener : Keyword} (h : word ∈ opener.terminators)
    (split : Bool) (stack : List Enclosure) :
    stepWord (.block opener split :: stack) word = some stack := by
  cases opener <;> simp only [Keyword.terminators, List.mem_cons, List.not_mem_nil, or_false] at h
  case doBlock =>
    subst h
    rfl
  all_goals rcases h with rfl | rfl <;> rfl

theorem Keyword.ne_otherwise_of_terminator {opener : Keyword} (h : word ∈ opener.terminators) :
    word ≠ .otherwiseBranch := by
  rintro rfl
  cases opener <;> simp [Keyword.terminators] at h

theorem standAlone_occurrences (silent : Bool) (e : Expr) :
    (Parser.standAlone silent e).occurrences = e.occurrences := by
  cases e <;> rfl

theorem tally_standAlone (silent : Bool) (e : Expr) : tally (Parser.standAlone silent e).nodes = 0 := by
  cases e with
  | name use => exact tally_call _ _
  | _ => exact tally_expression _ _

namespace Parser

theorem takeWord_pos {s : State} (hrest : s.rest ≠ []) : (takeWord s).2.pos = s.pos + 1 := by
  change (advance { s with words := s.pos :: s.words }).2.pos = _
  rw [advance_eq (s := { s with words := s.pos :: s.words }) hrest]
  rfl

/-- For each tree so far a fact that is kept in headers. The context is what is open. -/
structure Lines where
  line : List Node → HeaderTracking
  context : (ns : List Node) → List Enclosure → (line ns).Context

namespace Lines

variable (L : Lines) (stack : List Enclosure) (ns : List Node) (os : List Occurrence) (s : State)

def Holds : Prop := (L.line ns).Holds [] (L.context ns stack) os s

/-- A run adds the nodes and the names of its answer. -/
abbrev Adds {α : Type} (N : α → List Node) (O : α → List Occurrence) (x : α × State) : Prop :=
  CleanRun (L.Holds stack ns os s) s (fun a s' => L.Holds stack (ns ++ N a) (os ++ O a) s') x

abbrev AddsStmt (x : Stmt × State) : Prop := L.Adds stack ns os s Stmt.nodes Stmt.occurrences x

abbrev AddsOption (x : Option Stmt × State) : Prop :=
  L.Adds stack ns os s (fun st => stmtNodes st.toList) (fun st => stmtOccurrences st.toList) x

/-- The parser for the blocks inside statements. -/
def Blocks (block : BlockParser) : Prop :=
  ∀ stack ns os ends s, L.Adds stack ns os s stmtNodes stmtOccurrences (block ends s)

end Lines

structure StatementTracking extends Lines where
  code : Code
  eof_kind : code.eof.kind = .eof
  code_eq : ∀ {stack ns os s}, toLines.Holds stack ns os s → s.code = code
  /-- Nodes that do not count make no difference. -/
  mono : ∀ {stack ns ns' os os' s}, toLines.Holds stack ns os s → ns ⊆ ns' → tally ns' = tally ns →
    os ⊆ os' → toLines.Holds stack ns' os' s
  word : ∀ {stack stack' ns os s word}, toLines.Holds stack ns os s → s.current.kind = .keyword word →
    word ≠ .otherwiseBranch → Enclosure.stepWord stack word = some stack' →
    toLines.Holds stack' ns os (advance s).2
  takeWord : ∀ {stack ns os s}, toLines.Holds stack ns os s → s.rest ≠ [] → code.HasWord s.pos →
    toLines.Holds stack ns os (takeWord s).2
  assign : ∀ {stack ns os s gas}, s.current.isName = true →
    toLines.AddsOption stack ns os s (parseAssignment gas s)
  assignMany : ∀ {stack ns os s gas}, s.current.kind = .sign .openBracket →
    (findTargetsEnd 0 s.rest).isSome = true →
    toLines.AddsStmt stack ns os s (parseManyAssignment gas s)
  declare : ∀ {stack ns os s gas word} storage, s.current.kind = .keyword word →
    s.current.kind.isNeutral = true → toLines.AddsStmt stack ns os s (parseDeclaration gas storage s)

namespace StatementTracking

variable {T : StatementTracking} {stack : List Enclosure} {ns ns' : List Node} {os os' : List Occurrence}
  {s : State} {block : BlockParser} {gas : Nat}

/-- What is kept in a header. -/
theorem header {α : Type} {O : α → List Occurrence} {x : α × State}
    (h : CleanRun ((T.line ns).Holds [] (T.context ns stack) os s) s
      (fun a s' => (T.line ns).Holds [] (T.context ns stack) (O a) s') x) :
    CleanRun (T.Holds stack ns os s) s (fun a s' => T.Holds stack ns (O a) s') x :=
  h

theorem finishStatement :
    CleanRun (T.Holds stack ns os s) s (fun _ s' => T.Holds stack ns os s') (finishStatement s) :=
  header (Tracking.finishStatement os (T.line ns).fits_nil)

theorem parseCondition (word : Keyword) (keyword : Token) :
    CleanRun (T.Holds stack ns os s) s (fun e s' => T.Holds stack ns (os ++ optionalOccurrences e) s')
      (parseCondition gas word keyword s) :=
  header (HeaderTracking.parseCondition word keyword)

/-- The nodes of its parts are among those of a statement and count as much, and its names are theirs. -/
theorem close (h : T.Holds stack ns' os' s) (hns : ns' ⊆ ns ++ st.nodes)
    (htally : tally ns' = tally ns + tally st.nodes) (hos : os' = os ++ st.occurrences) :
    T.Holds stack (ns ++ st.nodes) (os ++ st.occurrences) s :=
  T.mono h hns (by rw [tally_append, htally]) (hos ▸ List.Subset.refl _)

/-- A statement with one block. -/
theorem closeBody {body : List Stmt} (h : T.Holds stack (ns ++ stmtNodes body) os' s)
    (hbody : stmtNodes body ⊆ st.nodes) (htally : tally st.nodes = tally (stmtNodes body))
    (hos : os' = os ++ st.occurrences) : T.Holds stack (ns ++ st.nodes) (os ++ st.occurrences) s :=
  close h (List.append_subset.mpr ⟨List.subset_append_left _ _, List.subset_append_of_subset_right _ hbody⟩)
    (by rw [tally_append, htally]) hos

/-- A statement on one line that does not count. -/
theorem closeLine (h : T.Holds stack ns os' s) (htally : tally st.nodes = 0)
    (hos : os' ⊆ os ++ st.occurrences) : T.Holds stack (ns ++ st.nodes) (os ++ st.occurrences) s :=
  T.mono h (List.subset_append_left _ _) (by rw [tally_append, htally, add_zero]) hos

/-- Nothing is added where there is nothing. -/
theorem nothing (h : T.Holds stack ns os s) : T.Holds stack (ns ++ []) (os ++ []) s := by
  rwa [List.append_nil, List.append_nil]

theorem single (h : T.Holds stack (ns ++ st.nodes) (os ++ st.occurrences) s) :
    T.Holds stack (ns ++ stmtNodes (some st).toList) (os ++ stmtOccurrences (some st).toList) s := by
  rwa [Option.toList_some, stmtNodes_singleton, stmtOccurrences_singleton]

/-! Statements on one line. -/

theorem rest_ne_nil (h : T.Holds stack ns os s) (hkind : s.current.kind ≠ .eof) : s.rest ≠ [] := by
  intro hnil
  apply hkind
  rw [State.current, hnil, T.code_eq h]
  exact T.eof_kind

theorem parseCommandWords (gas : Nat) (words : List Variable) (before : Token) :
    CleanRun (T.Holds stack ns os s ∧ T.code.InCommand s.pos) s (fun _ s' => T.Holds stack ns os s')
      (parseCommandWords gas words before s) := by
  induction gas generalizing s words before with
  | zero => exact .outOfGas
  | succ gas ih =>
    refine .ite (fun _ => .pure fun h => h.1) (fun hmore => ?_)
    have hword : CleanRun (T.Holds stack ns os s ∧ T.code.InCommand s.pos) s
        (fun _ s' => T.Holds stack ns os s' ∧ T.code.InCommand s'.pos) (Parser.takeWord s) := by
      refine ⟨(Leads.takeWord s).1, fun _ ⟨h, hin⟩ => ?_⟩
      have hend : endsStatement s.current.kind = false := by simpa using hmore
      have hne : s.rest ≠ [] := rest_ne_nil h fun hk => by simp [endsStatement, hk] at hend
      have hhas : T.code.HasWord s.pos := ⟨hin, by rwa [← T.code_eq h, ← s.current_eq_token]⟩
      refine ⟨T.takeWord h hne hhas, ?_⟩
      rw [takeWord_pos hne]
      exact hhas.inCommand
    exact .bind hword fun _ _ => ih _ _

theorem parseCommand (hname : s.current.isName = true)
    (hcommand : isCommand s.current (s.ahead 1) (s.ahead 2) = true) :
    T.AddsStmt stack ns os s (parseCommand gas s) := by
  have hstart (h : T.Holds stack ns os s) : T.code.InCommand (advance s).2.pos := by
    rw [advance_pos (rest_ne_nil h (Token.kind_ne_of_isName hname)), ← T.code_eq h]
    rw [s.current_eq_token] at hname hcommand
    rw [s.ahead_eq_token, s.ahead_eq_token] at hcommand
    exact ⟨s.pos, Nat.lt_succ_self _, hname, hcommand, fun k hk hlt => absurd hlt (by omega)⟩
  refine .next (.pre (fun h => And.intro ((T.line ns).passRoot h hname) (hstart h)) ?_)
  refine .bind (parseCommandWords gas [] _) fun words s₂ => ?_
  refine .bind finishStatement fun _ s₃ => .pure fun h => closeLine h (tally_call _ _) ?_
  exact List.append_subset.mpr ⟨List.subset_append_left _ _, List.subset_append_of_subset_right _
    (List.cons_subset_cons _ (List.nil_subset _))⟩

theorem parseExpressionStatement : T.AddsOption stack ns os s (parseExpressionStatement gas s) := by
  refine .read rfl (.bind ((T.line ns).parseExpression gas [] _ os 0 s (T.line ns).fits_nil) fun value s₁ => ?_)
  cases value with
  | none =>
    refine .read rfl (.read rfl (.ite (fun _ => .next ?_) (fun hend => ?_)))
    · refine .fail (severity_ofToken _) _ fun s₂ => .bind (.synchronize s₂) fun _ _ _ _ => ?_
      exact .pure trivial
    · have hsync : CleanRun ((T.line ns).Behind [] (T.context ns stack) os s none s₁) s₁
          (fun _ s' => T.Holds stack ns (os ++ []) s') (synchronize s₁) := by
        refine ⟨(Leads.synchronize s₁).1, fun _ h => ?_⟩
        rw [h.2 rfl, beq_self_eq_true, Bool.true_and, Bool.not_eq_true', Bool.not_eq_false] at hend
        rw [synchronize_eq_self ((T.line ns).groups_eq h.1) hend]
        exact h.1
      refine .bind hsync fun _ _ => .pure fun h => ?_
      rw [List.append_nil] at h
      exact nothing h
  | some value =>
    refine .pre (fun h => h.1) (.bind finishStatement fun silent s₂ => .pure fun h => single ?_)
    refine closeLine h (tally_standAlone silent value) ?_
    rw [standAlone_occurrences]
    exact List.Subset.refl _

theorem parseJump (jump : Jump) {word : Keyword} (hkind : s.current.kind = .keyword word)
    (hother : word ≠ .otherwiseBranch) (hstep : Enclosure.stepWord stack word = some stack) :
    T.AddsStmt stack ns os s (parseJump jump s) := by
  refine .next (.pre (fun h => T.word h hkind hother hstep) ?_)
  refine .bind finishStatement fun _ _ => .pure fun h => closeLine h (tally_jump _ _) ?_
  exact List.subset_append_left _ _

/-! Blocks. -/

theorem openBlock {β : Type} {R : β → State → Prop} {f : Token → Parser β}
    (hkind : s.current.kind = .keyword word) (hopens : word.opensBlock = true)
    (h : CleanRun (T.Holds (.block word false :: stack) ns os (advance s).2) (advance s).2 R
      (f s.current (advance s).2)) :
    CleanRun (T.Holds stack ns os s) s R ((advance >>= f) s) := by
  refine .next (.pre (fun hholds => T.word hholds hkind ?_ ?_) h)
  · rintro rfl
    contradiction
  · unfold Enclosure.stepWord
    rw [if_pos hopens]

/-- A block is open, whatever part of it has begun. -/
def InBlock (T : StatementTracking) (word : Keyword) (stack : List Enclosure) (ns : List Node)
    (os : List Occurrence) (s : State) : Prop :=
  ∃ split, T.Holds (.block word split :: stack) ns os s

theorem inBlock {split : Bool} (h : T.Holds (.block word split :: stack) ns os s) :
    T.InBlock word stack ns os s :=
  ⟨split, h⟩

theorem terminator (h : T.InBlock word stack ns os s)
    (hword : s.current.isWord word.terminators = true) : T.Holds stack ns os (advance s).2 := by
  obtain ⟨split, h⟩ := h
  obtain ⟨closing, hmem, hkind⟩ := kind_of_isWord hword
  exact T.word h hkind (Keyword.ne_otherwise_of_terminator hmem) (Enclosure.stepWord_terminator hmem split stack)

theorem closeBlock (word : Keyword) (keyword : Token) :
    CleanRun (T.InBlock word stack ns os s) s (fun _ s' => T.Holds stack ns os s')
      (closeBlock word keyword s) := by
  refine .read rfl (.ite (fun hword => .next (.pure fun h => terminator h hword)) (fun _ => ?_))
  exact .fail rfl _ fun _ => .read rfl (.pure trivial)

section

variable (hblock : T.Blocks block)
include hblock

theorem parseElseIfs (exprGas gas : Nat) (clauses : List (Branch Stmt)) :
    CleanRun (T.Holds (.block .ifBlock false :: stack) (ns ++ branchNodes clauses.reverse)
        (os ++ branchOccurrences clauses.reverse) s) s
      (fun all s' => T.Holds (.block .ifBlock false :: stack) (ns ++ branchNodes all)
        (os ++ branchOccurrences all) s') (parseElseIfs exprGas block gas clauses s) := by
  induction gas generalizing s clauses with
  | zero => exact .outOfGas
  | succ gas ih =>
    refine .read rfl (.ite (fun _ => .pure id) (fun hword => ?_))
    have hkind := kind_of_isWord_singleton (by simpa using hword)
    refine .next (.pre (fun h => T.word h hkind nofun rfl) ?_)
    refine .bind (parseCondition _ _) fun guard s₂ => .bind (hblock _ _ _ _ s₂) fun body s₃ => ?_
    refine .read rfl (.pre (fun h => T.mono h ?_ ?_ ?_) (ih _))
    · intro n hn
      simp only [List.reverse_cons, branchNodes_append, branchNodes, branchNodesOne, List.mem_append,
        List.mem_cons] at hn ⊢
      tauto
    · rw [tally_append, tally_append, tally_append, tally_branches_reverse, add_assoc]
    · simp [List.reverse_cons, branchOccurrences_append, branchOccurrences]

theorem parseElse :
    CleanRun (T.Holds (.block .ifBlock false :: stack) ns os s) s
      (fun other s' => T.InBlock .ifBlock stack (ns ++ stmtNodes (other.getD []))
        (os ++ stmtOccurrences (other.getD [])) s') (parseElse block s) := by
  refine .read rfl (.ite (fun hword => ?_) (fun _ => .pure fun h => inBlock (nothing h)))
  refine .next (.pre (fun h => T.word h (kind_of_isWord_singleton hword) nofun rfl) ?_)
  exact .bind (hblock (.block .ifBlock true :: stack) _ _ _ _) fun _ _ => .pure inBlock

theorem parseIf (hkind : s.current.kind = .keyword .ifBlock) :
    T.AddsStmt stack ns os s (parseIf gas block s) := by
  refine openBlock hkind rfl (.bind (parseCondition _ _) fun condition s₂ => ?_)
  refine .bind (hblock _ _ _ _ s₂) fun body s₃ => .pre nothing ?_
  refine .bind (parseElseIfs hblock gas gas []) fun clauses s₄ => ?_
  refine .bind (parseElse hblock) fun other s₅ => .bind (closeBlock _ _) fun stop s₆ => .pure fun h => ?_
  refine close h ?_ ?_ ?_
  · intro n hn
    simp only [Stmt.nodes_ifElse, List.mem_append, List.mem_cons] at hn ⊢
    tauto
  · simp [tally_ifElse, add_assoc]
  · simp [Stmt.occurrences_ifElse]

theorem parseFor (hkind : s.current.kind = .keyword .forLoop) :
    T.AddsStmt stack ns os s (parseFor gas block s) := by
  refine openBlock hkind rfl (.bind (header (HeaderTracking.parseForHeader _)) fun names s₂ => ?_)
  refine .bind (hblock _ _ _ _ s₂) fun body s₃ => .pre inBlock ?_
  refine .bind (closeBlock _ _) fun stop s₄ => .pure fun h => closeBody h ?_ (tally_forLoop _ _ _ _) ?_
  · rw [Stmt.nodes]
    exact List.subset_append_right _ _
  · simp [Stmt.occurrences, loopOccurrences]

theorem parseWhile (hkind : s.current.kind = .keyword .whileLoop) :
    T.AddsStmt stack ns os s (parseWhile gas block s) := by
  refine openBlock hkind rfl (.bind (parseCondition _ _) fun condition s₂ => ?_)
  refine .bind (hblock _ _ _ _ s₂) fun body s₃ => .pre inBlock ?_
  refine .bind (closeBlock _ _) fun stop s₄ => .pure fun h => closeBody h ?_ (tally_whileLoop _ _ _) ?_
  · rw [Stmt.nodes]
    exact List.subset_append_right _ _
  · simp [Stmt.occurrences]

theorem parseDoUntil (hkind : s.current.kind = .keyword .doBlock) :
    T.AddsStmt stack ns os s (parseDoUntil gas block s) := by
  refine openBlock hkind rfl (.bind (hblock _ _ _ _ _) fun body s₂ => ?_)
  refine .read rfl (.ite (fun hword => ?_) (fun _ => .fail rfl _ fun _ => .read rfl (.pure trivial)))
  refine .next (.pre (fun h => T.word h (kind_of_isWord_singleton hword) nofun rfl) ?_)
  refine .bind (parseCondition _ _) fun condition s₄ => .pure fun h => closeBody h ?_ (tally_doUntil _ _ _) ?_
  · rw [Stmt.nodes]
    exact List.subset_append_of_subset_left _ (List.subset_cons_self _ _)
  · simp [Stmt.occurrences]

theorem parseCatch :
    CleanRun (T.Holds (.block .tryBlock false :: stack) ns os s) s
      (fun handler s' => T.InBlock .tryBlock stack (ns ++ stmtNodes handler.2)
        (os ++ handler.1.toList.flatMap Variable.occurrences ++ stmtOccurrences handler.2) s')
      (parseCatch block s) := by
  refine .read rfl (.ite (fun hword => ?_) (fun _ => .pure fun h => ⟨false, ?_⟩))
  · refine .next (.pre (fun h => T.word h (kind_of_isWord_singleton hword) nofun rfl) ?_)
    refine .bind (header (HeaderTracking.parseErrorVariable s.current)) fun errorVar s₂ => ?_
    exact .bind (hblock (.block .tryBlock true :: stack) _ _ _ s₂) fun _ _ => .pure inBlock
  · exact T.mono (nothing h) (List.Subset.refl _) rfl (List.subset_append_left _ _)

theorem parseTry (hkind : s.current.kind = .keyword .tryBlock) :
    T.AddsStmt stack ns os s (parseTry block s) := by
  refine openBlock hkind rfl (.bind (header HeaderTracking.separator) fun _ s₂ => ?_)
  refine .bind (hblock _ _ _ _ s₂) fun body s₃ => .bind (parseCatch hblock) fun handler s₄ => ?_
  refine .bind (closeBlock _ _) fun stop s₅ => .pure fun h => close h ?_ ?_ ?_
  · intro n hn
    simp only [Stmt.nodes, List.mem_append, List.mem_cons] at hn ⊢
    tauto
  · simp [tally_tryCatch]
  · simp [Stmt.occurrences]

end

theorem parseFunction (layout : Layout) (hblock : T.Blocks block)
    (hkind : s.current.kind = .keyword .function) :
    T.AddsStmt stack ns os s (parseFunction layout gas block s) := by
  refine openBlock hkind rfl (.bind (header (HeaderTracking.parseHeader _)) fun names s₂ => .read rfl ?_)
  refine .bind (header HeaderTracking.finishHeader) fun _ s₃ => .bind (hblock _ _ _ _ s₃) fun body s₄ => ?_
  refine .read rfl (.ite (fun hword => .next (.pure fun h => ?_)) (fun _ => ?_))
  · refine closeBody (terminator (inBlock h) hword) ?_ (tally_function _ _ _ _ _) ?_
    · rw [Stmt.nodes]
      exact List.subset_append_right _ _
    · simp [Stmt.occurrences]
  · exact .fail rfl _ fun _ => .read rfl (.pure trivial)

/-! All statements. -/

theorem some {p : Parser Stmt} (h : T.AddsStmt stack ns os s (p s)) :
    T.AddsOption stack ns os s ((some <$> p) s) :=
  h.map fun _ _ => single

/-- The parser for statements that have no blocks but those of a switch. -/
def Switches (T : StatementTracking) (gas : Nat) (block : BlockParser) : Prop :=
  ∀ stack ns os s, s.current.kind = .keyword .switchBlock →
    T.AddsStmt stack ns os s (parseSwitch gas block s)

theorem parseKeywordStatement (layout : Layout) (hblock : T.Blocks block) (hswitch : T.Switches gas block)
    (token : Token) {word : Keyword} (hkind : s.current.kind = .keyword word) :
    T.AddsOption stack ns os s (parseKeywordStatement layout gas block token word s) := by
  cases word with
  | function => exact some (parseFunction layout hblock hkind)
  | ifBlock => exact some (parseIf hblock hkind)
  | forLoop => exact some (parseFor hblock hkind)
  | whileLoop => exact some (parseWhile hblock hkind)
  | doBlock => exact some (parseDoUntil hblock hkind)
  | switchBlock => exact some (hswitch _ _ _ _ hkind)
  | tryBlock => exact some (parseTry hblock hkind)
  | breakOut => exact some (parseJump .breakOut hkind nofun rfl)
  | continueOn => exact some (parseJump .continueOn hkind nofun rfl)
  | returnBack => exact some (parseJump .returnBack hkind nofun rfl)
  | global => exact some (T.declare .global hkind (by rw [hkind]; rfl))
  | persistent => exact some (T.declare .persistent hkind (by rw [hkind]; rfl))
  | _ => exact CleanRun.next (.fail (severity_ofToken _) _ fun _ => .pure trivial)

theorem parseNameStatement (hname : s.current.isName = true) :
    T.AddsOption stack ns os s (parseNameStatement gas s.current s) := by
  refine .read rfl (.ite (fun _ => T.assign hname) (fun _ => .read rfl (.read rfl ?_)))
  exact .ite (fun hcommand => some (parseCommand hname hcommand)) (fun _ => parseExpressionStatement)

theorem parseStatement (layout : Layout) (hblock : T.Blocks block) (hswitch : T.Switches gas block) :
    T.AddsOption stack ns os s (parseStatement layout gas block s) := by
  refine .read rfl ?_
  cases hkind : s.current.kind with
  | keyword word => exact parseKeywordStatement layout hblock hswitch _ hkind
  | sign sign =>
    cases sign with
    | openBracket =>
      refine .read rfl (.ite (fun hfound => ?_) (fun _ => parseExpressionStatement))
      exact some (T.assignMany hkind hfound)
    | _ => exact parseExpressionStatement
  | identifier | native => exact parseNameStatement (by rw [Token.isName, hkind]; rfl)
  | _ => exact parseExpressionStatement

theorem parseNext {statement : Parser (Option Stmt)} (h : T.AddsOption stack ns os s (statement s)) :
    T.AddsOption stack ns os s (parseNext statement s) := by
  refine .read rfl (.bind h fun _ s₁ => .read rfl (.ite (fun _ => .next ?_) (fun _ => .pure id)))
  exact .fail (severity_ofToken _) _ fun _ => .pure trivial

theorem parseStatements {statement : Parser (Option Stmt)} (ends : List Keyword)
    (hstatement : ∀ ns os s, T.AddsOption stack ns os s (statement s)) (gas count : Nat) (done : List Stmt) :
    CleanRun (T.Holds stack (ns ++ stmtNodes done.reverse) (os ++ stmtOccurrences done.reverse) s) s
      (fun body s' => T.Holds stack (ns ++ stmtNodes body) (os ++ stmtOccurrences body) s' ∧
        (s'.current.kind = .eof ∨ s'.current.isWord ends = true))
      (parseStatements statement ends gas count done s) := by
  induction gas generalizing s count done with
  | zero => exact .outOfGas
  | succ gas ih =>
    refine .bind (header HeaderTracking.skipSeparators) fun _ s₁ => .read rfl (.ite (fun hend => ?_) (fun _ => ?_))
    · rw [Bool.or_eq_true, beq_iff_eq] at hend
      exact .pure fun h => ⟨h, hend⟩
    refine .ite (fun _ => .failHere rfl fun _ => .pure trivial) (fun _ => ?_)
    refine .bind (parseNext (hstatement _ _ s₁)) fun st s₂ => ?_
    cases st with
    | none => exact .pre (fun h => by simpa [stmtNodes, stmtOccurrences] using h) (ih _ _)
    | some st =>
      refine .pre (fun h => ?_) (ih _ _)
      rw [List.reverse_cons, stmtNodes_append, stmtOccurrences_append, ← List.append_assoc,
        ← List.append_assoc]
      exact h

/-- The statements of a block, if blocks inside them keep the fact. -/
theorem parseBlock (T : StatementTracking) (stack : List Enclosure) (ns : List Node) (os : List Occurrence)
    (layout : Layout) (hblock : T.Blocks (parseBlock layout gas))
    (hswitch : T.Switches (gas + 1) (parseBlock layout gas)) (ends : List Keyword) (s : State) :
    CleanRun (T.Holds stack ns os s) s
      (fun body s' => T.Holds stack (ns ++ stmtNodes body) (os ++ stmtOccurrences body) s' ∧
        (s'.current.kind = .eof ∨ s'.current.isWord ends = true))
      (parseBlock layout (gas + 1) ends s) :=
  .pre nothing (parseStatements ends (fun _ _ _ => parseStatement layout hblock hswitch) (gas + 1) 0 [])

end StatementTracking

end Parser

end MatrixScript
