import MatrixScript.Proofs.Parser.Nested
import MatrixScript.Proofs.Parser.StatementTracking

/-! Statements on one line that are without errors are properly nested. -/
namespace MatrixScript

open Enclosure

namespace Parser

variable {o : Origin} {t : Tally} {stack : List Enclosure} {s : State} {block : BlockParser} {gas : Nat}

/-- What takes properly nested tokens, as long as it finds no error. -/
def Nests {α : Type} (o : Origin) (t : Tally) (stack : List Enclosure) (s : State) (x : α × State) : Prop :=
  CleanRun (At o t [] stack s) s (fun _ s' => At o t [] stack s') x

/-- What adds statements to the tree, too. -/
def Counts {α : Type} (count : α → Tally) (o : Origin) (t : Tally) (stack : List Enclosure) (s : State)
    (x : α × State) : Prop :=
  CleanRun (At o t [] stack s) s (fun a s' => At o (t + count a) [] stack s') x

def countStmt (st : Stmt) : Tally := tally st.nodes

def countStmts (ss : List Stmt) : Tally := tally (stmtNodes ss)

/-- The parser for the blocks inside statements. Words of commands may be among the tokens. -/
def BlockNests (block : BlockParser) : Prop :=
  ∀ (o : Origin) (t : Tally) (stack : List Enclosure) (ends : List Keyword) (s : State), o.plain = false →
    Counts countStmts o t stack s (block ends s)

theorem At.plus {groups : List Group} (h : At o t groups stack s) {more : Tally} (hmore : more = 0) :
    At o (t + more) groups stack s := by
  rwa [hmore, add_zero]

theorem parseExpression_nests_nil (gas : Nat) (stack : List Enclosure) (s : State) :
    CleanRun (At o t [] stack s) s (Nested o t [] stack s) (parseExpression gas 0 s) :=
  parseExpression_nests gas o t [] stack 0 s (.nil stack)

theorem finishStatement_nests : Nests o t stack s (finishStatement s) :=
  nests (Tracking.finishStatement [] (.nil stack))

/-! Statements on one line. -/

theorem parseAssigned_nests (equals : Token) : Nests o t stack s (parseAssigned gas equals s) :=
  nests (HeaderTracking.parseAssigned equals)

theorem finishAssignment_counts (span : Span) :
    Counts (Tally.assignment span) o t stack s (finishAssignment span s) := by
  refine .bind finishStatement_nests fun silent s₁ => .ite (fun hshown => ?_) (fun hsilent => .pure ?_)
  · have hwarn : CleanRun (At o t [] stack s₁) s₁ (fun _ s' => At o (t + ({span}, 0)) [] stack s')
        (report .showsOutput span s₁) := ⟨.report _ _ s₁, fun _ h => h.reportShown span⟩
    refine .bind hwarn fun _ _ => .pure fun h => ?_
    rwa [Tally.assignment, if_neg (by simpa using hshown)]
  · exact fun h => h.plus (if_pos (by simpa using hsilent))

theorem parseAssignment_counts (hname : s.current.isName = true) :
    Counts (fun st => countStmts st.toList) o t stack s (parseAssignment gas s) := by
  refine .bind (parseName_nests gas gas hname) fun target s₁ => ?_
  refine .ite (fun _ => ?_) (fun hequals => ?_)
  · refine .fail rfl _ fun s₂ => .bind (.synchronize s₂) fun _ s₃ _ _ => ?_
    exact .bind (.finishStatement s₃) fun _ _ _ _ => .pure trivial
  · have hkind : s₁.current.kind = .sign .equals := by simpa using hequals
    refine .next (.pre (fun h => h.passSign hkind rfl) ?_)
    refine .bind (parseAssigned_nests _) fun _ s₃ => .bind (finishAssignment_counts _) fun _ _ => .pure fun h => ?_
    change At o (t + countStmts [_]) [] stack _
    rwa [countStmts, stmtNodes_singleton, tally_assign]

theorem parseDeclared_nests (exprGas gas : Nat) (names : List Variable) :
    Nests o t stack s (parseDeclared exprGas gas names s) := by
  induction gas generalizing s names with
  | zero => exact .outOfGas
  | succ gas ih =>
    refine .read rfl (.ite (fun _ => .pure id) (fun hname => ?_))
    replace hname : s.current.isName = true := by simpa using hname
    refine .next (.pre (fun h => h.pass (Token.isNeutral_of_isName hname)) ?_)
    refine .ite (fun hequals => ?_) (fun _ => ih _)
    refine .next (.pre (fun h => h.passSign (beq_iff_eq.mp hequals) rfl) ?_)
    refine .bind (parseExpression_nests_nil exprGas stack _) fun value s₃ => ?_
    exact .ite (fun _ => .failExpected _ fun _ => (ih _).leads) (fun _ => .pre (fun h => h.1) (ih _))

theorem parseDeclaration_counts (storage : Storage) (hkind : s.current.kind.isNeutral = true) :
    Counts countStmt o t stack s (parseDeclaration gas storage s) := by
  refine .next (.pre (fun h => h.pass hkind) (.bind (parseDeclared_nests gas gas []) fun _ s₂ => ?_))
  exact .bind finishStatement_nests fun _ _ => .pure fun h => h.plus (tally_declare _ _ _)

/-! Multiple assignments. -/

theorem parseTargets_nests (nameGas gas : Nat) : Nests o t stack s (parseTargets nameGas gas [] s) :=
  nests (HeaderTracking.parseTargets [] nameGas gas [])

/-- The number of brackets that are open. -/
def bracketDepth (stack : List Enclosure) : Nat :=
  stack.countP fun e => match e with
    | .bracket _ => true
    | .block _ _ => false

theorem bracketDepth_stepWord {stack stack' : List Enclosure} {word : Keyword}
    (h : stepWord stack word = some stack') : bracketDepth stack' = bracketDepth stack := by
  unfold stepWord at h
  split at h
  · cases h
    rfl
  split at h
  · cases h
    rfl
  split at h
  · contradiction
  · split at h
    · cases h
      rfl
    · contradiction
  · split at h
    · cases h
      rfl
    · obtain ⟨split, _, rfl⟩ := Option.map_eq_some_iff.mp h
      rfl

/-- The search for the end of the targets counts brackets as the scan does. -/
theorem findTargetsEnd_step {stack stack' : List Enclosure} {t : Token}
    (h : step stack t.kind = some stack') (hkind : t.kind ≠ .eof) (ts : List Token) :
    findTargetsEnd (bracketDepth stack + 1) (t :: ts) =
      findTargetsEnd (bracketDepth stack' + 1) ts := by
  rw [findTargetsEnd.eq_def]
  dsimp only
  cases hk : t.kind with
  | sign sign =>
    rw [hk, step, stepSign] at h
    dsimp only
    cases hopen : Group.ofOpening? sign with
    | some group =>
      rw [hopen] at h
      cases h
      have hdepth : bracketDepth (.bracket group :: stack) = bracketDepth stack + 1 :=
        List.countP_cons_of_pos rfl
      rw [hdepth]
      rfl
    | none =>
      cases hclose : Group.ofClosing? sign with
      | none =>
        rw [hopen, hclose] at h
        cases h
        rfl
      | some group =>
        simp only [hopen, hclose] at h
        split_ifs at h with htop
        cases h
        obtain ⟨rest, rfl⟩ := List.head?_eq_some_iff.mp htop
        have hdepth : bracketDepth (.bracket group :: rest) = bracketDepth rest + 1 :=
          List.countP_cons_of_pos rfl
        rw [hdepth]
        rfl
  | keyword word =>
    rw [hk] at h
    rw [bracketDepth_stepWord h]
  | eof => exact absurd hk hkind
  | illegal =>
    rw [hk] at h
    contradiction
  | _ =>
    rw [hk] at h
    cases h
    rfl

theorem findTargetsEnd_scan {stack stack' : List Enclosure} {us : List Token}
    (h : scan stack us = some stack') (hkind : ∀ t ∈ us, t.kind ≠ .eof) (ts : List Token) :
    findTargetsEnd (bracketDepth stack + 1) (us ++ ts) =
      findTargetsEnd (bracketDepth stack' + 1) ts := by
  induction us generalizing stack with
  | nil =>
    cases h
    rfl
  | cons u us ih =>
    rw [scan_cons] at h
    obtain ⟨next, hnext, hscan⟩ := Option.bind_eq_some_iff.mp h
    obtain ⟨hu, hus⟩ := List.forall_mem_cons.mp hkind
    rw [List.cons_append, findTargetsEnd_step hnext hu, ih hscan hus]

/-- What is found behind the closing bracket is the next token, an equals sign. -/
theorem head?_of_findTargetsEnd {t found : Token} {ts : List Token} (hkind : t.kind = .sign .closeBracket)
    (h : findTargetsEnd 1 (t :: ts) = some found) :
    ts.head? = some found ∧ found.kind = .sign .equals := by
  rw [findTargetsEnd.eq_def] at h
  cases ts with
  | nil => simp [hkind, Group.ofOpening?, Group.ofClosing?] at h
  | cons equals more =>
    simp only [hkind, Group.ofOpening?, Group.ofClosing?, Option.isSome_none, Option.isSome_some,
      Bool.false_eq_true, if_true, if_false] at h
    split_ifs at h with hassigns
    cases h
    rw [Bool.and_eq_true] at hassigns
    exact ⟨rfl, beq_iff_eq.mp hassigns.1⟩

/-- The opening bracket of the targets is counted. -/
theorem findTargetsEnd_opened (hkind : s.current.kind = .sign .openBracket) :
    findTargetsEnd 0 s.rest = findTargetsEnd 1 (advance s).2.rest := by
  cases hrest : s.rest with
  | nil =>
    rw [advance_eq_self hrest, hrest]
    rfl
  | cons t ts =>
    have hcurrent : s.current = t := by rw [State.current, hrest]; rfl
    rw [findTargetsEnd.eq_def, advance_eq (by simp [hrest])]
    simp [← hcurrent, hkind, State.skip, hrest, Group.ofOpening?]

theorem findTargetsEnd_advance (hkind : s.current.kind = .sign .openBracket)
    (hfound : (findTargetsEnd 0 s.rest).isSome = true) :
    (findTargetsEnd 1 (advance s).2.rest).isSome = true := by
  rwa [← findTargetsEnd_opened hkind]

/-- A scan can start anywhere, with nothing open. -/
def Origin.fresh (o : Origin) (start : Nat) : Origin :=
  { o with start, stack := [], plain := true }

theorem At.of_state {groups : List Group} (hcode : s.code = o.code) (hgroups : s.groups = groups)
    (hlt : ∀ w ∈ s.words, w < s.pos) (hcommands : ∀ w ∈ s.words, o.code.HasWord w) :
    At (o.fresh s.pos) (s.tally s.pos) groups [] s where
  code_eq := hcode
  groups_eq := hgroups
  start_le := Nat.le_refl _
  words_lt := hlt
  plain := fun _ => hlt
  commands := hcommands
  scan_eq := by
    simp [Origin.fresh, State.kept, List.extract_eq_take_drop, keptTokens, scan]
  tally_eq := ⟨[], (add_zero _).symm⟩

theorem At.fresh {groups : List Group} (h : At o t groups stack s) :
    At (o.fresh s.pos) (s.tally s.pos) groups [] s :=
  .of_state h.code_eq h.groups_eq h.words_lt h.commands

/-- The search goes on behind the targets as it was before them. -/
theorem At.findTargetsEnd_eq {s₁ s₂ : State} (h : At (o.fresh s₁.pos) t [] [] s₂)
    (hcode : s₁.code = o.code) : findTargetsEnd 1 s₁.rest = findTargetsEnd 1 s₂.rest := by
  have hle : s₁.pos ≤ s₂.pos := h.start_le
  have hcode₂ : s₂.code = o.code := h.code_eq
  have hscan := h.scan_eq
  rw [State.kept, keptTokens_of_lt (h.plain rfl), hcode₂] at hscan
  change scan [] (o.code.tokens.extract s₁.pos s₂.pos) = some [] at hscan
  have hsplit : s₁.rest = o.code.tokens.extract s₁.pos s₂.pos ++ s₂.rest := by
    have hdrop : s₂.rest = s₁.rest.drop (s₂.pos - s₁.pos) := by
      rw [s₁.rest_eq, s₂.rest_eq, hcode, hcode₂, List.drop_drop, Nat.add_sub_cancel' hle]
    rw [hdrop, List.extract_eq_take_drop, ← hcode, ← s₁.rest_eq, List.take_append_drop]
  have hkinds : ∀ t ∈ o.code.tokens.extract s₁.pos s₂.pos, t.kind ≠ .eof := by
    intro t ht
    rw [List.extract_eq_take_drop] at ht
    exact o.kind_ne t (List.mem_of_mem_drop (List.mem_of_mem_take ht))
  rw [hsplit]
  exact findTargetsEnd_scan hscan hkinds s₂.rest

/-- Behind the targets and their closing bracket stands the equals sign that was found before. -/
theorem At.found_behind {s₁ s₂ : State} (h : At (o.fresh s₁.pos) t [] [] s₂) (hcode : s₁.code = o.code)
    {found : Token} (hfound : findTargetsEnd 1 s₁.rest = some found)
    (hclose : s₂.current.kind = .sign .closeBracket) :
    (Parser.advance s₂).2.current = found ∧ found.kind = .sign .equals := by
  have hne := h.rest_ne_nil (by rw [hclose]; exact nofun)
  obtain ⟨t, ts, hrest⟩ := List.exists_cons_of_ne_nil hne
  have hcurrent : s₂.current = t := by rw [State.current, hrest]; rfl
  rw [h.findTargetsEnd_eq hcode, hrest] at hfound
  obtain ⟨hhead, hkind⟩ := head?_of_findTargetsEnd (hcurrent ▸ hclose) hfound
  obtain ⟨more, rfl⟩ := List.head?_eq_some_iff.mp hhead
  rw [advance_current, State.ahead, hrest]
  exact ⟨rfl, hkind⟩

theorem parseTargets_equals (nameGas gas : Nat) (hfound : (findTargetsEnd 1 s.rest).isSome = true) :
    CleanRun (At (o.fresh s.pos) t [] [] s) s
      (fun _ s' => s'.current.kind = .sign .closeBracket → (advance s').2.current.kind = .sign .equals)
      (parseTargets nameGas gas [] s) := by
  obtain ⟨found, hfound⟩ := Option.isSome_iff_exists.mp hfound
  refine (parseTargets_nests nameGas gas).mono fun _ _ hat h hclose => ?_
  obtain ⟨rfl, hkind⟩ := h.found_behind hat.code_eq hfound hclose
  exact hkind

theorem parseManyAssignment_counts (hkind : s.current.kind = .sign .openBracket)
    (hfound : (findTargetsEnd 0 s.rest).isSome = true) :
    Counts countStmt o t stack s (parseManyAssignment gas s) := by
  have hopened (hat : At o t [] stack s) : At o t [] (.bracket .bracket :: stack) (advance s).2 ∧
      At (o.fresh (advance s).2.pos) ((advance s).2.tally (advance s).2.pos) [] [] (advance s).2 :=
    have hat' := hat.openBracket hkind rfl
    ⟨hat', hat'.fresh⟩
  have htargets := CleanRun.pre hopened
    (.and (parseTargets_nests gas gas) (parseTargets_equals gas gas
      (findTargetsEnd_advance hkind hfound)))
  refine .next (.bind htargets fun _ s₂ => .bind (.expectSign rfl _ s₂) fun _ s₃ => .next ?_)
  have hassigned : CleanRun (At o t [] stack (advance s₃).2) (advance s₃).2
      (fun _ s' => At o t [] stack s') (parseAssigned gas s₃.current (advance s₃).2) :=
    parseAssigned_nests _
  refine .bind (.pre ?_ hassigned) fun _ s₄ => .bind (finishAssignment_counts _) fun _ _ => .pure fun h => ?_
  · rintro ⟨⟨hat, hequals⟩, hclose, rfl⟩
    exact (hat.closeBracket hclose).passSign (hequals hclose) rfl
  · rwa [countStmt, tally_assignMany]

end Parser

end MatrixScript
