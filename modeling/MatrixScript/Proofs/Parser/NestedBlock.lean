import MatrixScript.Proofs.Parser.NestedLine

/-! Acceptance is sound: code without errors is properly nested. -/
namespace MatrixScript

namespace Parser

variable {o : Origin} {t : Tally} {stack : List Enclosure} {s : State} {block : BlockParser} {gas : Nat}

/-- What counts by its nodes. -/
theorem Counts.adds {α : Type} {N : α → List Node} {ns : List Node} {x : α × State}
    (h : Counts (fun a => tally (N a)) o (t + tally ns) stack s x) :
    CleanRun (At o (t + tally ns) [] stack s) s (fun a s' => At o (t + tally (ns ++ N a)) [] stack s') x :=
  h.mono fun _ _ _ hat => by rwa [tally_append, ← add_assoc]

/-- Whole statements are properly nested. Words of commands may be among the tokens. -/
def nestingStatements (o : Origin) (ho : o.plain = false) (t : Tally) : StatementTracking where
  line ns := nesting o (t + tally ns)
  context _ stack := stack
  code := o.code
  eof_kind := o.eof_kind
  code_eq h := h.code_eq
  mono h _ htally _ := by
    change At o (t + tally _) [] _ _
    rwa [htally]
  word h := h.word
  takeWord h := h.takeWord ho
  assign hname := Counts.adds (parseAssignment_counts hname)
  assignMany hkind hfound := Counts.adds (parseManyAssignment_counts hkind hfound)
  declare storage _ hkind := Counts.adds (parseDeclaration_counts storage hkind)

theorem BlockNests.blocks (h : BlockNests block) (ho : o.plain = false) :
    (nestingStatements o ho t).Blocks block :=
  fun stack _ _ ends s => Counts.adds (h o _ stack ends s ho)

/-! The branches of a switch. -/

theorem closeBlock_nests (ho : o.plain = false) (word : Keyword) (keyword : Token) :
    CleanRun (At o t [] (.block word false :: stack) s) s (fun _ s' => At o t [] stack s')
      (closeBlock word keyword s) := by
  have hclose : CleanRun ((nestingStatements o ho t).InBlock word stack [] [] s) s _
      (closeBlock word keyword s) := StatementTracking.closeBlock word keyword
  exact .pre (fun h => ⟨false, h.plus rfl⟩) (hclose.mono fun _ _ _ h => add_zero t ▸ h)

theorem skipSeparators_nests : Nests o t stack s (skipUntil (fun kind => !isSeparator kind) s) :=
  nests HeaderTracking.skipSeparators

/-- Behind a second `otherwise` the statements of the first one are dropped. -/
theorem parseBranches_counts (ho : o.plain = false) (hblock : BlockNests block) (exprGas gas : Nat)
    (cases : List (Branch Stmt)) (otherwise : Option (List Stmt)) :
    CleanRun (At o (t + (tally (branchNodes cases.reverse) + .otherwise otherwise)) []
        (.block .switchBlock false :: stack) s) s
      (fun branches s' => At o (t + (tally (branchNodes branches.1) + .otherwise branches.2)) []
        (.block .switchBlock false :: stack) s')
      (parseBranches exprGas block gas cases otherwise s) := by
  induction gas generalizing s cases otherwise with
  | zero => exact .outOfGas
  | succ gas ih =>
    refine .bind skipSeparators_nests fun _ s₁ => .read rfl ?_
    have hbad : CleanRun (At o (t + (tally (branchNodes cases.reverse) + .otherwise otherwise)) []
          (.block .switchBlock false :: stack) s₁) s₁
        (fun branches s' => At o (t + (tally (branchNodes branches.1) + .otherwise branches.2)) []
          (.block .switchBlock false :: stack) s') ((advance >>= fun _ =>
        report (.ofToken s₁.current) s₁.current.span >>= fun _ => synchronize >>= fun _ =>
          parseBranches exprGas block gas cases otherwise) s₁) :=
      .next (.fail (severity_ofToken _) _ fun s₂ => .bind (.synchronize s₂) fun _ _ _ _ =>
        (ih cases otherwise).leads)
    cases hkind : s₁.current.kind with
    | keyword word =>
      cases word with
      | caseBranch =>
        refine .next (.pre (fun h => h.word hkind nofun rfl) ?_)
        refine .bind (nests (HeaderTracking.parseGuard _)) fun _ s₃ => ?_
        refine .bind (hblock o _ _ _ s₃ ho) fun _ _ => .read rfl (.pre (fun h => ?_) (ih _ _))
        rw [tally_branches_reverse, add_right_comm, ← add_assoc]
        exact h
      | otherwiseBranch =>
        have hdrop (h : At o (t + (tally (branchNodes cases.reverse) + .otherwise otherwise)) []
            (.block .switchBlock false :: stack) s₁) := (add_assoc t _ _ ▸ h).drop.otherwise hkind rfl
        refine .next (.pre hdrop ?_)
        refine .bind (hblock o _ _ _ _ ho) fun _ _ => .pre (fun h => ?_) (ih _ _)
        rw [← add_assoc, Tally.otherwise, Option.elim_some, add_comm (tally _), ← add_assoc]
        exact h
      | endAny | endSwitch => exact .pure id
      | _ => exact hbad
    | eof => exact .pure id
    | _ => exact hbad

theorem parseSwitch_counts (ho : o.plain = false) (hblock : BlockNests block) :
    (nestingStatements o ho t).Switches gas block := by
  intro stack ns os s hkind
  refine StatementTracking.openBlock hkind rfl (.bind (StatementTracking.parseCondition _ _) fun _ s₂ => ?_)
  refine .pre (fun h => At.plus h rfl) (.bind (parseBranches_counts ho hblock gas gas [] none) fun _ s₃ => ?_)
  refine .bind (closeBlock_nests ho _ _) fun _ _ => .pure fun h => ?_
  change At o (t + tally _) [] stack _
  rwa [tally_append, tally_switch, ← add_assoc]

theorem parseBlock_counts (layout : Layout) (gas : Nat) : BlockNests (parseBlock layout gas) := by
  induction gas with
  | zero => exact fun _ _ _ _ _ _ => .outOfGas
  | succ gas ih =>
    intro o t stack ends s ho
    have hblock := (nestingStatements o ho t).parseBlock stack [] [] layout (ih.blocks ho)
      (parseSwitch_counts ho ih) ends s
    exact .pre (fun h => h.plus rfl) (hblock.mono fun _ _ _ h => h.1)

/-- A block in which nothing can end it goes on to the end of the code. -/
theorem parseBlock_reaches_end (layout : Layout) (ho : o.plain = false) (gas : Nat) :
    CleanRun (At o t [] stack s) s
      (fun body s' => At o (t + countStmts body) [] stack s' ∧ s'.current.kind = .eof)
      (parseBlock layout (gas + 1) [] s) := by
  have hnests := parseBlock_counts layout gas
  have hblock := (nestingStatements o ho t).parseBlock stack [] [] layout (hnests.blocks ho)
    (parseSwitch_counts ho hnests) [] s
  refine .pre (fun h => h.plus rfl) (hblock.mono ?_)
  rintro _ s' _ ⟨hat, hend⟩
  simp only [isWord_nil, Bool.false_eq_true, or_false] at hend
  exact ⟨hat, hend⟩

/-- Where the end token is, all tokens were read. -/
theorem At.kept_all {groups : List Group} {stack : List Enclosure} (h : At o t groups stack s)
    (hend : s.current.kind = .eof) : s.kept o.start = keptTokens s.words o.start (o.code.tokens.drop o.start) := by
  have hrest : s.rest = [] := by
    cases hrest : s.rest with
    | nil => rfl
    | cons t ts =>
      have hcurrent : s.current = t := by rw [State.current, hrest]; rfl
      have hmem : t ∈ o.code.tokens.drop s.pos := by
        rw [← h.code_eq, ← s.rest_eq, hrest]
        exact List.mem_cons_self
      exact absurd (hcurrent ▸ hend) (o.kind_ne t (List.mem_of_mem_drop hmem))
  have hle : o.code.tokens.length ≤ s.pos := by
    rw [s.rest_eq, h.code_eq] at hrest
    exact List.drop_eq_nil_iff.mp hrest
  rw [State.kept, h.code_eq, List.extract_eq_take_drop,
    List.take_of_length_le (by rw [List.length_drop]; omega)]

end Parser

/-! The whole code. -/

/-- The places of the tokens that the parser takes as words of commands. -/
def Code.commandWords (code : Code) : List Nat :=
  (Parser.runProgram code (code.tokens.length + 1)).2.words

/-- Where the words of commands are left out, each bracket and each block is closed by its own kind of
closer, and its parts stand directly in it. -/
structure Code.ProperlyNested (code : Code) : Prop where
  words : ∀ place ∈ code.commandWords, code.HasWord place
  legal : ∀ t ∈ keptTokens code.commandWords 0 code.tokens, t.kind ≠ .illegal
  closed : Enclosure.scan [] (keptTokens code.commandWords 0 code.tokens) = some []

/-- The parser finds no error in such code. -/
theorem Code.runBlock_clean {code : Code} (heof : code.eof.kind = .eof)
    (hkind : ∀ t ∈ code.tokens, t.kind ≠ .eof) (herrors : code.parse.errors = []) :
    (Parser.runBlock code (code.tokens.length + 1)).2.Clean := by
  refine ⟨(Parser.goesWell heof hkind (Nat.lt_succ_self _)).faults_eq, fun d hd => ?_⟩
  have herror := List.filter_eq_nil_iff.mp herrors d hd
  simpa using herror

/-- The parser goes on to the end of such code, and leaves nothing open. -/
theorem Code.runBlock_at {code : Code} (heof : code.eof.kind = .eof)
    (hkind : ∀ t ∈ code.tokens, t.kind ≠ .eof) (herrors : code.parse.errors = []) :
    Parser.At ⟨code, heof, hkind, 0, [], false⟩ (0 + tally (stmtNodes code.parse.program.body)) [] []
        (Parser.runBlock code (code.tokens.length + 1)).2 ∧
      (Parser.runBlock code (code.tokens.length + 1)).2.current.kind = .eof := by
  have hstart : Parser.At ⟨code, heof, hkind, 0, [], false⟩ 0 [] [] (.ofCode code) :=
    ⟨rfl, rfl, Nat.zero_le _, nofun, nofun, nofun, rfl, [], rfl⟩
  exact (Parser.parseBlock_reaches_end (.ofCode code) rfl code.tokens.length).2
    (runBlock_clean heof hkind herrors) hstart

theorem Code.properlyNested {code : Code} (heof : code.eof.kind = .eof)
    (hkind : ∀ t ∈ code.tokens, t.kind ≠ .eof) (herrors : code.parse.errors = []) :
    code.ProperlyNested := by
  obtain ⟨hat, hend⟩ := runBlock_at heof hkind herrors
  have hscan := hat.scan_eq
  rw [hat.kept_all hend] at hscan
  exact ⟨hat.commands, Enclosure.not_illegal_of_scan hscan, hscan⟩

/-- Acceptance is sound: code without errors is properly nested. -/
theorem accepted_properlyNested (limit : Int) (text : String) (tokens : List Token)
    (htokens : tokenize limit text = .ok tokens) (herrors : (parse tokens).errors = []) :
    (Code.ofTokens tokens).ProperlyNested := by
  have hreads := ((tokenize_eq_ok_iff limit text tokens).mp htokens).1
  exact Code.properlyNested (Code.eof_kind _) (Code.kind_ne_of_mem_tokens hreads.endsOnce) herrors

/-- The tokens of `hold x)` and of `if a(end), end` on the next line. -/
def heldBlock : List Token := [
  ⟨.native, "hold", ⟨⟨0, 0⟩, ⟨0, 4⟩⟩⟩, ⟨.identifier, "x", ⟨⟨0, 5⟩, ⟨0, 6⟩⟩⟩,
  ⟨.sign .closeParen, ")", ⟨⟨0, 6⟩, ⟨0, 7⟩⟩⟩, ⟨.newline, "\n", ⟨⟨0, 7⟩, ⟨1, 0⟩⟩⟩,
  ⟨.keyword .ifBlock, "if", ⟨⟨1, 0⟩, ⟨1, 2⟩⟩⟩, ⟨.identifier, "a", ⟨⟨1, 3⟩, ⟨1, 4⟩⟩⟩,
  ⟨.sign .openParen, "(", ⟨⟨1, 4⟩, ⟨1, 5⟩⟩⟩, ⟨.keyword .endAny, "end", ⟨⟨1, 5⟩, ⟨1, 8⟩⟩⟩,
  ⟨.sign .closeParen, ")", ⟨⟨1, 8⟩, ⟨1, 9⟩⟩⟩, ⟨.sign .comma, ",", ⟨⟨1, 9⟩, ⟨1, 10⟩⟩⟩,
  ⟨.keyword .endAny, "end", ⟨⟨1, 11⟩, ⟨1, 14⟩⟩⟩, ⟨.eof, "", ⟨⟨1, 14⟩, ⟨1, 14⟩⟩⟩]

/-- The parenthesis of the command closes nothing, and the first `end` is an index. -/
theorem accepted_properlyNested_heldBlock :
    tokenize 12 "hold x)\nif a(end), end" = .ok heldBlock ∧ (parse heldBlock).errors = [] ∧
      (Code.ofTokens heldBlock).ProperlyNested :=
  have htokens : tokenize 12 "hold x)\nif a(end), end" = .ok heldBlock := by decide +kernel
  have herrors : (parse heldBlock).errors = [] := by decide +kernel
  ⟨htokens, herrors, accepted_properlyNested 12 _ heldBlock htokens herrors⟩

end MatrixScript
