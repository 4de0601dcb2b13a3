import MatrixScript.Proofs.Parser.Code
import MatrixScript.Proofs.Parser.Operator
import MatrixScript.Proofs.Parser.Program

/-! Parsing always comes to its end.

Main statement: with gas for every token of the code, the parser runs into no fault and stops at the end
token, and the statement lists that it makes are not too long. -/
namespace MatrixScript

namespace Parser

/-- A run that is compared with itself. -/
def Frame.self (code : Code) : Frame := ⟨code, 0, 0, 0, #[], []⟩

theorem Beside.self {code : Code} (heof : code.eof.kind = .eof)
    (hkind : ∀ t ∈ code.tokens, t.kind ≠ .eof) :
    Beside (.self code) (.ofCode code) (.ofCode code) := by
  refine .ofCode rfl ?_ rfl rfl rfl rfl rfl heof hkind (fun h => absurd rfl h)
    (.inl ⟨rfl, (Token.down_zero _).symm⟩)
  change code.tokens = code.tokens.map (Token.down 0) ++ []
  rw [Token.down_zero_eq_id, List.map_id, List.append_nil]

variable {statement : Parser (Option Stmt)} {ends : List Keyword}

/-- The loop ends with the code, at a keyword that ends the block or at the limit, if nothing goes
wrong. -/
theorem parseStatements_stops (gas count : Nat) (done : List Stmt) (s : State) :
    let s' := (parseStatements statement ends gas count done s).2
    s'.faults ≠ [] ∨ s'.current.kind = .eof ∨ s'.current.isWord ends = true ∨
      ∃ d ∈ s'.diagnostics, d.code = .statementLimit := by
  induction gas generalizing count done s with
  | zero => exact .inl (List.cons_ne_nil _ _)
  | succ g ih =>
    rw [parseStatements_succ]
    dsimp only
    split_ifs with hend hlimit
    · rw [Bool.or_eq_true, beq_iff_eq] at hend
      exact .inr (hend.imp_right .inl)
    · exact .inr (.inr (.inr ⟨_, Array.mem_push_self, rfl⟩))
    · exact ih _ _ _

/-- The program is left before its end only where it has too many statements. -/
theorem parseBlock_stops (layout : Layout) (gas : Nat) (s : State) :
    let s' := (parseBlock layout gas [] s).2
    s'.faults ≠ [] ∨ s'.current.kind = .eof ∨ ∃ d ∈ s'.diagnostics, d.code = .statementLimit := by
  cases gas with
  | zero => exact .inl (List.cons_ne_nil _ _)
  | succ g =>
    rw [parseBlock]
    have hstops := @parseStatements_stops (parseStatement layout (g + 1) (parseBlock layout g)) []
      (g + 1) 0 [] s
    simpa only [isWord_nil, Bool.false_eq_true, false_or] using hstops

/-! What is read from the code. -/

theorem State.getElem?_all (s : State) (n : Nat) :
    s.code.all[min (s.pos + n) s.code.tokens.length]? = some (s.ahead n) := by
  unfold ahead Code.all
  rw [s.rest_eq, List.getElem?_drop]
  by_cases hlt : s.pos + n < s.code.tokens.length
  · rw [Nat.min_eq_left (Nat.le_of_lt hlt), List.getElem?_append_left hlt,
      List.getElem?_eq_getElem hlt, Option.getD_some]
  · rw [Nat.min_eq_right (Nat.le_of_not_lt hlt), List.getElem?_eq_none (Nat.le_of_not_lt hlt),
      List.getElem?_concat_length, Option.getD_none]

theorem State.ahead_mem_all (s : State) (n : Nat) : s.ahead n ∈ s.code.all :=
  List.mem_of_getElem? (s.getElem?_all n)

theorem advance_fst (s : State) : (advance s).1 = s.ahead 0 := by
  rw [← s.current_eq_ahead]
  by_cases hrest : s.rest = []
  · rw [advance_eq_self hrest]
  · rw [advance_eq hrest]

/-- The operator at a place is one that has a precedence. -/
theorem lookup_peekOperator {s : State} (hsigns : ∀ t ∈ s.code.all, t.SpellsSign) {op : BinaryOp}
    {width : Nat} (h : (peekOperator s).1 = some (op, width)) :
    BinaryOp.precedences.lookup (String.join ((List.range width).map fun k => (s.ahead k).text)) =
      some op.precedence := by
  have hop : operatorAt (s.ahead 0) (s.ahead 1) = some (op, width) := s.current_eq_ahead ▸ h
  have hspelling :=
    operatorAt_spelling (hsigns _ (s.ahead_mem_all 0)) (hsigns _ (s.ahead_mem_all 1)) hop
  rw [← op.lookup_precedences]
  obtain ⟨rfl, htext⟩ | ⟨rfl, htext⟩ := hspelling
  · simp [String.join, htext]
  · simp [String.join, List.range_succ, htext]

theorem spellsSign_of_mem_all {tokens : List Token} (h : ∀ t ∈ tokens, t.SpellsSign) :
    ∀ t ∈ (Code.ofTokens tokens).all, t.SpellsSign := by
  refine List.forall_mem_append.mpr ⟨fun t ht => h t ((Code.tokens_sublist _).subset ht),
    List.forall_mem_singleton.mpr fun sign hkind => ?_⟩
  rw [Code.eof_kind] at hkind
  contradiction

/-- What the parser reads in a state are tokens of the code, and operators that have a precedence. -/
structure ReadsCode (s : State) : Prop where
  peek_eq : ∀ k, s.code.all[min (s.pos + k) s.code.tokens.length]? = some (peek k s).1
  previous_eq : s.code.all[s.pos - 1]? = some (previous s).1
  advance_eq : s.code.all[s.pos]? = some (advance s).1
  operator : ∀ op width, (peekOperator s).1 = some (op, width) →
    BinaryOp.precedences.lookup (String.join ((List.range width).map fun k => (s.ahead k).text)) =
      some op.precedence

theorem State.readsCode {s : State} (hsigns : ∀ t ∈ s.code.all, t.SpellsSign) : ReadsCode s where
  peek_eq := s.getElem?_all
  previous_eq := s.previous_eq
  advance_eq := by rw [advance_fst, ← s.getElem?_all 0, Nat.add_zero, Nat.min_eq_left s.pos_le]
  operator := fun _ _ hop => lookup_peekOperator hsigns hop

/-! The whole run. -/

def runProgram (code : Code) (gas : Nat) : Program × State :=
  parseProgram (.ofCode code) gas (.ofCode code)

/-- What a run over the code keeps to. -/
structure GoesWell (code : Code) (gas : Nat) : Prop where
  /-- No loop runs out of gas, and no bracket is closed that is not open. -/
  faults_eq : (runProgram code gas).2.faults = []
  pos_eq : (runProgram code gas).2.pos = code.tokens.length
  current_eq : (runProgram code gas).2.current = code.eof
  eof_kind : code.eof.kind = .eof
  fits : Stmt.BlockFits (runProgram code gas).1.body
  /-- Tokens are skipped only behind too many statements. -/
  skipped : (runBlock code gas).2.rest ≠ [] →
    ∃ d ∈ (runProgram code gas).2.diagnostics, d.code = .statementLimit
  /-- The gas makes no difference. -/
  body_eq : code.parse.program.body.map (Stmt.bareDown 0) =
    (runProgram code gas).1.body.map (Stmt.bareDown 0)
  diagnostics_eq : code.parse.diagnostics = (runProgram code gas).2.diagnostics.toList

theorem runProgram_rest (code : Code) (gas : Nat) : (runProgram code gas).2.rest = [] := by
  change (skipUntil (fun _ => false) (runBlock code gas).2).2.rest = []
  rw [skipUntil_rest]
  exact List.dropWhile_eq_nil_iff.mpr fun _ _ => rfl

/-- Compared with itself, a run over code that has its end token only at the end is seen to go well. -/
theorem goesWell {code : Code} {gas : Nat} (heof : code.eof.kind = .eof)
    (hkind : ∀ t ∈ code.tokens, t.kind ≠ .eof) (hgas : code.tokens.length < gas) :
    GoesWell code gas := by
  obtain ⟨hstep, hbody⟩ := parseBlock_beside rfl (.ofCode code) (.ofCode code) gas
    (code.tokens.length + 1) [] _ _ (.self heof hkind) rfl ⟨hgas, Nat.lt_succ_self _⟩
  have hcode : (runProgram code gas).2.code = code := hstep.code
  have hrest := runProgram_rest code gas
  refine ⟨hstep.beside.faults.1, ?_, ?_, heof, hbody.2, fun hmore => ?_, hbody.1, ?_⟩
  · have hdrop := hcode ▸ (runProgram code gas).2.rest_eq.symm.trans hrest
    have hle := hcode ▸ (runProgram code gas).2.pos_le
    exact Nat.le_antisymm hle (List.drop_eq_nil_iff.mp hdrop)
  · rw [State.current, hrest, hcode]
    rfl
  · obtain hfault | hend | hlimit := parseBlock_stops (.ofCode code) gas (.ofCode code)
    · exact absurd hstep.beside.faults.1 hfault
    · exact absurd hend (hstep.beside.current_kind_ne hmore)
    · exact hlimit
  · have hsame : (runBlock code (code.tokens.length + 1)).2.diagnostics =
        #[] ++ (runBlock code gas).2.diagnostics.map (Diagnostic.down 0) := hstep.beside.diagnostics
    rw [Diagnostic.down_zero_eq_id, Array.map_id, Array.empty_append] at hsame
    exact congrArg Array.toList hsame

/-- On the code of every text, also where tokens are missing at its end, the parser comes to its end.
Gas for the tokens of the code is enough. -/
theorem parse_finishes (limit : Int) (text : String) (tokens : List Token) (n gas : Nat)
    (htokens : tokenize limit text = .ok tokens)
    (hgas : (Code.ofTokens (tokens.take n)).tokens.length < gas) :
    GoesWell (Code.ofTokens (tokens.take n)) gas ∧
      ∀ s : State, s.code = Code.ofTokens (tokens.take n) → ReadsCode s := by
  have hreads := ((tokenize_eq_ok_iff limit text tokens).mp htokens).1
  have hkind := Code.kind_ne_of_mem_tokens (hreads.endsOnce.sublist (List.take_sublist n tokens))
  have hsigns := spellsSign_of_mem_all fun t (ht : t ∈ tokens.take n) =>
    hreads.spellsSign t (List.mem_of_mem_take ht)
  exact ⟨goesWell (Code.eof_kind _) hkind hgas, fun s hs => s.readsCode (hs ▸ hsigns)⟩

/-- The tokens of `x(1 +`. -/
def openCall : List Token := [
  ⟨.identifier, "x", ⟨⟨0, 0⟩, ⟨0, 1⟩⟩⟩, ⟨.sign .openParen, "(", ⟨⟨0, 1⟩, ⟨0, 2⟩⟩⟩,
  ⟨.number, "1", ⟨⟨0, 2⟩, ⟨0, 3⟩⟩⟩, ⟨.sign .plus, "+", ⟨⟨0, 4⟩, ⟨0, 5⟩⟩⟩,
  ⟨.eof, "", ⟨⟨0, 5⟩, ⟨0, 5⟩⟩⟩]

/-- Without the end token. -/
theorem parse_finishes_openCall : tokenize 5 "x(1 +" = .ok openCall ∧
    (Code.ofTokens (openCall.take 4)).tokens.length < 5 ∧
    GoesWell (Code.ofTokens (openCall.take 4)) 5 ∧
    ∀ s : State, s.code = Code.ofTokens (openCall.take 4) → ReadsCode s :=
  have htokens : tokenize 5 "x(1 +" = .ok openCall := rfl
  have hgas : (Code.ofTokens (openCall.take 4)).tokens.length < 5 := by decide
  ⟨htokens, hgas, parse_finishes 5 _ openCall 4 5 htokens hgas⟩

end Parser

end MatrixScript
