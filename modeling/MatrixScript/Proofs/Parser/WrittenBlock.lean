import MatrixScript.Proofs.Parser.WrittenLine

/-! Parsing written statements that hold blocks.

Of the parser for blocks it is enough to know that it reads all blocks shorter than the statement
(`BlockReads`). Then every statement is read by going through its own lines, however deep the blocks
in it are nested. -/
namespace MatrixScript.Parser

open Piece Source

variable {s : State} {gas : Nat} {qs : List Piece}

/-! Words at the front of lines. -/

theorem isWord_of_kind {token : Token} {word : Keyword} (h : token.kind = .keyword word)
    (words : List Keyword) : token.isWord words = words.contains word := by
  rw [Token.isWord, h]

/-- The pieces start with one of these words. -/
def StartsWith (words : List Keyword) (ps : List Piece) : Prop :=
  ∃ word ∈ words, kindAt ps 0 = .keyword word

namespace StartsWith

variable {words : List Keyword} {ps : List Piece}

theorem word (glued : Bool) (word : Keyword) (ps : List Piece) (words : List Keyword) :
    StartsWith (word :: words) (.word glued word.spelling :: ps) :=
  ⟨word, List.mem_cons_self, Lexeme.nameKind_spelling word⟩

theorem closer {opener : Keyword} (close : Closer opener) (ps : List Piece) :
    StartsWith opener.terminators (.word true close.1.spelling :: ps) :=
  ⟨close.1, close.2, Lexeme.nameKind_spelling close.1⟩

theorem cons (h : StartsWith words ps) (word : Keyword) : StartsWith (word :: words) ps := by
  obtain ⟨other, hother, hkind⟩ := h
  exact ⟨other, List.mem_cons_of_mem _ hother, hkind⟩

theorem endsBlock (h : StartsWith words ps) (ends : List Keyword)
    (hends : ∀ word ∈ words, ends.contains word = true) :
    Parser.endsBlock ends (kindAt ps 0) = true := by
  obtain ⟨word, hword, hkind⟩ := h
  rw [hkind]
  exact hends word hword

theorem isWord (h : StartsWith words ps) (hs : s.Starts ps) {others : List Keyword}
    (hothers : ∀ word ∈ words, others.contains word = false) : s.current.isWord others = false := by
  obtain ⟨word, hword, hkind⟩ := h
  rw [isWord_of_kind (hs.current_kind.trans hkind), hothers word hword]

/-- Clauses stand in front of what may come behind them. -/
theorem clauses (h : StartsWith words ps) (word : Keyword) (clauses : List (Clause Tree)) :
    StartsWith (word :: words) (Line.allPieces (Tree.clauseLines word clauses) ++ ps) := by
  cases clauses with
  | nil => exact h.cons word
  | cons clause clauses => exact .word true word _ words

theorem last (h : StartsWith words ps) (word : Keyword) (body : Option (List Tree)) :
    StartsWith (word :: words) (Line.allPieces (Tree.lastLines word body) ++ ps) := by
  cases body with
  | none => exact h.cons word
  | some body => exact .word true word _ words

end StartsWith

/-- A keyword stands where the parser is. -/
theorem State.Starts.word_kind {glued : Bool} {word : Keyword}
    (h : s.Starts (.word glued word.spelling :: qs)) : s.current.kind = .keyword word :=
  h.current_kind.trans (Lexeme.nameKind_spelling word)

theorem State.Starts.isWord_self {glued : Bool} {word : Keyword}
    (h : s.Starts (.word glued word.spelling :: qs)) : s.current.isWord [word] = true := by
  rw [isWord_of_kind h.word_kind]
  exact List.contains_iff_mem.mpr List.mem_cons_self

theorem yields_closeBlock {opener : Keyword} (close : Closer opener)
    (h : s.Starts (.word true close.1.spelling :: qs)) (keyword : Token) :
    Yields s qs (fun _ => True) (closeBlock opener keyword s) := by
  refine .read rfl (.yes ?_ (.next h fun s₁ h₁ _ _ => .pure h₁ trivial))
  rw [isWord_of_kind h.word_kind]
  exact List.contains_iff_mem.mpr close.2

/-! Values at the end of lines. -/

section

variable {gas : Nat} {s : State} {qs : List Piece} (value : Value .outside)

theorem yields_value (h : s.Starts (value.expr.pieces false ++ .newline :: qs))
    (hgas : (value.expr.pieces false ++ .newline :: qs).length < gas) :
    Yields s (.newline :: qs) (IsRead value.expr) (parseExpression gas 0 s) :=
  yields_expression ⟨by decide, value.bare, value.lexical, fun hne => absurd rfl hne, h⟩ hgas rfl

theorem not_atStatementEnd (h : s.Starts (value.expr.pieces false ++ .newline :: qs)) :
    (endsStatement s.current.kind || closesBlock s.current.kind) = false := by
  obtain ⟨p, ps, hpieces, hfront⟩ := value.bare.front value.lexical false
  have hcloser := hfront.isCloser_eq
  have hkeyword := hfront.isKeyword_eq.trans (value.bare.startsWithEnd_eq rfl)
  rw [h.current_kind, hpieces]
  change (endsStatement p.kind || closesBlock p.kind) = false
  cases hkind : p.kind with
  | sign sign => rw [hkind] at hcloser; cases sign <;> first | rfl | contradiction
  | keyword => rw [hkind] at hkeyword; contradiction
  | newline | eof => rw [hkind] at hcloser; contradiction
  | _ => rfl

theorem yields_condition (h : s.Starts (value.expr.pieces false ++ .newline :: qs))
    (hgas : (value.expr.pieces false ++ .newline :: qs).length < gas) (word : Keyword)
    (keyword : Token) :
    Yields s (.newline :: qs) (IsRead value.expr) (parseCondition gas word keyword s) := by
  have hend := Bool.eq_false_iff.mp (not_atStatementEnd value h)
  refine .read rfl (.no hend (.bind (yields_value value h hgas) ?_))
  rintro _ s₁ h₁ - ⟨e, rfl, he⟩
  exact .no nofun (.acceptNo h₁.starts rfl (.pure h₁ ⟨e, rfl, he⟩))

theorem yields_guard (h : s.Starts (value.expr.pieces false ++ .newline :: qs))
    (hgas : (value.expr.pieces false ++ .newline :: qs).length < gas) (keyword : Token) :
    Yields s (.newline :: qs) (IsRead value.expr) (parseGuard gas keyword s) := by
  refine .bind (yields_value value h hgas) ?_
  rintro _ s₁ h₁ - ⟨e, rfl, he⟩
  exact .no nofun (.acceptNo h₁.starts rfl (.pure h₁ ⟨e, rfl, he⟩))

end

/-! Blocks. -/

/-- The words that statements start with. -/
def openers : List Keyword :=
  [.ifBlock, .forLoop, .whileLoop, .doBlock, .switchBlock, .tryBlock, .breakOut, .continueOn,
    .returnBack]

/-- The parser reads all blocks of fewer than `n` pieces, with what is behind them. -/
def BlockReads (block : BlockParser) (n : Nat) : Prop :=
  ∀ {s : State} {trees : List Tree} {ends : List Keyword} {qs : List Piece},
    s.Sees (.newline :: (Line.allPieces (Tree.blockLines trees) ++ qs)) →
    (Line.allPieces (Tree.blockLines trees) ++ qs).length + 1 < n →
    trees.length ≤ maxStatements ∧ Tree.allFit trees = true →
    (∀ word ∈ openers, ends.contains word = false) → endsBlock ends (kindAt qs 0) = true →
      Yields s qs (fun body => Stmt.unplacedBlock body = Stmt.unplacedBlock (Tree.toBlock trees))
        (block ends s)

/-- The parser reads the statement if at most `n` pieces are ahead. The newline at its end is left. -/
def TreeReads (parser : Parser Stmt) (n : Nat) (tree : Tree) : Prop :=
  tree.fits = true → ∀ {s : State} {qs : List Piece}, s.Starts (Line.allPieces tree.lines ++ qs) →
    (Line.allPieces tree.lines ++ qs).length ≤ n →
      Yields s (.newline :: qs) (fun stmt => stmt.unplaced = tree.toStmt.unplaced) (parser s)

/-- The loop over statements reads what is written on lines, up to the end of the block. -/
theorem yields_statements {α : Type} {lines : α → List Line} {toStmt : α → Stmt}
    {statement : Parser (Option Stmt)} {ends : List Keyword} {n : Nat} {xs : List α}
    {rs : List Piece} (hwritten : ∀ x ∈ xs, ∀ qs, (Line.allPieces (lines x) ++ qs).length ≤ n →
      Written statement ends (Line.allPieces (lines x) ++ qs) (.newline :: qs) (toStmt x))
    (hrs : endsBlock ends (kindAt rs 0) = true) (seps : List Piece)
    (hseps : ∀ a ∈ seps, isSeparator a.kind = true)
    (h : s.Starts (seps ++ (Line.allPieces (xs.flatMap lines) ++ rs)))
    (hnil : xs = [] → s.Sees (seps ++ rs))
    (hlength : (Line.allPieces (xs.flatMap lines) ++ rs).length ≤ n) {count : Nat}
    (hgas : (Line.allPieces (xs.flatMap lines) ++ rs).length < gas)
    (hcount : count + xs.length ≤ maxStatements) (done : List Stmt) :
    Yields s rs (fun body => body.map Stmt.unplaced = (done.reverse ++ xs.map toStmt).map Stmt.unplaced)
      (parseStatements statement ends gas count done s) := by
  obtain ⟨gas, rfl⟩ := Nat.exists_eq_succ_of_ne_zero (Nat.ne_of_gt (Nat.zero_lt_of_lt hgas))
  induction xs generalizing seps s gas count done with
  | nil =>
    refine (yields_blockEnd seps hseps (hnil rfl) hrs gas count done).mono ?_
    rintro _ rfl
    simp
  | cons x xs ih =>
    obtain ⟨hx, hxs⟩ := List.forall_mem_cons.mp hwritten
    rw [List.flatMap_cons, Line.allPieces_append, List.append_assoc] at h hlength hgas
    have hround := hx _ hlength
    have hshorter := hround.shorter
    rw [List.length_cons] at hshorter
    rw [List.length_cons] at hcount
    obtain ⟨gas, rfl⟩ : ∃ gas', gas = gas' + 1 := ⟨gas - 1, by omega⟩
    refine yields_round seps hround hseps h (by omega) fun s' stmt h' _ hstmt => ?_
    refine (ih hxs [.newline] (List.forall_mem_singleton.mpr rfl) h'.starts ?_ (by omega) (by omega)
      (stmt :: done) gas (by omega)).mono ?_
    · rintro rfl
      exact h'
    · intro body hbody
      rw [hbody]
      simp [hstmt]

/-! Branches. -/

section

variable {block : BlockParser} {n : Nat}

theorem yields_elseIfs (hblock : BlockReads block n) {clauses : List (Clause Tree)}
    (hfits : Tree.clausesFit clauses = true) {rest : List Piece}
    (hrest : StartsWith (.elseBranch :: Keyword.ifBlock.terminators) rest)
    (h : s.Sees (Line.allPieces (Tree.clauseLines .elseifBranch clauses) ++ rest))
    (hlength : (Line.allPieces (Tree.clauseLines .elseifBranch clauses) ++ rest).length ≤ n)
    (hgas : (Line.allPieces (Tree.clauseLines .elseifBranch clauses) ++ rest).length < gas)
    (done : List (Branch Stmt)) :
    Yields s rest (fun branches => Stmt.unplacedBranches branches =
      Stmt.unplacedBranches done.reverse ++ Stmt.unplacedBranches (Tree.toBranches clauses))
      (parseElseIfs (n + 1) block gas done s) := by
  induction clauses generalizing s gas done with
  | nil =>
    obtain ⟨gas, rfl⟩ := Nat.exists_eq_succ_of_ne_zero (Nat.ne_of_gt (Nat.zero_lt_of_lt hgas))
    rw [parseElseIfs]
    have hword : s.current.isWord [.elseifBranch] = false := hrest.isWord h.starts (by decide)
    refine .read rfl (.yes (by rw [hword]; rfl) (.pure h ?_))
    simp [Tree.toBranches, Stmt.unplacedBranches]
  | cons clause clauses ih =>
    obtain ⟨guard, body⟩ := clause
    simp only [Tree.clausesFit, Bool.and_eq_true, decide_eq_true_eq] at hfits
    simp only [Tree.clauseLines, Line.allPieces_cons, Line.allPieces_append, Line.headed,
      List.cons_append, List.append_assoc] at h hlength hgas
    simp only [List.length_cons, List.length_append] at hlength hgas
    obtain ⟨gas, rfl⟩ : ∃ gas', gas = gas' + 1 := ⟨gas - 1, by omega⟩
    rw [parseElseIfs]
    refine .read rfl (.no (by rw [h.starts.isWord_self]; decide) (.next h.starts fun s₁ h₁ _ _ => ?_))
    refine .bind (yields_condition guard h₁.starts (by simp; omega) _ _) ?_
    rintro _ s₂ h₂ - ⟨guard', rfl, hguard⟩
    have hends := (hrest.clauses .elseifBranch clauses).endsBlock ifBranchEnds (by decide)
    refine .bind (hblock h₂ (by simp; omega) hfits.1 (by decide) hends) fun body' s₃ h₃ _ hbody => ?_
    refine .read rfl ((ih hfits.2 h₃ (by simp; omega) (by simp; omega) _).mono ?_)
    intro branches hbranches
    rw [hbranches]
    simp [Stmt.unplacedBranches_eq, Stmt.unplacedBranch, Tree.toBranches, hguard, hbody]

theorem yields_else (hblock : BlockReads block n) {otherwise : Option (List Tree)}
    (hfits : Tree.lastFits otherwise = true) {rest : List Piece}
    (hrest : StartsWith Keyword.ifBlock.terminators rest)
    (h : s.Sees (Line.allPieces (Tree.lastLines .elseBranch otherwise) ++ rest))
    (hlength : (Line.allPieces (Tree.lastLines .elseBranch otherwise) ++ rest).length ≤ n) :
    Yields s rest (fun body => Stmt.unplacedOption body = Stmt.unplacedOption (Tree.toOption otherwise))
      (parseElse block s) := by
  cases otherwise with
  | none =>
    have hword : s.current.isWord [.elseBranch] = false := hrest.isWord h.starts (by decide)
    exact .read rfl (.no (by rw [hword]; decide) (.pure h rfl))
  | some body =>
    simp only [Tree.lastFits, Bool.and_eq_true, decide_eq_true_eq] at hfits
    simp only [Tree.lastLines, Line.allPieces_cons, Line.word, List.cons_append, List.nil_append]
      at h hlength
    simp only [List.length_cons] at hlength
    refine .read rfl (.yes h.starts.isWord_self (.next h.starts fun s₁ h₁ _ _ => ?_))
    have hends := hrest.endsBlock Keyword.ifBlock.terminators (by decide)
    refine .bind (hblock h₁ (by omega) hfits (by decide) hends) fun body' s₂ h₂ _ hbody => .pure h₂ ?_
    simp [Stmt.unplacedOption, Tree.toOption, hbody]

theorem reads_if (hblock : BlockReads block n) (condition : Value .outside) (body : List Tree)
    (clauses : List (Clause Tree)) (otherwise : Option (List Tree)) (close : Closer .ifBlock) :
    TreeReads (parseIf (n + 1) block) n (.ifElse condition body clauses otherwise close) := by
  intro hfits s qs h hlength
  simp only [Tree.fits, Bool.and_eq_true, decide_eq_true_eq] at hfits
  obtain ⟨⟨hbody, hclauses⟩, hotherwise⟩ := hfits
  simp only [Tree.lines, Line.allPieces_cons, Line.allPieces_append, Line.allPieces_nil, Line.headed,
    Line.word, List.cons_append, List.append_assoc, List.nil_append] at h hlength
  simp only [List.length_cons, List.length_append] at hlength
  have hrest := StartsWith.closer close (.newline :: qs)
  refine .next h fun s₁ h₁ _ _ => ?_
  refine .bind (yields_condition condition h₁.starts (by simp; omega) _ _) ?_
  rintro _ s₂ h₂ - ⟨condition', rfl, hcondition⟩
  have hlast := hrest.last .elseBranch otherwise
  have hends := (hlast.clauses .elseifBranch clauses).endsBlock ifBranchEnds (by decide)
  refine .bind (hblock h₂ (by simp; omega) hbody (by decide) hends) fun body' s₃ h₃ _ hbody' => ?_
  refine .bind (yields_elseIfs hblock hclauses hlast h₃ (by simp; omega) (by simp; omega) []) ?_
  intro clauses' s₄ h₄ _ hclauses'
  refine .bind (yields_else hblock hotherwise hrest h₄ (by simp; omega)) ?_
  intro otherwise' s₅ h₅ _ hotherwise'
  refine .bind (yields_closeBlock close h₅.starts _) fun stop s₆ h₆ _ _ => .pure h₆ ?_
  simp [Tree.toStmt, Stmt.unplaced, hcondition, hbody', hclauses', Stmt.unplacedBranches, hotherwise']

/-! Loops. -/

/-- The header is that of the loop, up to places. -/
def IsLoopHeader (loopVar : Name) (iterable : Value .outside) (header : Option Variable × Option Expr) :
    Prop :=
  header.1.map Variable.unplaced = some ⟨loopVar.text, .zero⟩ ∧ IsRead iterable.expr header.2

section

variable {loopVar : Name} {iterable : Value .outside} {s : State} {qs : List Piece} {gas : Nat}

theorem yields_loopHeader
    (h : s.Starts (.word false loopVar.text :: .sign false .equals ::
      (iterable.expr.pieces false ++ .newline :: qs)))
    (hgas : (iterable.expr.pieces false ++ .newline :: qs).length < gas) (keyword : Token) :
    Yields s (.newline :: qs) (IsLoopHeader loopVar iterable) (parseLoopHeader gas keyword s) := by
  have htext : s.current.text = loopVar.text := h.current_text
  have hname : s.current.isName = true := by
    rw [Token.isName, h.current_kind]
    exact loopVar.isName.isName
  refine .read rfl (.no (by rw [hname]; decide) (.next h fun s₁ h₁ _ _ => .read rfl (.no ?_ ?_)))
  · rw [h₁.starts.current_kind]
    exact Bool.false_ne_true
  refine .next h₁.starts fun s₂ h₂ _ _ => .bind (yields_value iterable h₂.starts hgas) ?_
  rintro _ s₃ h₃ - ⟨e, rfl, he⟩
  refine .bind (.expectValue h₃ rfl) fun _ s₄ h₄ _ _ => .pure h₄ ⟨?_, e, rfl, he⟩
  simp [Variable.unplaced, htext]

theorem yields_forHeader
    (h : s.Starts (.word false loopVar.text :: .sign false .equals ::
      (iterable.expr.pieces false ++ .newline :: qs)))
    (hgas : (iterable.expr.pieces false ++ .newline :: qs).length < gas) (keyword : Token) :
    Yields s (.newline :: qs) (IsLoopHeader loopVar iterable) (parseForHeader gas keyword s) := by
  have hopen : (s.current.kind == .sign .openParen) = false := by
    rw [h.current_kind, beq_eq_false_iff_ne]
    exact Lexeme.nameKind_ne_sign _ _
  have hheader : Yields s (.newline :: qs) (IsLoopHeader loopVar iterable)
      (parseLoopHeaderOrGroup gas keyword s) := by
    refine .read rfl (.read rfl (.read rfl (.no ?_ (yields_loopHeader h hgas keyword))))
    simp [hopen]
  refine .bind hheader ?_
  rintro ⟨loopVar', _⟩ s₁ h₁ - ⟨hloopVar, e, rfl, he⟩
  refine .no ?_ (.acceptNo h₁.starts rfl (.pure h₁ ⟨hloopVar, e, rfl, he⟩))
  cases loopVar' with
  | none => contradiction
  | some loopVar' => exact nofun

end

theorem reads_for (hblock : BlockReads block n) (loopVar : Name) (iterable : Value .outside)
    (body : List Tree) (close : Closer .forLoop) :
    TreeReads (parseFor (n + 1) block) n (.forLoop loopVar iterable body close) := by
  intro hfits s qs h hlength
  simp only [Tree.fits, Bool.and_eq_true, decide_eq_true_eq] at hfits
  simp only [Tree.lines, Line.allPieces_cons, Line.allPieces_append, Line.allPieces_nil, Line.loop,
    Line.word, List.cons_append, List.append_assoc, List.nil_append] at h hlength
  simp only [List.length_cons, List.length_append] at hlength
  have hrest := StartsWith.closer close (.newline :: qs)
  refine .next h fun s₁ h₁ _ _ => ?_
  refine .bind (yields_forHeader h₁.starts (by simp; omega) _) ?_
  rintro ⟨loopVar', _⟩ s₂ h₂ - ⟨hloopVar, e, rfl, he⟩
  have hends := hrest.endsBlock Keyword.forLoop.terminators (by decide)
  refine .bind (hblock h₂ (by simp; omega) hfits (by decide) hends) fun body' s₃ h₃ _ hbody => ?_
  refine .bind (yields_closeBlock close h₃.starts _) fun stop s₄ h₄ _ _ => .pure h₄ ?_
  simp only [Tree.toStmt, Stmt.unplaced, hloopVar, hbody, he, Option.map_some]
  rfl

theorem reads_while (hblock : BlockReads block n) (condition : Value .outside) (body : List Tree)
    (close : Closer .whileLoop) :
    TreeReads (parseWhile (n + 1) block) n (.whileLoop condition body close) := by
  intro hfits s qs h hlength
  simp only [Tree.fits, Bool.and_eq_true, decide_eq_true_eq] at hfits
  simp only [Tree.lines, Line.allPieces_cons, Line.allPieces_append, Line.allPieces_nil, Line.headed,
    Line.word, List.cons_append, List.append_assoc, List.nil_append] at h hlength
  simp only [List.length_cons, List.length_append] at hlength
  have hrest := StartsWith.closer close (.newline :: qs)
  refine .next h fun s₁ h₁ _ _ => ?_
  refine .bind (yields_condition condition h₁.starts (by simp; omega) _ _) ?_
  rintro _ s₂ h₂ - ⟨condition', rfl, hcondition⟩
  have hends := hrest.endsBlock Keyword.whileLoop.terminators (by decide)
  refine .bind (hblock h₂ (by simp; omega) hfits (by decide) hends) fun body' s₃ h₃ _ hbody => ?_
  refine .bind (yields_closeBlock close h₃.starts _) fun stop s₄ h₄ _ _ => .pure h₄ ?_
  simp [Tree.toStmt, Stmt.unplaced, hcondition, hbody]

theorem reads_doUntil (hblock : BlockReads block n) (body : List Tree) (condition : Value .outside) :
    TreeReads (parseDoUntil (n + 1) block) n (.doUntil body condition) := by
  intro hfits s qs h hlength
  simp only [Tree.fits, Bool.and_eq_true, decide_eq_true_eq] at hfits
  simp only [Tree.lines, Line.allPieces_cons, Line.allPieces_append, Line.allPieces_nil, Line.headed,
    Line.word, List.cons_append, List.append_assoc, List.nil_append] at h hlength
  simp only [List.length_cons, List.length_append] at hlength
  refine .next h fun s₁ h₁ _ _ => ?_
  have hrest := StartsWith.word true .untilTest (condition.expr.pieces false ++ .newline :: qs) []
  have hends := hrest.endsBlock Keyword.doBlock.terminators (by decide)
  refine .bind (hblock h₁ (by simp; omega) hfits (by decide) hends) fun body' s₂ h₂ _ hbody => ?_
  refine .read rfl (.yes h₂.starts.isWord_self (.next h₂.starts fun s₃ h₃ _ _ => ?_))
  refine .bind (yields_condition condition h₃.starts (by simp; omega) _ _) ?_
  rintro _ s₄ h₄ - ⟨condition', rfl, hcondition⟩
  refine .pure h₄ ?_
  simp [Tree.toStmt, Stmt.unplaced, hcondition, hbody]

/-! Switches. -/

theorem yields_branchesEnd {close : Closer .switchBlock} {seps : List Piece}
    (hseps : ∀ a ∈ seps, isSeparator a.kind = true)
    (h : s.Sees (seps ++ .word true close.1.spelling :: qs)) (exprGas gas : Nat)
    (cases : List (Branch Stmt)) (otherwise : Option (List Stmt)) :
    Yields s (.word true close.1.spelling :: qs) (fun x => x = (cases.reverse, otherwise))
      (parseBranches exprGas block (gas + 1) cases otherwise s) := by
  obtain ⟨word, hword⟩ := close
  have hkind : kindAt (.word true word.spelling :: qs) 0 = .keyword word :=
    Lexeme.nameKind_spelling word
  obtain ⟨s₁, hskip, h₁, hsame, hsees⟩ := h.starts.skipped (p := fun kind => !isSeparator kind)
    (fun a ha => by rw [hseps a ha]; rfl) (by rw [hkind]; rfl)
  rw [parseBranches]
  refine .skip hskip hsame (.read rfl ?_)
  rw [h₁.current_kind, hkind]
  obtain rfl | rfl : word = .endAny ∨ word = .endSwitch := by simpa [Keyword.terminators] using hword
  · exact .pure (hsees h) rfl
  · exact .pure (hsees h) rfl

theorem yields_otherwise (hblock : BlockReads block n) {otherwise : Option (List Tree)}
    (hfits : Tree.lastFits otherwise = true) {close : Closer .switchBlock} {seps : List Piece}
    (hseps : ∀ a ∈ seps, isSeparator a.kind = true)
    (h : s.Sees (seps ++ (Line.allPieces (Tree.lastLines .otherwiseBranch otherwise) ++
      .word true close.1.spelling :: qs)))
    (hlength : (Line.allPieces (Tree.lastLines .otherwiseBranch otherwise) ++
      .word true close.1.spelling :: qs).length ≤ n) {exprGas : Nat}
    (hgas : (Line.allPieces (Tree.lastLines .otherwiseBranch otherwise) ++
      .word true close.1.spelling :: qs).length < gas) (cases : List (Branch Stmt)) :
    Yields s (.word true close.1.spelling :: qs) (fun x => x.1 = cases.reverse ∧
      Stmt.unplacedOption x.2 = Stmt.unplacedOption (Tree.toOption otherwise))
      (parseBranches exprGas block gas cases none s) := by
  obtain ⟨gas, rfl⟩ := Nat.exists_eq_succ_of_ne_zero (Nat.ne_of_gt (Nat.zero_lt_of_lt hgas))
  cases otherwise with
  | none =>
    refine (yields_branchesEnd hseps h exprGas gas cases none).mono ?_
    rintro _ rfl
    exact ⟨rfl, rfl⟩
  | some body =>
    simp only [Tree.lastFits, Bool.and_eq_true, decide_eq_true_eq] at hfits
    simp only [Tree.lastLines, Line.allPieces_cons, Line.word, List.cons_append, List.nil_append]
      at h hlength hgas
    simp only [List.length_cons, List.length_append] at hlength hgas
    obtain ⟨gas, rfl⟩ : ∃ gas', gas = gas' + 1 := ⟨gas - 1, by omega⟩
    obtain ⟨s₁, hskip, h₁, hsame, -⟩ := h.starts.skipped (p := fun kind => !isSeparator kind)
      (fun a ha => by rw [hseps a ha]; rfl) rfl
    rw [parseBranches]
    refine .skip hskip hsame (.read rfl ?_)
    rw [h₁.word_kind]
    refine .next h₁ fun s₂ h₂ _ _ => ?_
    have hends := (StartsWith.closer close qs).endsBlock switchBranchEnds (by decide)
    refine .bind (hblock h₂ (by simp; omega) hfits (by decide) hends) fun body' s₃ h₃ _ hbody => ?_
    refine (yields_branchesEnd (List.forall_mem_nil _) h₃ exprGas gas cases (some body')).mono ?_
    rintro _ rfl
    simp [Stmt.unplacedOption, Tree.toOption, hbody]

theorem yields_branches (hblock : BlockReads block n) {clauses : List (Clause Tree)}
    (hfits : Tree.clausesFit clauses = true) {otherwise : Option (List Tree)}
    (hlast : Tree.lastFits otherwise = true) {close : Closer .switchBlock} {seps : List Piece}
    (hseps : ∀ a ∈ seps, isSeparator a.kind = true)
    (h : s.Sees (seps ++ (Line.allPieces (Tree.clauseLines .caseBranch clauses) ++
      (Line.allPieces (Tree.lastLines .otherwiseBranch otherwise) ++
        .word true close.1.spelling :: qs))))
    (hlength : (Line.allPieces (Tree.clauseLines .caseBranch clauses) ++
      (Line.allPieces (Tree.lastLines .otherwiseBranch otherwise) ++
        .word true close.1.spelling :: qs)).length ≤ n)
    (hgas : (Line.allPieces (Tree.clauseLines .caseBranch clauses) ++
      (Line.allPieces (Tree.lastLines .otherwiseBranch otherwise) ++
        .word true close.1.spelling :: qs)).length < gas) (done : List (Branch Stmt)) :
    Yields s (.word true close.1.spelling :: qs)
      (fun x => Stmt.unplacedBranches x.1 =
          Stmt.unplacedBranches done.reverse ++ Stmt.unplacedBranches (Tree.toBranches clauses) ∧
        Stmt.unplacedOption x.2 = Stmt.unplacedOption (Tree.toOption otherwise))
      (parseBranches (n + 1) block gas done none s) := by
  induction clauses generalizing s seps gas done with
  | nil =>
    refine (yields_otherwise hblock hlast hseps h hlength hgas done).mono ?_
    rintro x ⟨hdone, hotherwise⟩
    refine ⟨?_, hotherwise⟩
    simp [hdone, Tree.toBranches, Stmt.unplacedBranches]
  | cons clause clauses ih =>
    obtain ⟨guard, body⟩ := clause
    simp only [Tree.clausesFit, Bool.and_eq_true, decide_eq_true_eq] at hfits
    simp only [Tree.clauseLines, Line.allPieces_cons, Line.allPieces_append, Line.headed,
      List.cons_append, List.append_assoc] at h hlength hgas
    simp only [List.length_cons, List.length_append] at hlength hgas
    obtain ⟨gas, rfl⟩ : ∃ gas', gas = gas' + 1 := ⟨gas - 1, by omega⟩
    obtain ⟨s₁, hskip, h₁, hsame, -⟩ := h.starts.skipped (p := fun kind => !isSeparator kind)
      (fun a ha => by rw [hseps a ha]; rfl) rfl
    rw [parseBranches]
    refine .skip hskip hsame (.read rfl ?_)
    rw [h₁.word_kind]
    refine .next h₁ fun s₂ h₂ _ _ => .bind (yields_guard guard h₂.starts (by simp; omega) _) ?_
    rintro _ s₃ h₃ - ⟨guard', rfl, hguard⟩
    have hrest := (StartsWith.closer close qs).last .otherwiseBranch otherwise
    have hends := (hrest.clauses .caseBranch clauses).endsBlock switchBranchEnds (by decide)
    refine .bind (hblock h₃ (by simp; omega) hfits.1 (by decide) hends) fun body' s₄ h₄ _ hbody => ?_
    refine .read rfl (.mono (ih hfits.2 (List.forall_mem_nil _) h₄ (by simp; omega) (by simp; omega) _) ?_)
    rintro x ⟨hbranches, hotherwise⟩
    refine ⟨?_, hotherwise⟩
    rw [hbranches]
    simp [Stmt.unplacedBranches_eq, Stmt.unplacedBranch, Tree.toBranches, hguard, hbody]

theorem reads_switch (hblock : BlockReads block n) (subject : Value .outside)
    (clauses : List (Clause Tree)) (otherwise : Option (List Tree)) (close : Closer .switchBlock) :
    TreeReads (parseSwitch (n + 1) block) n (.switch subject clauses otherwise close) := by
  intro hfits s qs h hlength
  simp only [Tree.fits, Bool.and_eq_true] at hfits
  simp only [Tree.lines, Line.allPieces_cons, Line.allPieces_append, Line.allPieces_nil, Line.headed,
    Line.word, List.cons_append, List.append_assoc, List.nil_append] at h hlength
  simp only [List.length_cons, List.length_append] at hlength
  refine .next h fun s₁ h₁ _ _ => ?_
  refine .bind (yields_condition subject h₁.starts (by simp; omega) _ _) ?_
  rintro _ s₂ h₂ - ⟨subject', rfl, hsubject⟩
  have hseps : ∀ a ∈ [Piece.newline], isSeparator a.kind = true := List.forall_mem_singleton.mpr rfl
  refine .bind (yields_branches hblock hfits.1 hfits.2 hseps h₂ (by simp; omega) (by simp; omega) []) ?_
  rintro ⟨clauses', otherwise'⟩ s₃ h₃ - ⟨hclauses, hotherwise⟩
  refine .bind (yields_closeBlock close h₃.starts _) fun stop s₄ h₄ _ _ => .pure h₄ ?_
  simp [Tree.toStmt, Stmt.unplaced, hsubject, hclauses, Stmt.unplacedBranches, hotherwise]

/-! Errors that are caught. -/

/-- The name behind `catch` stands on its line. -/
theorem yields_errorVariable {errorVar : Option Name} {s₁ : State}
    (h : s.Starts ((Line.caught errorVar).pieces ++ .newline :: qs))
    (h₁ : s₁.Sees ((Line.caught errorVar).pieces.tail ++ .newline :: qs))
    (hprevious : s₁.previous = s.current) :
    Yields s₁ (.newline :: qs) (fun found => found.map Variable.unplaced =
      errorVar.map fun n => ⟨n.text, .zero⟩) (parseErrorVariable s.current s₁) := by
  cases errorVar with
  | none =>
    refine .read rfl (.read rfl (.no ?_ (.pure h₁ rfl)))
    have hname : s₁.current.isName = false := by rw [Token.isName, h₁.starts.current_kind]; rfl
    simp [hname]
  | some errorVar =>
    have hkeyword : s₁.previous.kind.isKeyword = true := by
      rw [hprevious, h.current_kind]
      rfl
    have hname : s₁.current.isName = true := by
      rw [Token.isName, h₁.starts.current_kind]
      exact errorVar.isName.isName
    have hends : endsCatchVariable (s₁.ahead 1).kind = true := by rw [h₁.starts.kind_ahead 1]; rfl
    have hline : s₁.current.span.start.line = s.current.span.start.line := by
      obtain ⟨t, us, hrest, hfits, -⟩ := h₁.fits
      rw [State.current, hrest, ← hprevious]
      exact hfits.line_eq _ rfl hkeyword
    have htext : s₁.current.text = errorVar.text := h₁.starts.current_text
    refine .read rfl (.read rfl (.yes (by simp [hname, hline, hends]) ?_))
    exact .next h₁.starts fun s₂ h₂ _ _ => .pure h₂ (by simp [Variable.unplaced, htext])

theorem caught_pieces (errorVar : Option Name) : ∃ ps, (Line.caught errorVar).pieces =
    .word true Keyword.catchBranch.spelling :: ps := by
  cases errorVar with
  | none => exact ⟨_, rfl⟩
  | some errorVar => exact ⟨_, rfl⟩

theorem yields_catch (hblock : BlockReads block n) {errorVar : Option Name} {handler : List Tree}
    (hfits : handler.length ≤ maxStatements ∧ Tree.allFit handler = true) {rest : List Piece}
    (hrest : StartsWith Keyword.tryBlock.terminators rest)
    (h : s.Starts ((Line.caught errorVar).pieces ++
      .newline :: (Line.allPieces (Tree.blockLines handler) ++ rest)))
    (hlength : ((Line.caught errorVar).pieces ++
      .newline :: (Line.allPieces (Tree.blockLines handler) ++ rest)).length ≤ n) :
    Yields s rest (fun x => x.1.map Variable.unplaced = errorVar.map (fun n => ⟨n.text, .zero⟩) ∧
      Stmt.unplacedBlock x.2 = Stmt.unplacedBlock (Tree.toBlock handler)) (parseCatch block s) := by
  have hcaught := h
  obtain ⟨ps, hpieces⟩ := caught_pieces errorVar
  rw [hpieces] at h hlength
  simp only [List.cons_append, List.length_cons, List.length_append] at hlength
  refine .read rfl (.yes h.isWord_self (.next h fun s₁ h₁ _ hprevious => ?_))
  have hvariable := yields_errorVariable hcaught (by rw [hpieces]; exact h₁) hprevious
  refine .bind hvariable fun errorVar' s₂ h₂ _ herror => ?_
  have hends := hrest.endsBlock Keyword.tryBlock.terminators (by decide)
  refine .bind (hblock h₂ (by simp; omega) hfits (by decide) hends) fun handler' s₃ h₃ _ hhandler => ?_
  exact .pure h₃ ⟨herror, hhandler⟩

theorem reads_try (hblock : BlockReads block n) (body : List Tree) (errorVar : Option Name)
    (handler : List Tree) (close : Closer .tryBlock) :
    TreeReads (parseTry block) n (.tryCatch body errorVar handler close) := by
  intro hfits s qs h hlength
  simp only [Tree.fits, Bool.and_eq_true, decide_eq_true_eq] at hfits
  obtain ⟨hbody, hhandler⟩ := hfits
  simp only [Tree.lines, Line.allPieces_cons, Line.allPieces_append, Line.word, Line.allPieces_nil,
    List.cons_append, List.append_assoc, List.nil_append] at h hlength
  simp only [List.length_cons, List.length_append] at hlength
  have hrest := StartsWith.closer close (.newline :: qs)
  refine .next h fun s₁ h₁ _ _ => .acceptNo h₁.starts rfl ?_
  have hends : endsBlock tryBodyEnds (kindAt ((Line.caught errorVar).pieces ++
      .newline :: (Line.allPieces (Tree.blockLines handler) ++
        .word true close.1.spelling :: .newline :: qs)) 0) = true := by
    obtain ⟨ps, hpieces⟩ := caught_pieces errorVar
    rw [hpieces]
    exact (StartsWith.word true .catchBranch _ []).endsBlock tryBodyEnds (by decide)
  refine .bind (hblock h₁ (by simp; omega) hbody (by decide) hends) fun body' s₂ h₂ _ hbody' => ?_
  refine .bind (yields_catch hblock hhandler hrest h₂.starts (by simp; omega)) ?_
  rintro ⟨errorVar', handler'⟩ s₃ h₃ - ⟨herror, hhandler'⟩
  refine .bind (yields_closeBlock close h₃.starts _) fun stop s₄ h₄ _ _ => .pure h₄ ?_
  have herror' : (errorVar.map fun n => (⟨n.text, .zero⟩ : Variable)).map Variable.unplaced =
      errorVar.map fun n => ⟨n.text, .zero⟩ := by cases errorVar <;> rfl
  simp only [Tree.toStmt, Stmt.unplaced, hbody', hhandler', herror, herror']

/-! Statements of all kinds. -/

theorem one_lt_length (tree : Tree) : 1 < (Line.allPieces tree.lines).length := by
  have hfirst : ∃ line rest, tree.lines = line :: rest ∧ 0 < line.pieces.length := by
    cases tree with
    | call function args => exact ⟨_, _, rfl, by simp [Line.call]⟩
    | _ => exact ⟨_, _, rfl, Nat.succ_pos _⟩
  obtain ⟨line, rest, hlines, hpos⟩ := hfirst
  rw [hlines, Line.allPieces_cons, List.length_append, List.length_cons]
  omega

/-- A written statement is read, wherever it stands. -/
theorem written_tree (hblock : BlockReads block n) (layout : Layout) {ends : List Keyword}
    (hends : ∀ word ∈ openers, ends.contains word = false) {tree : Tree} (hfits : tree.fits = true)
    (hlength : (Line.allPieces tree.lines ++ qs).length ≤ n) :
    Written (parseStatement layout (n + 1) block) ends (Line.allPieces tree.lines ++ qs) (.newline :: qs)
      tree.toStmt := by
  have hshorter : (Piece.newline :: qs).length < (Line.allPieces tree.lines ++ qs).length := by
    have hlines := one_lt_length tree
    rw [List.length_append, List.length_cons]
    omega
  cases tree with
  | assign target value =>
    rw [Tree.lines, Line.allPieces_cons, Line.allPieces_nil, List.append_assoc] at hlength ⊢
    exact written_assignment target.isName value.bare value.lexical (Nat.lt_succ_of_le hlength)
  | call function args =>
    rw [Tree.lines, Line.allPieces_cons, Line.allPieces_nil, List.append_assoc] at hlength ⊢
    exact written_call function args (Nat.lt_succ_of_le hlength)
  | jump way =>
    rw [Tree.lines, Line.allPieces_cons, Line.allPieces_nil, List.append_assoc]
    exact written_jump way (hends _ (by cases way <;> decide))
  | ifElse condition body clauses otherwise close =>
    exact written_keyword (hends .ifBlock (by decide)) (Lexeme.nameKind_spelling .ifBlock) hshorter
      (fun _ => rfl) fun s h => reads_if hblock condition body clauses otherwise close hfits h hlength
  | forLoop loopVar iterable body close =>
    exact written_keyword (hends .forLoop (by decide)) (Lexeme.nameKind_spelling .forLoop) hshorter
      (fun _ => rfl) fun s h => reads_for hblock loopVar iterable body close hfits h hlength
  | whileLoop condition body close =>
    exact written_keyword (hends .whileLoop (by decide)) (Lexeme.nameKind_spelling .whileLoop) hshorter
      (fun _ => rfl) fun s h => reads_while hblock condition body close hfits h hlength
  | doUntil body condition =>
    exact written_keyword (hends .doBlock (by decide)) (Lexeme.nameKind_spelling .doBlock) hshorter
      (fun _ => rfl) fun s h => reads_doUntil hblock body condition hfits h hlength
  | switch subject clauses otherwise close =>
    exact written_keyword (hends .switchBlock (by decide)) (Lexeme.nameKind_spelling .switchBlock)
      hshorter (fun _ => rfl) fun s h => reads_switch hblock subject clauses otherwise close hfits h hlength
  | tryCatch body errorVar handler close =>
    exact written_keyword (hends .tryBlock (by decide)) (Lexeme.nameKind_spelling .tryBlock) hshorter
      (fun _ => rfl) fun s h => reads_try hblock body errorVar handler close hfits h hlength

end

/-- Blocks are read, however deep they are nested. -/
theorem blockReads (layout : Layout) (gas : Nat) : BlockReads (parseBlock layout gas) gas := by
  induction gas with
  | zero =>
    intro s trees ends qs _ hlength
    omega
  | succ gas ih =>
    intro s trees ends qs h hlength hfits hends hqs
    rw [Tree.blockLines_eq] at h hlength
    have hwritten : ∀ tree ∈ trees, ∀ qs, (Line.allPieces tree.lines ++ qs).length ≤ gas →
        Written (parseStatement layout (gas + 1) (parseBlock layout gas)) ends
          (Line.allPieces tree.lines ++ qs) (.newline :: qs) tree.toStmt :=
      fun tree htree qs hlength => written_tree ih layout hends (Tree.fits_of_mem hfits.2 htree) hlength
    rw [parseBlock]
    refine (yields_statements hwritten hqs [.newline] (List.forall_mem_singleton.mpr rfl) h.starts ?_
      (by omega) (by omega) (by omega) []).mono ?_
    · rintro rfl
      exact h
    · intro body hbody
      rw [Stmt.unplacedBlock_eq, Stmt.unplacedBlock_eq, Tree.toBlock_eq]
      exact hbody

end MatrixScript.Parser
