import MatrixScript.Proofs.Parser.Climbing
import MatrixScript.Proofs.Parser.Program
import MatrixScript.Proofs.Syntax.Source

/-! Parsing statements that are written on one line. -/
namespace MatrixScript.Parser

open Piece Source

variable {s : State} {gas : Nat} {name : String} {value : Expr} {es : List Expr}
  {ps qs : List Piece}

/-! From one statement to the next. -/

section

variable {s : State} {p : Token.Kind → Bool} {ps seps : List Piece}

theorem skipUntil_stop (h : s.rest.takeWhile (fun t => !p t.kind) = []) :
    skipUntil p s = ((), s) := by
  have hlength : (s.rest.takeWhile fun t => !p t.kind).length = 0 := by rw [h]; rfl
  unfold skipUntil
  rw [State.skip_congr hlength _ (Nat.zero_le _)]
  rfl

theorem takeWhile_eq_nil (h : s.Starts ps) (hps : p (kindAt ps 0) = true) :
    s.rest.takeWhile (fun t => !p t.kind) = [] := by
  rw [← h.current_kind, State.current] at hps
  cases hrest : s.rest with
  | nil => rfl
  | cons t ts =>
    rw [hrest, List.headD_cons] at hps
    simp [hps]

/-- What is skipped is behind the parser. -/
theorem State.Starts.skipped (h : s.Starts (seps ++ ps)) (hseps : ∀ a ∈ seps, p a.kind = false)
    (hps : p (kindAt ps 0) = true) :
    ∃ s', Parser.skipUntil p s = ((), s') ∧ s'.Starts ps ∧ Same s s' ∧
      (s.Sees (seps ++ ps) → s'.Sees ps) := by
  induction seps generalizing s with
  | nil => exact ⟨s, skipUntil_stop (takeWhile_eq_nil h hps), h, .refl s, id⟩
  | cons a seps ih =>
    obtain ⟨ha, hseps⟩ := List.forall_mem_cons.mp hseps
    obtain ⟨-, hsees, hsame, -⟩ := h.advance
    rw [advance_eq h.rest_ne_nil] at hsees hsame
    have hone : ∀ t ∈ s.rest.take 1, p t.kind = false := by
      obtain ⟨t, us, hrest, hfits, -⟩ := h.fits
      rw [hrest]
      simpa [hfits.kind_eq] using ha
    obtain ⟨s', hskip, h', hsame', hsees'⟩ := ih hsees.starts hseps
    rw [skipUntil_skip _ hone] at hskip
    exact ⟨s', hskip, h', hsame.trans hsame', fun _ => hsees' hsees⟩

theorem Yields.skip {β : Type} {f : Unit → Parser β} {rs : List Piece} {R : β → Prop} {s' : State}
    (hskip : Parser.skipUntil p s = ((), s')) (hsame : Same s s') (h : Yields s' rs R (f () s')) :
    Yields s rs R ((Parser.skipUntil p >>= f) s) := by
  change Yields s rs R (f (Parser.skipUntil p s).1 (Parser.skipUntil p s).2)
  rw [hskip]
  exact .after hsame h

end

/-- A block with these ends does not go on at a token of this class. -/
def endsBlock (ends : List Keyword) : Token.Kind → Bool
  | .eof => true
  | .keyword word => ends.contains word
  | _ => false

theorem endsBlock_kind (ends : List Keyword) (token : Token) :
    (token.kind == .eof || token.isWord ends) = endsBlock ends token.kind := by
  unfold Token.isWord
  cases token.kind <;> rfl

/-- The value is this statement, up to places and documentation. -/
def IsStatement (stmt : Stmt) (value : Option Stmt) : Prop :=
  ∃ stmt', value = some stmt' ∧ stmt'.unplaced = stmt.unplaced

/-- Where the pieces `ps` are ahead, this statement is read, and `qs` are left. -/
structure Written (statement : Parser (Option Stmt)) (ends : List Keyword) (ps qs : List Piece)
    (stmt : Stmt) : Prop where
  starts : endsBlock ends (kindAt ps 0) = false ∧ isSeparator (kindAt ps 0) = false
  shorter : qs.length < ps.length
  reads : ∀ {s : State}, s.Starts ps → Yields s qs (IsStatement stmt) (statement s)

section

variable {statement : Parser (Option Stmt)} {ends : List Keyword}

theorem State.pos_ne {s' : State} (h : s.Starts ps) (h' : s'.Starts qs) (hsame : Same s s')
    (hlength : qs.length < ps.length) : (s'.pos == s.pos) = false := by
  rw [beq_eq_false_iff_ne]
  intro hpos
  rw [← h.length_eq, ← h'.length_eq, s.rest_eq, s'.rest_eq, hsame.code, hpos] at hlength
  exact Nat.lt_irrefl _ hlength

/-- A statement that is read takes a token. -/
theorem yields_parseNext {Q : Option Stmt → Prop} (h : s.Starts ps)
    (hlength : qs.length < ps.length) (hread : Yields s qs Q (statement s)) :
    Yields s qs Q (parseNext statement s) := by
  refine .read rfl (.bind hread fun value s' h' hsame hvalue => .read rfl (.no ?_ (.pure h' hvalue)))
  rw [State.pos_ne h h'.starts hsame hlength]
  decide

/-- One round of the loop over statements. -/
theorem yields_round (seps : List Piece) {rs : List Piece} {stmt : Stmt} {R : List Stmt → Prop}
    (hwritten : Written statement ends ps qs stmt) (hseps : ∀ a ∈ seps, isSeparator a.kind = true)
    (h : s.Starts (seps ++ ps)) {count : Nat} (hcount : count < maxStatements) {done : List Stmt}
    (hnext : ∀ s' stmt', s'.Sees qs → Same s s' → stmt'.unplaced = stmt.unplaced →
      Yields s' rs R (parseStatements statement ends gas (count + 1) (stmt' :: done) s')) :
    Yields s rs R (parseStatements statement ends (gas + 1) count done s) := by
  obtain ⟨hends, hseparator⟩ := hwritten.starts
  obtain ⟨s₁, hskip, h₁, hsame₁, -⟩ := h.skipped (p := fun kind => !isSeparator kind)
    (fun a ha => by rw [hseps a ha]; rfl) (by rw [hseparator]; rfl)
  rw [parseStatements]
  refine .skip hskip hsame₁ (.read rfl (.no ?_ (.no (Nat.not_le_of_lt hcount) ?_)))
  · rw [endsBlock_kind, h₁.current_kind, hends]
    decide
  refine .bind (yields_parseNext h₁ hwritten.shorter (hwritten.reads h₁)) ?_
  rintro _ s₂ h₂ hsame₂ ⟨stmt', rfl, hstmt⟩
  exact hnext s₂ stmt' h₂ (hsame₁.trans hsame₂) hstmt

/-- The loop over statements stops where the block ends. -/
theorem yields_blockEnd (seps : List Piece) {rs : List Piece}
    (hseps : ∀ a ∈ seps, isSeparator a.kind = true) (h : s.Sees (seps ++ rs))
    (hrs : endsBlock ends (kindAt rs 0) = true) (gas count : Nat) (done : List Stmt) :
    Yields s rs (fun body => body = done.reverse)
      (parseStatements statement ends (gas + 1) count done s) := by
  have hstop : (!isSeparator (kindAt rs 0)) = true := by
    cases hkind : kindAt rs 0 with
    | eof | keyword => rfl
    | _ => rw [hkind] at hrs; contradiction
  obtain ⟨s₁, hskip, h₁, hsame₁, hsees⟩ := h.starts.skipped (p := fun kind => !isSeparator kind)
    (fun a ha => by rw [hseps a ha]; rfl) hstop
  rw [parseStatements]
  refine .skip hskip hsame₁ (.read rfl (.yes ?_ (.pure (hsees h) rfl)))
  rw [endsBlock_kind, h₁.current_kind, hrs]

end

/-! Assignments. -/

theorem yields_finishStatement (h : s.Starts (.sign true .semicolon :: qs)) :
    Yields s qs (fun silent => silent = true) (finishStatement s) :=
  .acceptYes h rfl fun _ h' _ => .yes rfl (.pure h' rfl)

theorem findAssignment_isSome {glued : Bool} {q : Piece}
    (h : s.Starts (.word glued name :: .sign false .equals :: q :: ps)) (hname : IsNameText name)
    (hq : q.glued = false) (before : Token) : (findAssignment [] before s.rest).isSome = true := by
  obtain ⟨t, ts, hrest, ht, u, us, rfl, hu, v, vs, rfl, hv, -⟩ := h.fits
  have hadjacent : u.adjacent v = false := (hv.adjacent_eq u rfl).trans hq
  have hword : t.kind.isName = true := by rw [ht.kind_eq]; exact hname.isName
  have hequals : u.kind = .sign .equals := hu.kind_eq
  have hassigns : assigns t u v = true := by
    unfold assigns
    rw [hadjacent]
    have hnot : ∀ sign, t.is sign = false := by
      intro sign
      rw [Token.is, beq_eq_false_iff_ne]
      intro hsign
      rw [hsign] at hword
      contradiction
    simp [hnot]
  rw [hrest, findAssignment]
  have hnext : findAssignment [] t (u :: v :: vs) = some u := by
    rw [findAssignment, hequals]
    simp [Group.ofOpening?, Group.ofClosing?, hassigns]
  cases hkind : t.kind with
  | identifier | native => simp [hnext]
  | _ => rw [hkind] at hword; contradiction

/-- The pieces of `name = value;`, where those of the value are `ps`. -/
def assignedPieces (name : String) (ps : List Piece) : List Piece :=
  .word true name :: .sign false .equals :: (ps ++ [.sign true .semicolon])

/-- Where the pieces `ps` are ahead with a semicolon behind them, this value is read. -/
def ReadsValue (gas : Nat) (ps qs : List Piece) (value : Expr) : Prop :=
  ∀ {s : State}, s.Starts (ps ++ .sign true .semicolon :: qs) →
    Yields s (.sign true .semicolon :: qs) (IsRead value) (parseExpression gas 0 s)

theorem yields_assigned (hgas : 0 < gas) (hread : ReadsValue gas ps qs value)
    (h : s.Starts (assignedPieces name ps ++ qs)) :
    Yields s qs (IsStatement (assignment name value)) (parseAssignment gas s) := by
  simp only [assignedPieces, List.cons_append, List.append_assoc, List.nil_append] at h
  have htext : s.current.text = name := h.current_text
  have hkind : s.current.kind = Lexeme.nameKind name := h.current_kind
  have htarget : Yields s (.sign false .equals :: (ps ++ .sign true .semicolon :: qs))
      (fun use => use.unplaced = ⟨name, [], .zero, none, Lexeme.nameKind name == .native, false⟩)
      (parseName gas (parseExpression gas) s) := by
    refine .next h fun s₁ h₁ _ _ => ?_
    rw [parseNameFrom_end hgas h₁.starts rfl]
    exact .pure h₁ (by simp [NameUse.unplaced, htext, hkind])
  refine .bind htarget fun use s₁ h₁ _ huse => .read rfl (.no ?_ ?_)
  · rw [h₁.starts.current_kind]
    exact Bool.false_ne_true
  refine .next h₁.starts fun s₂ h₂ _ _ => ?_
  have hassigned : Yields s₂ (.sign true .semicolon :: qs) (fun x => IsRead value x.1)
      (parseAssigned gas s₁.current s₂) := by
    refine .bind (hread h₂.starts) ?_
    rintro _ s₃ h₃ - ⟨value', rfl, hvalue⟩
    exact .pure h₃ ⟨value', rfl, hvalue⟩
  refine .bind hassigned ?_
  rintro ⟨_, stop⟩ s₃ h₃ - ⟨value', rfl, hvalue⟩
  have hfinish (span : Span) : Yields s₃ qs (fun silent => silent = true) (finishAssignment span s₃) := by
    refine .bind (yields_finishStatement h₃.starts) ?_
    rintro _ s₄ h₄ - rfl
    exact .no Bool.false_ne_true (.pure h₄ rfl)
  refine .bind (hfinish _) ?_
  rintro _ s₄ h₄ - rfl
  refine .pure h₄ ⟨_, rfl, ?_⟩
  simp only [assignment, Stmt.unplaced, huse, Option.map_some, hvalue]
  rfl

theorem readsValue_bare (hbare : value.Bare .outside) (hlex : value.Lexical)
    (hgas : (value.pieces false ++ .sign true .semicolon :: qs).length < gas) :
    ReadsValue gas (value.pieces false) qs value :=
  fun h => yields_expression ⟨by decide, hbare, hlex, fun hne => absurd rfl hne, h⟩ hgas rfl

section

variable {layout : Layout} {gas : Nat} {block : BlockParser} {ends : List Keyword} {qs : List Piece}

/-- A statement that starts with a name. -/
theorem written_name (hname : IsNameText name) {stmt : Stmt}
    (hfront : kindAt ps 0 = Lexeme.nameKind name) (hshorter : qs.length < ps.length)
    (hreads : ∀ s : State, s.Starts ps →
      Yields s qs (IsStatement stmt) (parseNameStatement gas s.current s)) :
    Written (parseStatement layout gas block) ends ps qs stmt := by
  refine ⟨?_, hshorter, fun {s} h => .read rfl ?_⟩
  · rw [hfront]
    rcases hname.kind_cases with hword | hword <;> rw [hword] <;> exact ⟨rfl, rfl⟩
  · rw [h.current_kind, hfront]
    rcases hname.kind_cases with hword | hword <;> rw [hword] <;> exact hreads s h

/-- An assignment is read if its value is, wherever it stands. -/
theorem written_assigned {p : Piece} (hname : IsNameText name) (hglued : p.glued = false)
    (hgas : 0 < gas) (hread : ReadsValue gas (p :: ps) qs value) :
    Written (parseStatement layout gas block) ends (assignedPieces name (p :: ps) ++ qs) qs
      (assignment name value) := by
  refine written_name hname rfl (by simp [assignedPieces]; omega) fun s h => ?_
  have hassigns : (findAssignment [] s.previous s.rest).isSome = true :=
    findAssignment_isSome h hname hglued s.previous
  exact .read rfl (.yes hassigns (yields_assigned hgas hread h))

/-- An assignment of a bare expression is read, wherever it stands. -/
theorem written_assignment (hname : IsNameText name) (hbare : value.Bare .outside)
    (hlex : value.Lexical) (hgas : (assignmentPieces name value ++ qs).length < gas) :
    Written (parseStatement layout gas block) ends (assignmentPieces name value ++ qs) qs
      (assignment name value) := by
  have hread : ReadsValue gas (value.pieces false) qs value := by
    refine readsValue_bare hbare hlex ?_
    simp only [assignmentPieces, List.length_append, List.length_cons, List.length_nil] at hgas ⊢
    omega
  obtain ⟨q, ps, hpieces, hfront⟩ := hbare.front hlex false
  change Written _ _ (assignedPieces name (value.pieces false) ++ qs) _ _
  rw [hpieces] at hread ⊢
  exact written_assigned hname hfront.glued_eq (Nat.zero_lt_of_lt hgas) hread

end

/-- A program of one assignment is read if its value is. -/
theorem yields_program {code : Code} {p : Piece} (hname : IsNameText name)
    (hglued : p.glued = false) (heof : code.eof.kind = .eof)
    (hfits : AllFit none (assignedPieces name (p :: ps)) code.tokens)
    (hread : ReadsValue (code.tokens.length + 1) (p :: ps) [] value) :
    Yields (.ofCode code) [] (fun body => body.map Stmt.unplaced = [(assignment name value).unplaced])
      (runBlock code (code.tokens.length + 1)) := by
  have hstart : (State.ofCode code).Starts ([] ++ (assignedPieces name (p :: ps) ++ [])) := by
    rw [List.nil_append, List.append_nil]
    exact ⟨heof, hfits⟩
  obtain ⟨gas, hgas⟩ : ∃ gas, code.tokens.length = gas + 1 := by
    rw [hfits.length_eq]
    exact ⟨_, rfl⟩
  rw [runBlock, parseBlock]
  refine yields_round [] (written_assigned hname hglued (Nat.zero_lt_succ _) hread)
    (List.forall_mem_nil _) hstart (by decide) ?_
  intro s stmt h _ hstmt
  rw [hgas]
  refine (yields_blockEnd [] (List.forall_mem_nil _) h rfl gas _ _).mono ?_
  rintro _ rfl
  simp [hstmt]

/-! Jumps. -/

def jumpWord : Jump → Keyword
  | .breakOut => .breakOut
  | .continueOn => .continueOn
  | .returnBack => .returnBack

theorem kind_jump (way : Jump) : Lexeme.nameKind way.spelling = .keyword (jumpWord way) := by
  have hspelling : (jumpWord way).spelling = way.spelling := by cases way <;> rfl
  rw [← hspelling, Lexeme.nameKind_spelling]

section

variable {layout : Layout} {gas : Nat} {block : BlockParser} {ends : List Keyword} {qs : List Piece}

/-- A statement that starts with a keyword. -/
theorem written_keyword {word : Keyword} (hends : ends.contains word = false) {stmt : Stmt}
    {p : Parser Stmt} (hfront : kindAt ps 0 = .keyword word) (hshorter : qs.length < ps.length)
    (hparser : ∀ token, parseKeywordStatement layout gas block token word = some <$> p)
    (hreads : ∀ s : State, s.Starts ps →
      Yields s qs (fun stmt' => stmt'.unplaced = stmt.unplaced) (p s)) :
    Written (parseStatement layout gas block) ends ps qs stmt := by
  refine ⟨?_, hshorter, fun {s} h => .read rfl ?_⟩
  · rw [hfront]
    exact ⟨hends, rfl⟩
  · rw [h.current_kind, hfront]
    change Yields s qs _ (parseKeywordStatement layout gas block s.current word s)
    rw [hparser]
    exact (hreads s h).map fun stmt' hstmt => ⟨stmt', rfl, hstmt⟩

theorem written_jump (way : Jump) (hends : ends.contains (jumpWord way) = false) :
    Written (parseStatement layout gas block) ends ((Line.jump way).pieces ++ qs) qs
      (.jump way .zero) := by
  have hshorter : qs.length < ((Line.jump way).pieces ++ qs).length := by
    rw [List.length_append]
    exact Nat.lt_add_of_pos_left (Nat.zero_lt_succ _)
  refine written_keyword hends (kind_jump way) (p := parseJump way) hshorter ?_ ?_
  · intro token
    cases way <;> rfl
  · intro s h
    refine .next h fun s₁ h₁ _ _ => .bind (yields_finishStatement h₁.starts) ?_
    intro _ s₂ h₂ _ _
    exact .pure h₂ (by simp [Stmt.unplaced])

end

/-! Calls. -/

/-- In brackets, the search for an assignment goes over tokens of this class. -/
def isInner : Token.Kind → Bool
  | .sign sign => (Group.ofOpening? sign).isNone && (Group.ofClosing? sign).isNone
  | .newline | .eof => false
  | _ => true

/-- In brackets, the search for an assignment goes over these pieces. -/
def Balanced (ps : List Piece) : Prop :=
  ∀ (groups : List Group) (before : Token) (ts us : List Token), groups ≠ [] →
    ts.map Token.kind = ps.map Piece.kind →
      ∃ before', findAssignment groups before (ts ++ us) = findAssignment groups before' us

namespace Balanced

variable {ps qs : List Piece}

theorem nil : Balanced [] := by
  intro groups before ts us _ hkinds
  obtain rfl : ts = [] := by simpa using hkinds
  exact ⟨before, rfl⟩

theorem append (h : Balanced ps) (h' : Balanced qs) : Balanced (ps ++ qs) := by
  intro groups before ts us hgroups hkinds
  rw [List.map_append] at hkinds
  obtain ⟨ts₁, ts₂, rfl, h₁, h₂⟩ := List.map_eq_append_iff.mp hkinds
  obtain ⟨before₁, heq₁⟩ := h groups before ts₁ (ts₂ ++ us) hgroups h₁
  obtain ⟨before₂, heq₂⟩ := h' groups before₁ ts₂ us hgroups h₂
  exact ⟨before₂, by rw [List.append_assoc, heq₁, heq₂]⟩

theorem single {p : Piece} (hp : isInner p.kind = true) : Balanced [p] := by
  intro groups before ts us hgroups hkinds
  obtain ⟨t, rfl, ht⟩ : ∃ t, ts = [t] ∧ t.kind = p.kind := by simpa [List.map_eq_cons_iff] using hkinds
  refine ⟨t, ?_⟩
  rw [List.singleton_append, findAssignment, ht]
  have hempty : groups.isEmpty = false := by rwa [List.isEmpty_eq_false_iff]
  cases hkind : p.kind with
  | sign sign =>
    rw [hkind, isInner, Bool.and_eq_true, Option.isNone_iff_eq_none] at hp
    simp [hp.1, hempty, Option.isNone_iff_eq_none.mp hp.2]
  | newline | eof => rw [hkind] at hp; contradiction
  | keyword => simp [hempty]
  | _ => rfl

theorem cons {p : Piece} (hp : isInner p.kind = true) (h : Balanced ps) : Balanced (p :: ps) :=
  (single hp).append h

theorem group (group : Group) {glued glued' : Bool} (h : Balanced ps) :
    Balanced (.sign glued group.opening :: (ps ++ [.sign glued' group.closing])) := by
  intro groups before ts us _ hkinds
  rw [List.map_cons, List.map_append, List.map_singleton] at hkinds
  obtain ⟨o, more, rfl, ho, hmore⟩ := List.map_eq_cons_iff.mp hkinds
  obtain ⟨ts, last, rfl, hts, hlast⟩ := List.map_eq_append_iff.mp hmore
  obtain ⟨c, rfl, hc⟩ : ∃ c, last = [c] ∧ c.kind = .sign group.closing := by
    simpa [List.map_eq_cons_iff, sign] using hlast
  obtain ⟨before', heq⟩ := h (group :: groups) o ts ([c] ++ us) (List.cons_ne_nil _ _) hts
  have hopening : Group.ofOpening? group.opening = some group := by cases group <;> rfl
  have hclosing : Group.ofOpening? group.closing = none ∧ Group.ofClosing? group.closing = some group := by
    cases group <;> exact ⟨rfl, rfl⟩
  refine ⟨c, ?_⟩
  calc findAssignment groups before (o :: (ts ++ [c]) ++ us)
      = findAssignment (group :: groups) o (ts ++ ([c] ++ us)) := by
        rw [List.cons_append, List.append_assoc, findAssignment, ho]
        simp [sign, hopening]
    _ = findAssignment (group :: groups) before' ([c] ++ us) := heq
    _ = findAssignment groups c us := by
        rw [List.singleton_append, findAssignment, hc]
        simp [hclosing]

theorem all (h : ∀ p ∈ ps, isInner p.kind = true) : Balanced ps := by
  induction ps with
  | nil => exact nil
  | cons p ps ih =>
    obtain ⟨hp, hps⟩ := List.forall_mem_cons.mp h
    exact cons hp (ih hps)

theorem isInner_word (glued : Bool) (text : String) : isInner (word glued text).kind = true := by
  change isInner (Lexeme.nameKind text) = true
  unfold Lexeme.nameKind
  split
  · rfl
  · split_ifs <;> rfl

theorem fields (names : List String) : Balanced (fieldPieces names) := by
  induction names with
  | nil => exact nil
  | cons name names ih => exact cons rfl (cons (isInner_word _ _) ih)

theorem moreNames (names : List String) : Balanced (moreNamePieces names) := by
  induction names with
  | nil => exact nil
  | cons name names ih => exact cons rfl (cons (isInner_word _ _) ih)

theorem params (glued : Bool) (names : List String) : Balanced (paramPieces glued names) := by
  refine cons rfl (group .paren ?_)
  cases names with
  | nil => exact nil
  | cons name names => exact cons (isInner_word _ _) (moreNames names)

theorem operator (op : BinaryOp) : Balanced op.pieces := by
  refine all ?_
  cases op <;> decide

theorem transpose (op : TransposeOp) : Balanced op.pieces := by
  refine all ?_
  cases op <;> decide

theorem moreItems (h : ∀ e ∈ es, ∀ glued, Balanced (e.pieces glued)) :
    Balanced (moreItemPieces es) := by
  induction es with
  | nil => exact nil
  | cons e es ih =>
    obtain ⟨he, hes⟩ := List.forall_mem_cons.mp h
    exact cons rfl ((he false).append (ih hes))

theorem items (h : ∀ e ∈ es, ∀ glued, Balanced (e.pieces glued)) (glued : Bool) :
    Balanced (itemPieces glued es) := by
  cases es with
  | nil => exact nil
  | cons e es =>
    obtain ⟨he, hes⟩ := List.forall_mem_cons.mp h
    exact (he glued).append (moreItems hes)

theorem moreRows {rows : List (List Expr)}
    (h : ∀ row ∈ rows, ∀ e ∈ row, ∀ glued, Balanced (e.pieces glued)) :
    Balanced (moreRowPieces rows) := by
  induction rows with
  | nil => exact nil
  | cons row rows ih =>
    obtain ⟨hrow, hrows⟩ := List.forall_mem_cons.mp h
    exact cons rfl ((items hrow false).append (ih hrows))

theorem rows {rows : List (List Expr)}
    (h : ∀ row ∈ rows, ∀ e ∈ row, ∀ glued, Balanced (e.pieces glued)) : Balanced (rowPieces rows) := by
  cases rows with
  | nil => exact nil
  | cons row rows =>
    obtain ⟨hrow, hrows⟩ := List.forall_mem_cons.mp h
    exact (items hrow true).append (moreRows hrows)

theorem call (glued : Bool) (root : String) (names : List String)
    (h : ∀ e ∈ es, ∀ glued, Balanced (e.pieces glued)) :
    Balanced (.word glued root :: (fieldPieces names ++
      .sign true .openParen :: (itemPieces true es ++ [.sign true .closeParen]))) :=
  cons (isInner_word _ _) ((fields names).append (group .paren (items h true)))

theorem expression {place : Expr.Place} {e : Expr} (h : e.Bare place) (glued : Bool) :
    Balanced (e.pieces glued) := by
  induction h generalizing glued with
  | @name place use hargs ih =>
    obtain ⟨root, names, span, args, native, command⟩ := use
    cases args with
    | none => exact cons (isInner_word _ _) (fields names)
    | some args => exact call glued root names (ih args rfl)
  | number | string => exact single rfl
  | @binary place op left right _ _ _ _ _ _ ihleft ihright =>
    exact ((ihleft glued).append (operator op)).append (ihright op.isTight)
  | @prefixed place op operand _ _ _ ih => exact cons (by cases op <;> rfl) (ih true)
  | @transposed place op operand _ _ _ ih => exact (ih glued).append (transpose op)
  | @matrix place kind rows' _ _ _ ih => exact group (Group.ofMatrix kind) (rows ih)
  | anonymous names _ _ ih => exact (params glued names).append (ih false)
  | handle function => exact cons rfl (single (isInner_word _ _))
  | named name _ _ _ ih => exact cons (isInner_word _ _) (cons rfl (ih false))
  | @mark place mark => exact single (by cases mark <;> rfl)

end Balanced

/-- The brackets of a call hide what its arguments assign. -/
theorem findAssignment_call {root : String} {glued : Bool} (hname : IsNameText root)
    (hes : ∀ e ∈ es, ∀ glued, Balanced (e.pieces glued))
    (h : s.Starts (.word glued root :: .sign true .openParen ::
      (itemPieces true es ++ .sign true .closeParen :: .sign true .semicolon :: qs)))
    (before : Token) : findAssignment [] before s.rest = none := by
  have hkinds := h.fits.map_kind
  simp only [List.map_cons, List.map_append] at hkinds
  obtain ⟨t, ts, hrest, ht, hkinds⟩ := List.map_eq_cons_iff.mp hkinds
  obtain ⟨o, ts, rfl, ho, hkinds⟩ := List.map_eq_cons_iff.mp hkinds
  obtain ⟨ts, us, rfl, hts, hkinds⟩ := List.map_eq_append_iff.mp hkinds
  obtain ⟨c, us, rfl, hc, hkinds⟩ := List.map_eq_cons_iff.mp hkinds
  obtain ⟨e, us, rfl, he, -⟩ := List.map_eq_cons_iff.mp hkinds
  obtain ⟨b, hitems⟩ := Balanced.items hes true [.paren] o ts (c :: e :: us) (List.cons_ne_nil _ _) hts
  have hword : t.kind.isName = true := by rw [ht]; exact hname.isName
  calc findAssignment [] before s.rest
      = findAssignment [] t (o :: (ts ++ c :: e :: us)) := by
        rw [hrest, findAssignment]
        cases hkind : t.kind with
        | identifier | native => rfl
        | _ => simp [hkind, Token.Kind.isName] at hword
    _ = findAssignment [.paren] o (ts ++ c :: e :: us) := by rw [findAssignment, ho]; rfl
    _ = findAssignment [.paren] b (c :: e :: us) := hitems
    _ = findAssignment [] c (e :: us) := by rw [findAssignment, hc]; rfl
    _ = none := by rw [findAssignment, he]; rfl

theorem unplaced_standAlone (silent : Bool) (e : Expr) :
    (standAlone silent e).unplaced = standAlone silent e.unplaced := by
  cases e with
  | name use => simp [standAlone, Stmt.unplaced]
  | _ => simp [standAlone, Stmt.unplaced, Expr.unplaced]

/-- A call by name is read, wherever it stands. -/
theorem written_call {layout : Layout} {block : BlockParser} {ends : List Keyword} (function : Name)
    (args : List (Value .argument)) (hgas : ((Line.call function args).pieces ++ qs).length < gas) :
    Written (parseStatement layout gas block) ends ((Line.call function args).pieces ++ qs) qs
      (.call (callUse function args) true) := by
  refine written_name function.isName rfl (by simp [Line.call]; omega) fun s h => ?_
  simp only [Line.call, List.append_assoc, List.singleton_append] at h hgas
  have hbalanced : ∀ e ∈ args.map Value.expr, ∀ glued, Balanced (e.pieces glued) := by
    intro e he
    obtain ⟨arg, -, rfl⟩ := List.mem_map.mp he
    exact Balanced.expression arg.bare
  have hassigns : ¬(findAssignment [] s.previous s.rest).isSome = true := by
    have hpieces : (Value.call function args).expr.pieces true = .word true function.text ::
        .sign true .openParen :: (itemPieces true (args.map Value.expr) ++ [.sign true .closeParen]) := rfl
    rw [hpieces] at h
    simp only [List.cons_append, List.append_assoc, List.nil_append] at h
    rw [findAssignment_call function.isName hbalanced h]
    decide
  have hcommand : ¬isCommand s.current (s.ahead 1) (s.ahead 2) = true := by
    have hkind : isCommandWord (s.ahead 1).kind = false := by rw [h.kind_ahead 1]; rfl
    simp [isCommand, hkind]
  refine .read rfl (.no hassigns (.read rfl (.read rfl (.no hcommand (.read rfl ?_)))))
  have hahead : Ahead s .outside (Value.call function args).expr true (.sign true .semicolon :: qs) :=
    ⟨by decide, (Value.call function args).bare, (Value.call function args).lexical,
      fun hne => absurd rfl hne, h⟩
  refine .bind (yields_expression hahead hgas rfl) ?_
  rintro _ s₁ h₁ - ⟨value, rfl, hvalue⟩
  refine .bind (yields_finishStatement h₁.starts) ?_
  rintro _ s₂ h₂ - rfl
  refine .pure h₂ ⟨_, rfl, ?_⟩
  rw [unplaced_standAlone, hvalue, ← unplaced_standAlone]
  rfl

/-! Whole programs. -/

/-- A program is read without any diagnostic if its block is. -/
theorem parse_of_yields {tokens : List Token} {Q : List Stmt → Prop}
    (h : Yields (.ofCode (Code.ofTokens tokens)) [] Q
      (runBlock (Code.ofTokens tokens) ((Code.ofTokens tokens).tokens.length + 1))) :
    (parse tokens).diagnostics = [] ∧ Q (parse tokens).program.body := by
  refine ⟨?_, h.value⟩
  have hdiagnostics := h.same.diagnostics
  change (runBlock (Code.ofTokens tokens) ((Code.ofTokens tokens).tokens.length + 1)).2.diagnostics.toList =
    []
  rw [hdiagnostics]
  rfl

end MatrixScript.Parser
