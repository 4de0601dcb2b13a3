import MatrixScript.Proofs.Parser.Code
import MatrixScript.Proofs.Parser.Program

/-! Problems stay on their lines.

Main statement: code without matrices, blocks and continued lines is parsed on its own, whatever stands
on the lines below, and what stands there is parsed as if it stood alone. -/
namespace MatrixScript

namespace Parser

variable {F : Frame} {s t : State} {gas gas' loopGas loopGas' : Nat}
  {statement statement' : Parser (Option Stmt)} {ends : List Keyword}

theorem length_le_parseStatements (gas count : Nat) (done : List Stmt) (s : State) :
    done.length ≤ (parseStatements statement ends gas count done s).1.length := by
  induction gas generalizing count done s with
  | zero => exact Nat.le_of_eq List.length_reverse.symm
  | succ g ih =>
    rw [parseStatements_succ]
    dsimp only
    split_ifs
    · exact Nat.le_of_eq List.length_reverse.symm
    · exact Nat.le_of_eq List.length_reverse.symm
    · exact Nat.le_trans (by simp) (ih _ _ _)

/-- Below the limit it does not matter how many statements were read before. -/
theorem parseStatements_behind (before : List Stmt) {count : Nat} {done : List Stmt}
    (hcount : count = done.length) (gas : Nat) (s : State)
    (hfew : before.length + (parseStatements statement ends gas count done s).1.length <
      maxStatements) :
    parseStatements statement ends gas (count + before.length) (done ++ before) s =
      (before.reverse ++ (parseStatements statement ends gas count done s).1,
        (parseStatements statement ends gas count done s).2) := by
  induction gas generalizing count done s with
  | zero => exact Prod.ext List.reverse_append rfl
  | succ g ih =>
    have hle : done.length ≤ (parseStatements statement ends (g + 1) count done s).1.length :=
      length_le_parseStatements (g + 1) count done s
    have hlimit : ¬maxStatements ≤ count + before.length := by omega
    have hlimit' : ¬maxStatements ≤ count := by omega
    rw [parseStatements_succ] at hfew ⊢
    rw [parseStatements_succ]
    dsimp only at hfew ⊢
    rw [if_neg hlimit'] at hfew ⊢
    rw [if_neg hlimit]
    split_ifs at hfew ⊢
    · exact Prod.ext List.reverse_append rfl
    · rw [Nat.add_right_comm, ← List.append_assoc]
      exact ih (by rw [hcount, List.length_append, Nat.add_comm]) _ hfew

theorem BlockAlike.length_eq {as bs : List Stmt} (h : BlockAlike F as bs) : bs.length = as.length := by
  simpa using congrArg List.length h.1

/-- Where the run `r` over the first part has ended, the second run goes on in the state `t` with `more`,
after the statements in `done` and with `gas`. -/
structure GoesOn (F : Frame) (more : List Token) (r : List Stmt × State) (gas : Nat)
    (done : List Stmt) (t : State) : Prop where
  done_eq : done.map (Stmt.bareDown 0) = r.1.reverse.map (Stmt.bareDown F.lines)
  rest : t.rest = more
  lt : more.length < gas
  code : t.code = F.code
  groups : t.groups = []
  faults : t.faults = []
  diagnostics : t.diagnostics = F.earlier ++ r.2.diagnostics.map (Diagnostic.down F.lines)

/-- Behind the last statement of the first part only separators are left, and the newline is one more
of them. -/
theorem goesOn_of_rest_eq_nil {line : Token} {more : List Token} (htail : F.tail = line :: more)
    (hline : line.kind = .newline) {done done' : List Stmt} (hdone : BlockAlike F done done')
    (h : Beside F s t) (hgroups : s.groups = []) (hloop : Enough F s loopGas loopGas')
    (hend : (skipUntil (fun kind => !isSeparator kind) s).2.rest = []) :
    ∃ t₁, parseStatements statement' [] loopGas' done.length done' t =
        parseStatements statement' [] loopGas' done'.length done' t₁ ∧
      GoesOn F more (done.reverse, (skipUntil (fun kind => !isSeparator kind) s).2)
        loopGas' done' t₁ := by
  obtain ⟨_, g', _, rfl⟩ := hloop.exists_succ
  have hrest : t.rest = (s.rest.map (Token.down F.lines) ++ [line]) ++ more := by
    rw [h.rest, htail, List.append_assoc, List.singleton_append]
  have hlength : (s.rest.map (Token.down F.lines) ++ [line]).length = s.rest.length + 1 := by simp
  have hlen : s.rest.length + 1 ≤ t.rest.length := by
    rw [hrest, List.length_append, hlength]
    omega
  have hseparators : ∀ x ∈ t.rest.take (s.rest.length + 1), (!isSeparator x.kind) = false := by
    rw [hrest, List.take_left' hlength, List.forall_mem_append, List.forall_mem_map,
      List.forall_mem_singleton, hline]
    rw [skipUntil_rest, List.dropWhile_eq_nil_iff] at hend
    exact ⟨fun x hx => by simpa using hend x hx, rfl⟩
  refine ⟨t.skip (s.rest.length + 1) hlen, ?_, ?_⟩
  · rw [parseStatements_succ, parseStatements_succ, skipUntil_skip hlen hseparators, hdone.length_eq]
  · refine ⟨?_, ?_, ?_, h.code, h.groups.trans hgroups, h.faults.2, h.diagnostics⟩
    · rw [List.reverse_reverse]
      exact hdone.1
    · change t.rest.drop (s.rest.length + 1) = more
      rw [hrest, List.drop_left' hlength]
    · have hlt := hloop.lt'
      rw [htail, List.length_cons] at hlt
      omega

/-- As long as there are statements in the first part, both runs read the same ones. -/
theorem parseStatements_goesOn {line : Token} {more : List Token} (htail : F.tail = line :: more)
    (hline : line.kind = .newline) (hstatement : StatementParsers F gas gas' statement statement')
    {done done' : List Stmt} (hdone : BlockAlike F done done') (h : Beside F s t)
    (hgroups : s.groups = []) (hgas : Enough F s gas gas') (hloop : Enough F s loopGas loopGas')
    (hfew : (parseStatements statement [] loopGas done.length done s).1.length < maxStatements) :
    ∃ g done₁ t₁, parseStatements statement' [] loopGas' done.length done' t =
        parseStatements statement' [] g done₁.length done₁ t₁ ∧
      GoesOn F more (parseStatements statement [] loopGas done.length done s) g done₁ t₁ := by
  induction loopGas generalizing loopGas' s t done done' with
  | zero => exact absurd hloop.lt (Nat.not_lt_zero _)
  | succ g ih =>
    obtain ⟨_, g', _, rfl⟩ := hloop.exists_succ
    have hle : done.length ≤ (parseStatements statement [] (g + 1) done.length done s).1.length :=
      length_le_parseStatements (g + 1) done.length done s
    have hlimit : ¬maxStatements ≤ done.length := by omega
    by_cases hend : (skipUntil (fun kind => !isSeparator kind) s).2.rest = []
    · have hkind : (skipUntil (fun kind => !isSeparator kind) s).2.current.kind = .eof := by
        rw [State.current, hend]
        exact h.eof_kind
      obtain ⟨t₁, hrun, hon⟩ := goesOn_of_rest_eq_nil htail hline hdone h hgroups hloop hend
      refine ⟨_, done', t₁, hrun, ?_⟩
      rw [parseStatements_succ]
      simpa [hkind] using hon
    have h₁ := h.skipUntil_of_rest_ne_nil hend
    rw [parseStatements_succ] at hfew ⊢
    rw [parseStatements_succ]
    dsimp only at hfew ⊢
    generalize (skipUntil (fun kind => !isSeparator kind) s).2 = s₁ at *
    generalize (skipUntil (fun kind => !isSeparator kind) t).2 = t₁ at *
    have hkind := h₁.beside.current_kind_ne hend
    have hsees := h₁.beside.current.eq_down_of_kind_ne hkind
    have hmore : ¬(s₁.current.kind == .eof || s₁.current.isWord []) = true := by
      simpa [isWord_nil] using hkind
    have hmore' : ¬(t₁.current.kind == .eof || t₁.current.isWord []) = true := by
      rwa [hsees]
    rw [if_neg hmore, if_neg hlimit] at hfew ⊢
    rw [if_neg hmore', if_neg hlimit]
    obtain ⟨h₂, hstmt, hlt⟩ := parseNext_beside h₁.beside hend
      (hstatement s₁ t₁ h₁.beside (h₁.groups.trans hgroups) hend (hgas.step h₁))
    have h₁₂ := h₁.trans h₂
    have next {done₁ done₁' : List Stmt} (hdone₁ : BlockAlike F done₁ done₁') :=
      ih hdone₁ h₂.beside (h₁₂.groups.trans hgroups) (hgas.step h₁₂)
        (hloop.consume h₁₂ (Nat.lt_of_le_of_lt h₁.pos_le hlt))
    generalize parseNext statement s₁ = stmt at *
    generalize parseNext statement' t₁ = stmt' at *
    obtain ⟨stmt, s₂⟩ := stmt
    obtain ⟨stmt', t₂⟩ := stmt'
    cases hstmt with
    | none => exact next hdone hfew
    | some hstmt => exact next (.cons hstmt hdone (Nat.lt_of_not_le hlimit)) hfew

/-- The parser for the statements of a program. -/
def statementOf (code : Code) : Parser (Option Stmt) :=
  parseStatement (.ofCode code) (code.tokens.length + 1) (parseBlock (.ofCode code) code.tokens.length)

theorem statementOf_beside (a c : Code) :
    StatementParsers F (a.tokens.length + 1) (c.tokens.length + 1) (statementOf a) (statementOf c) :=
  fun _ _ h hgroups hne hgas =>
    parseStatement_beside (fun htail => parseBlock_beside htail _ _ _ _) h hgroups hne hgas

/-- The run that gives the statements of a program. -/
def run (code : Code) : List Stmt × State := runBlock code (code.tokens.length + 1)

theorem parse_body (code : Code) : code.parse.program.body = (run code).1 := rfl

theorem parse_diagnostics (code : Code) :
    code.parse.diagnostics = (run code).2.diagnostics.toList := rfl

/-- The code of two texts with a newline between them; the second one moves `n` lines down. -/
structure Joined (a b c : Code) (line : Token) (n : Nat) : Prop where
  tokens : c.tokens = a.tokens ++ line :: b.tokens.map (Token.down n)
  eof : c.eof = b.eof.down n
  line_kind : line.kind = .newline
  line_start : line.span.start = a.eof.span.start
  eof_kind : a.eof.kind = .eof ∧ b.eof.kind = .eof
  kind_ne : ∀ t ∈ a.tokens ++ b.tokens, t.kind ≠ .eof

namespace Joined

variable {a b c : Code} {line : Token} {n : Nat}

/-- The run over the joined code, seen from the one over the first part. -/
def above (b c : Code) (line : Token) (n : Nat) : Frame :=
  ⟨c, 0, 0, 0, #[], line :: b.tokens.map (Token.down n)⟩

/-- The run over the joined code, seen from the one over the second part. -/
def below (c : Code) (n : Nat) (t : State) : Frame :=
  ⟨c, n, t.pos, 0, t.diagnostics, []⟩

theorem beside_above (h : Joined a b c line n) (hplain : ∀ t ∈ a.tokens, t.kind.isPlain = true) :
    Beside (above b c line n) (.ofCode a) (.ofCode c) := by
  refine .ofCode rfl ?_ rfl rfl rfl rfl rfl h.eof_kind.1
    (fun t ht => h.kind_ne t (List.mem_append_left _ ht)) (fun _ => hplain)
    (.inr ⟨line, _, rfl, h.line_kind, ?_⟩)
  · change c.tokens = a.tokens.map (Token.down 0) ++ line :: b.tokens.map (Token.down n)
    rw [Token.down_zero_eq_id, List.map_id, h.tokens]
  · exact h.line_start.trans (Position.down_zero _).symm

theorem beside_below (h : Joined a b c line n) {t : State} (hcode : t.code = c)
    (hrest : t.rest = b.tokens.map (Token.down n)) (hgroups : t.groups = [])
    (hfaults : t.faults = []) : Beside (below c n t) (.ofCode b) t :=
  .ofCode hcode (hrest.trans (List.append_nil _).symm) rfl rfl hgroups rfl hfaults h.eof_kind.2
    (fun t ht => h.kind_ne t (List.mem_append_right _ ht)) (fun h => absurd rfl h) (.inl ⟨rfl, h.eof⟩)

theorem length_tokens (h : Joined a b c line n) :
    c.tokens.length = a.tokens.length + (b.tokens.length + 1) := by
  rw [h.tokens]
  simp

/-- The run over the joined code goes on behind the first part. -/
theorem exists_goesOn (h : Joined a b c line n) (hplain : ∀ t ∈ a.tokens, t.kind.isPlain = true)
    (hfew : a.parse.program.body.length < maxStatements) :
    ∃ g done t, run c = parseStatements (statementOf c) [] g done.length done t ∧
      GoesOn (above b c line n) (b.tokens.map (Token.down n)) (run a) g done t := by
  have hgas : Enough (above b c line n) (.ofCode a) (a.tokens.length + 1) (c.tokens.length + 1) :=
    ⟨Nat.lt_succ_self _, by simp [above, State.ofCode, h.length_tokens]⟩
  exact parseStatements_goesOn rfl h.line_kind (statementOf_beside a c) (.nil _)
    (h.beside_above hplain) rfl hgas hgas hfew

/-- From there on it does what the run over the second part does. -/
theorem parseStatements_below (h : Joined a b c line n) {r : List Stmt × State} {g : Nat}
    {done : List Stmt} {t : State}
    (hon : GoesOn (above b c line n) (b.tokens.map (Token.down n)) r g done t)
    (hfew : done.length + b.parse.program.body.length < maxStatements) :
    let both := parseStatements (statementOf c) [] g done.length done t
    both.1.map (Stmt.bareDown 0) = done.reverse.map (Stmt.bareDown 0) ++
        b.parse.program.body.map (Stmt.bareDown n) ∧
      both.2.diagnostics = t.diagnostics ++ (run b).2.diagnostics.map (Diagnostic.down n) := by
  have hlt := hon.lt
  rw [List.length_map] at hlt
  have hbeside := h.beside_below hon.code hon.rest hon.groups hon.faults
  have hgas : Enough (below c n t) (.ofCode b) (b.tokens.length + 1) (c.tokens.length + 1) :=
    ⟨Nat.lt_succ_self _, by simp [below, State.ofCode, h.length_tokens]; omega⟩
  obtain ⟨hstep, hbody⟩ := parseStatements_beside rfl (statementOf_beside b c) [] (.nil _) hbeside rfl
    hgas ⟨Nat.lt_succ_self _, hlt⟩
  have hlength : (parseStatements (statementOf c) [] g 0 [] t).1.length =
      b.parse.program.body.length := hbody.length_eq
  have hbehind := parseStatements_behind done List.length_nil.symm g t (hlength ▸ hfew)
  rw [Nat.zero_add, List.nil_append] at hbehind
  dsimp only
  rw [hbehind]
  refine ⟨?_, hstep.beside.diagnostics⟩
  rw [List.map_append]
  exact congrArg _ hbody.1

/-- Problems of one part do not show in the other. -/
theorem parse_eq (h : Joined a b c line n) (hplain : ∀ t ∈ a.tokens, t.kind.isPlain = true)
    (hfew : a.parse.program.body.length + b.parse.program.body.length < maxStatements) :
    c.parse.program.body.map (Stmt.bareDown 0) = a.parse.program.body.map (Stmt.bareDown 0) ++
        b.parse.program.body.map (Stmt.bareDown n) ∧
      c.parse.diagnostics = a.parse.diagnostics ++ b.parse.diagnostics.map (Diagnostic.down n) := by
  obtain ⟨g, done, t, hrun, hon⟩ :=
    h.exists_goesOn hplain (Nat.lt_of_le_of_lt (Nat.le_add_right _ _) hfew)
  have hlength : done.length = (run a).1.length := by
    simpa using congrArg List.length hon.done_eq
  obtain ⟨hbody, hdiagnostics⟩ := h.parseStatements_below hon (hlength ▸ hfew)
  rw [← hrun] at hbody hdiagnostics
  constructor
  · rw [parse_body c, hbody, List.map_reverse, hon.done_eq, List.map_reverse, List.reverse_reverse]
    rfl
  · have habove : t.diagnostics = (run a).2.diagnostics := by
      simpa [above] using hon.diagnostics
    rw [parse_diagnostics, parse_diagnostics, parse_diagnostics, hdiagnostics, habove,
      Array.toList_append, Array.toList_map]

end Joined

/-- Code without continued lines is joined as its texts are. -/
theorem Joined.of_reads {as bs : List Char} {ts us : List Token} (ha : Reads none .start as ts)
    (hb : Reads none .start bs us) (hcont : Code.hasContinuation ts = false) (n : Nat) :
    Joined (.ofTokens ts) (.ofTokens us)
      (.ofTokens (ts.dropLast ++ Token.newlineAt (Position.start.advance as) :: us.map (Token.down n)))
      (Token.newlineAt (Position.start.advance as)) n := by
  have hts := ha.eq_concat
  have hcont' : Code.hasContinuation ts.dropLast = false := by
    rw [hts, Code.hasContinuation_append rfl, Bool.or_eq_false_iff] at hcont
    exact hcont.1
  -- The code of each part, with its end token.
  obtain ⟨hatokens, haeof⟩ : (Code.ofTokens ts).tokens = (Code.separate false ts.dropLast).1 ∧
      (Code.ofTokens ts).eof = Token.endAt (Position.start.advance as) := by
    refine Code.ofTokens_of_concat ?_ rfl
    conv_lhs => rw [hts]
    rw [Code.separate_append rfl _ _ hcont']
    rfl
  obtain ⟨code, hcode⟩ := Code.separate_concat false us.dropLast
    (e := Token.endAt (Position.start.advance bs)) rfl
  rw [← hb.eq_concat] at hcode
  obtain ⟨hbtokens, hbeof⟩ := Code.ofTokens_of_concat hcode rfl
  have hjoined : (Code.separate false (ts.dropLast ++
      Token.newlineAt (Position.start.advance as) :: us.map (Token.down n))).1 =
      ((Code.ofTokens ts).tokens ++ Token.newlineAt (Position.start.advance as) ::
        (Code.ofTokens us).tokens.map (Token.down n)) ++ [(Code.ofTokens us).eof.down n] := by
    rw [Code.separate_append rfl _ _ hcont', Code.separate_newline rfl, Code.separate_down, hcode,
      hatokens, hbtokens, hbeof, List.map_append, List.append_assoc]
    rfl
  obtain ⟨htokens, heof⟩ := Code.ofTokens_of_concat hjoined (Code.eof_kind us)
  refine ⟨htokens, heof, rfl, ?_, ⟨Code.eof_kind ts, Code.eof_kind us⟩, ?_⟩
  · rw [haeof]
    rfl
  · exact List.forall_mem_append.mpr
      ⟨Code.kind_ne_of_mem_tokens ha.endsOnce, Code.kind_ne_of_mem_tokens hb.endsOnce⟩

end Parser

/-- Problems stay on their lines: a text without matrices, blocks and continued lines is parsed as if
nothing stood below it, however wrong it is, and what stands below as if nothing stood above it. -/
theorem parse_joined (limit : Int) (a b : String) (ts us vs : List Token)
    (ha : tokenize limit a = .ok ts) (hb : tokenize limit b = .ok us)
    (hab : tokenize limit (a ++ "\n" ++ b) = .ok vs)
    (hplain : ∀ t ∈ (Code.ofTokens ts).tokens, t.kind.isPlain = true)
    (hcont : Code.hasContinuation ts = false)
    (hfew : (parse ts).program.body.length + (parse us).program.body.length < maxStatements) :
    let n := a.toList.count '\n' + 1
    (parse vs).program.body.map (Stmt.bareDown 0) =
        (parse ts).program.body.map (Stmt.bareDown 0) ++
          (parse us).program.body.map (Stmt.bareDown n) ∧
      (parse vs).diagnostics =
        (parse ts).diagnostics ++ (parse us).diagnostics.map (Diagnostic.down n) := by
  intro n
  rw [tokenize_joined ha hb hab]
  rw [tokenize_eq_ok_iff] at ha hb
  exact (Parser.Joined.of_reads ha.1 hb.1 hcont n).parse_eq hplain hfew

/-- The tokens of `x = (1`, a line with a bracket that is not closed. -/
def openLine : List Token := [
  ⟨.identifier, "x", ⟨⟨0, 0⟩, ⟨0, 1⟩⟩⟩, ⟨.sign .equals, "=", ⟨⟨0, 2⟩, ⟨0, 3⟩⟩⟩,
  ⟨.sign .openParen, "(", ⟨⟨0, 4⟩, ⟨0, 5⟩⟩⟩, ⟨.number, "1", ⟨⟨0, 5⟩, ⟨0, 6⟩⟩⟩,
  ⟨.eof, "", ⟨⟨0, 6⟩, ⟨0, 6⟩⟩⟩]

/-- The tokens of `y)`, which does not close that bracket. -/
def closeLine : List Token := [
  ⟨.identifier, "y", ⟨⟨0, 0⟩, ⟨0, 1⟩⟩⟩, ⟨.sign .closeParen, ")", ⟨⟨0, 1⟩, ⟨0, 2⟩⟩⟩,
  ⟨.eof, "", ⟨⟨0, 2⟩, ⟨0, 2⟩⟩⟩]

def openAndCloseLine : List Token :=
  openLine.dropLast ++ Token.newlineAt ⟨0, 6⟩ :: closeLine.map (Token.down 1)

theorem parse_joined_openLine : tokenize 8 "x = (1" = .ok openLine ∧
    tokenize 8 "y)" = .ok closeLine ∧ tokenize 8 ("x = (1" ++ "\n" ++ "y)") = .ok openAndCloseLine ∧
    (parse openAndCloseLine).program.body.map (Stmt.bareDown 0) =
      (parse openLine).program.body.map (Stmt.bareDown 0) ++
        (parse closeLine).program.body.map (Stmt.bareDown 1) ∧
    (parse openAndCloseLine).diagnostics =
      (parse openLine).diagnostics ++ (parse closeLine).diagnostics.map (Diagnostic.down 1) :=
  have hopen : tokenize 8 "x = (1" = .ok openLine := rfl
  have hclose : tokenize 8 "y)" = .ok closeLine := rfl
  have hboth : tokenize 8 ("x = (1" ++ "\n" ++ "y)") = .ok openAndCloseLine := rfl
  ⟨hopen, hclose, hboth, parse_joined 8 "x = (1" "y)" openLine closeLine openAndCloseLine hopen hclose
    hboth (by decide) (by decide) (by decide +kernel)⟩

end MatrixScript
