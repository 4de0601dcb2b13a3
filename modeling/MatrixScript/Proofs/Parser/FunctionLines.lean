import MatrixScript.Proofs.Parser.BlockRecovery
import MatrixScript.Proofs.Parser.Layout

/-! Lines that start with the keyword `function`.

Main statement: in a text of which no block is too long, every such keyword starts a function of the tree,
unless a switch or a multiple assignment has swallowed it. -/
namespace MatrixScript

variable {t : Token} {post : List Token}

/-! The lines of tokens. -/

namespace Lexeme

/-- A newline is the last character of a line, and a token of its own. -/
theorem read_count_newline (previous : Option Token.Kind) (touches : Bool) (c : Char) (cs : List Char) :
    (read previous touches (c :: cs)).chars.count '\n' =
      if (read previous touches (c :: cs)).kind = .newline then 1 else 0 := by
  by_cases hc : c = '\n'
  · subst hc
    rfl
  have hkind : (read previous touches (c :: cs)).kind ≠ .newline := by
    intro hkind
    have hspells := read_spells previous touches c cs
    rw [hkind] at hspells
    have happend := read_append previous touches (c :: cs)
    rw [show (read previous touches (c :: cs)).chars = ['\n'] from hspells] at happend
    exact hc (List.cons.inj happend).1.symm
  rw [if_neg hkind, List.count_eq_zero]
  have hfront {more : List Char} (h : '\n' ∉ more) :
      '\n' ∉ (read previous touches (c :: more)).chars := by
    intro hmem
    have happend := read_append previous touches (c :: more)
    have hmem' : '\n' ∈ c :: more := happend ▸ List.mem_append_left _ hmem
    exact (List.mem_cons.mp hmem').elim (fun heq => hc heq.symm) h
  by_cases hline : '\n' ∈ cs
  · obtain ⟨front, back, rfl, hnone⟩ := List.eq_append_cons_of_mem hline
    rw [read_append_newline]
    exact hfront hnone
  · exact hfront hline

theorem count_newline_blanks {blanks : List Char} (hb : ∀ b ∈ blanks, isSkipped b = true) :
    blanks.count '\n' = 0 := by
  rw [List.count_eq_zero]
  intro hmem
  exact absurd (hb _ hmem) (by decide)

end Lexeme

namespace Token

def line (t : Token) : Int := t.span.start.line

/-- The next token is on the same line, behind a newline on the next. -/
def LineStep (t u : Token) : Prop :=
  u.line = t.line + if t.kind = .newline then 1 else 0

end Token

/-- A token ends on its line, a newline on the next one. -/
theorem Lexeme.token_stop_line {previous : Option Token.Kind} {touches : Bool} {c : Char} {cs : List Char}
    {l : Lexeme} (hl : l = read previous touches (c :: cs)) (p : Position) :
    (l.token p).span.stop.line = p.line + if l.kind = .newline then 1 else 0 := by
  have hcount : (l.chars.count '\n' : Int) = if l.kind = .newline then 1 else 0 := by
    rw [hl, read_count_newline]
    split_ifs <;> rfl
  rw [token, Position.line_advance, hcount]

theorem Reads.lineSteps {previous : Option Token.Kind} {p : Position} {cs : List Char} {ts : List Token}
    (h : Reads previous p cs ts) : (∀ t ∈ ts.head?, t.line = p.line) ∧ ts.IsChain Token.LineStep := by
  induction h with
  | @last _ p blanks hb =>
    refine ⟨fun t ht => ?_, .singleton _⟩
    obtain rfl := Option.some.inj ht
    rw [Token.line, Position.line_advance, Lexeme.count_newline_blanks hb, Int.natCast_zero, Int.add_zero]
  | @token _ p blanks cs c l ts hb _ hl hts ih =>
    have hline : (l.token (p.advance blanks)).line = p.line := by
      rw [Token.line, Lexeme.token, Position.line_advance, Lexeme.count_newline_blanks hb,
        Int.natCast_zero, Int.add_zero]
    refine ⟨fun t ht => Option.some.inj ht ▸ hline, ?_⟩
    obtain ⟨u, us, rfl⟩ := List.exists_cons_of_ne_nil hts.ne_nil
    refine .cons_cons ?_ ih.2
    calc u.line = (l.token (p.advance blanks)).span.stop.line := ih.1 u rfl
      _ = (p.advance blanks).line + if l.kind = .newline then 1 else 0 := Lexeme.token_stop_line hl _

theorem Reads.stop_line {previous : Option Token.Kind} {p : Position} {cs : List Char} {ts : List Token}
    (h : Reads previous p cs ts) :
    ∀ t ∈ ts, t.span.stop.line = t.line + if t.kind = .newline then 1 else 0 := by
  induction h with
  | last => exact List.forall_mem_singleton.mpr (Int.add_zero _).symm
  | token _ _ hl _ ih => exact List.forall_mem_cons.mpr ⟨Lexeme.token_stop_line hl _, ih⟩

namespace Code

/-- Whether three points in a row join the line with the next one. -/
def continuesLine (line : Int) : List Token → Bool
  | [] => false
  | t :: ts => (startsContinuation (t :: ts) && t.line == line) || continuesLine line ts

theorem isChain_headD {R : Token → Token → Prop} {x : Token} {pre : List Token}
    (h : (x :: (pre ++ t :: post)).IsChain R) :
    R x (pre.headD t) ∧ (pre ++ t :: post).IsChain R := by
  cases pre with
  | nil => exact List.isChain_cons_cons.mp h
  | cons y pre => exact List.isChain_cons_cons.mp h

theorem line_headD_le (pre : List Token) (h : (pre ++ t :: post).IsChain Token.LineStep) : (pre.headD t).line ≤ t.line := by
  induction pre with
  | nil => exact Int.le_refl _
  | cons x pre ih =>
    obtain ⟨hstep, hrest⟩ := isChain_headD h
    have hle := ih hrest
    rw [Token.LineStep] at hstep
    rw [List.headD_cons]
    split_ifs at hstep <;> omega

/-- The first token of a line is part of the code. If there is code before it, that ends with the newline of
the line before. -/
theorem separate_lineStart (hkind : t.kind.isKeyword = true) (pre : List Token) (joining : Bool)
    (hsteps : (pre ++ t :: post).IsChain Token.LineStep)
    (hfirst : ∀ u ∈ pre, u.line = t.line → u.kind.isComment = true)
    (hcontinues : continuesLine (t.line - 1) (pre ++ t :: post) = false)
    (hjoining : joining = true → (pre.headD t).line + 1 < t.line) :
    ∃ front, (separate joining (pre ++ t :: post)).1 = front ++ t :: (separate false post).1 ∧
      (∀ u ∈ front.getLast?, u.kind = .newline ∧ u.line + 1 = t.line) ∧
      (front = [] → (pre.headD t).line = t.line) := by
  induction pre generalizing joining with
  | nil =>
    obtain rfl : joining = false := by
      by_contra htrue
      have hlt := hjoining (by simpa using htrue)
      rw [List.headD_nil] at hlt
      omega
    refine ⟨[], ?_, by simp, fun _ => rfl⟩
    obtain ⟨word, hword⟩ := Token.Kind.exists_keyword hkind
    have hstarts : startsContinuation (t :: post) = false :=
      startsContinuation_of_not_period (by rw [Token.is, hword]; rfl) post
    rw [List.nil_append, List.nil_append, separate_cons, hword, hstarts]
    rfl
  | cons x pre ih =>
    obtain ⟨hstep, hrest⟩ := isChain_headD hsteps
    have hle := line_headD_le pre hrest
    obtain ⟨hx, hfirst⟩ := List.forall_mem_cons.mp hfirst
    rw [List.cons_append, continuesLine, Bool.or_eq_false_iff] at hcontinues
    rw [List.headD_cons] at hjoining ⊢
    rw [Token.LineStep] at hstep
    rw [List.cons_append, separate_cons]
    split_ifs with hcomment hdrop hstarts
    · have hne : x.kind ≠ .newline := ne_of_apply_ne Token.Kind.isComment (by rw [hcomment]; decide)
      rw [if_neg hne, Int.add_zero] at hstep
      obtain ⟨front, hcode, hlast, hnil⟩ := ih joining hrest hfirst hcontinues.2 (hstep ▸ hjoining)
      exact ⟨front, hcode, hlast, hstep ▸ hnil⟩
    · -- The line of `x` is joined with the next one, which is not yet the line of `t`.
      have hlt := hjoining (Bool.and_eq_true_iff.mp hdrop).1
      have hnext : (x.kind != .newline) = true → (pre.headD t).line + 1 < t.line := by
        intro hne
        rw [if_neg (by simpa using hne)] at hstep
        omega
      obtain ⟨front, hcode, hlast, hnil⟩ := ih _ hrest hfirst hcontinues.2 hnext
      refine ⟨front, hcode, hlast, fun hempty => ?_⟩
      have hline := hnil hempty
      split_ifs at hstep <;> omega
    · have hperiod := is_period_of_startsContinuation hstarts
      have hother : x.line ≠ t.line := fun hline => hcomment (hx hline)
      have hbefore : x.line ≠ t.line - 1 := by simpa [hstarts] using hcontinues.1
      rw [beq_iff_eq.mp hperiod, if_neg (by simp)] at hstep
      obtain ⟨front, hcode, hlast, hnil⟩ := ih true hrest hfirst hcontinues.2 fun _ => by omega
      refine ⟨front, hcode, hlast, fun hempty => ?_⟩
      have hline := hnil hempty
      omega
    · obtain ⟨front, hcode, hlast, hnil⟩ := ih false hrest hfirst hcontinues.2
        (absurd · Bool.false_ne_true)
      refine ⟨x :: front, by rw [hcode]; rfl, ?_, (absurd · (List.cons_ne_nil _ _))⟩
      cases front with
      | cons y front => rwa [List.getLast?_cons_cons]
      | nil =>
        intro u hu
        obtain rfl : x = u := Option.some.inj hu
        have hline := hnil rfl
        by_cases hnewline : x.kind = .newline
        · rw [if_pos hnewline] at hstep
          exact ⟨hnewline, by omega⟩
        · rw [if_neg hnewline] at hstep
          exact absurd (hx (by omega)) hcomment

/-- What is kept of the tokens is the code up to its end. -/
theorem token_eq_of_getElem? {ts : List Token} {place : Nat}
    (h : (separate false ts).1[place]? = some t) (hkind : t.kind ≠ .eof) :
    place < (ofTokens ts).tokens.length ∧ (ofTokens ts).token place = t := by
  have htoken : (ofTokens ts).tokens[place]? = some t := by
    obtain ⟨heof, hcode | ⟨hcode, -⟩⟩ := ofTokens_spec ts
    · rw [hcode, List.getElem?_append] at h
      split_ifs at h with hlt
      · exact h
      · have hlast := List.mem_of_getElem? h
        rw [List.mem_singleton.mp hlast] at hkind
        exact absurd heof hkind
    · rwa [← hcode]
  exact ⟨(List.getElem?_eq_some_iff.mp htoken).1, by rw [token, htoken, Option.getD_some]⟩

end Code

/-- The token is the first code on its line, and the line before is not joined with its line. -/
def Token.LeadsLine (ts : List Token) (t : Token) : Prop :=
  (∀ u ∈ ts, u.line = t.line → u.kind.isComment = true ∨ t.span.start ≤ u.span.start) ∧
    Code.continuesLine (t.line - 1) ts = false

instance (ts : List Token) (t : Token) : Decidable (t.LeadsLine ts) :=
  inferInstanceAs (Decidable (_ ∧ _))

namespace Reads

variable {text : String} {ts : List Token}

/-- Only comments stand before the first code on a line. -/
theorem isComment_of_leadsLine (h : Reads none .start text.toList ts) {pre : List Token}
    (hts : ts = pre ++ t :: post) (hleads : t.LeadsLine ts) :
    ∀ u ∈ pre, u.line = t.line → u.kind.isComment = true := by
  intro u hu hline
  have hmem : u ∈ ts := hts ▸ List.mem_append_left _ hu
  refine (hleads.1 u hmem hline).resolve_right fun hle => ?_
  have hordered := h.ordered
  have hends := h.endsOnce
  rw [hts] at hordered hends
  have hstop := (List.pairwise_append.mp hordered).2.2 u hu t List.mem_cons_self
  have hkind := (List.pairwise_append.mp hends).2.2 u hu t List.mem_cons_self
  exact h.not_stop_le_start hmem hkind (Position.le_trans hstop hle)

theorem newline_stop (h : Reads none .start text.toList ts) {u : Token} (hmem : u ∈ ts)
    (hkind : u.kind = .newline) : u.span.stop = ⟨u.line + 1, 0⟩ := by
  have hspells := h.wellSpelled u hmem
  rw [Token.WellSpelled, hkind] at hspells
  rw [(tokens_shown h u hmem).stop_eq, show u.text.toList = ['\n'] from hspells]
  rfl

/-- A keyword `function` that leads its line is found in the code. -/
theorem functionAt (h : Reads none .start text.toList ts) (hmem : t ∈ ts)
    (hkind : t.kind = .keyword .function) (hleads : t.LeadsLine ts) :
    ∃ place, (Code.ofTokens ts).token place = t ∧ (Code.ofTokens ts).FunctionAt place := by
  obtain ⟨pre, post, hts⟩ := List.append_of_mem hmem
  have hsteps := h.lineSteps.2
  have hcontinues := hleads.2
  rw [hts] at hsteps hcontinues
  obtain ⟨front, hcode, hlast, -⟩ := Code.separate_lineStart (by rw [hkind]; rfl) pre false hsteps
    (h.isComment_of_leadsLine hts hleads) hcontinues nofun
  rw [← hts] at hcode
  have hplace : (Code.separate false ts).1[front.length]? = some t := by
    rw [hcode, List.getElem?_append_right (Nat.le_refl _), Nat.sub_self]
    rfl
  obtain ⟨hlt, htoken⟩ := Code.token_eq_of_getElem? hplace (by rw [hkind]; exact nofun)
  have hbefore : ∀ before, front.length = before + 1 →
      ((Code.ofTokens ts).token before).kind = .newline ∧
        ((Code.ofTokens ts).token before).span.stop = ⟨t.line, 0⟩ := by
    intro before hlength
    obtain rfl | ⟨more, u, rfl⟩ := List.eq_nil_or_concat front
    · contradiction
    obtain rfl : more.length = before := by simpa using hlength
    obtain ⟨hnewline, hline⟩ := hlast u (by simp)
    have hget : (Code.separate false ts).1[more.length]? = some u := by
      rw [hcode, List.concat_eq_append, List.append_assoc, List.getElem?_append_right (Nat.le_refl _),
        Nat.sub_self]
      rfl
    have hu : u ∈ ts := (Code.separate_sublist false ts).subset (List.mem_of_getElem? hget)
    rw [(Code.token_eq_of_getElem? hget (by rw [hnewline]; exact nofun)).2]
    exact ⟨hnewline, by rw [h.newline_stop hu hnewline, hline]⟩
  refine ⟨front.length, htoken, ⟨⟨hlt, by rw [htoken, hkind]; rfl, ?_⟩, by rw [htoken, hkind], ?_⟩⟩
  · exact fun before hlength => (hbefore before hlength).1
  · rw [htoken]
    exact fun before hlength => (hbefore before hlength).2

end Reads

/-- Over laid out code the keyword is lost only with the end of a program that is too long. -/
theorem Code.FunctionAt.taken {B : Position → Prop} {code : Code} {place : Nat} (h : code.FunctionAt place)
    (hlaid : code.LaidOut B) (hlimit : ∀ d ∈ code.parse.diagnostics, d.code ≠ .statementLimit) :
    code.Taken place code.parse.program.nodes := by
  have hs : (Parser.State.ofCode code).Sound B code :=
    .ofCode hlaid
  have hwell := Parser.goesWell hlaid.eof_kind hlaid.kind_ne (Nat.lt_succ_self code.tokens.length)
  have hrest : (Parser.runBlock code (code.tokens.length + 1)).2.rest = [] := by
    by_contra hmore
    obtain ⟨d, hd, hcode⟩ := hwell.skipped hmore
    exact hlimit d (Array.mem_toList_iff.mpr hd) hcode
  have hblock := Parser.parseBlock_saves (B := B) h (code.tokens.length + 1)
  have hcode : (Parser.runBlock code (code.tokens.length + 1)).2.code = code :=
    (hblock.lies.reads [] (.ofCode code) hs).sound.code_eq
  have hend := (Parser.runBlock code (code.tokens.length + 1)).2.length_le_pos hrest
  rw [hcode] at hend
  obtain hle | htaken := hblock.saves [] (.ofCode code) hs (Nat.zero_le _)
  · exact absurd h.lt (Nat.not_lt.mpr (Nat.le_trans hend hle))
  · exact htaken.mono (List.subset_cons_self _ _)

/-- However malformed the text is, a keyword `function` that leads its line starts a function. The exceptions
are keywords in a switch that are in none of its parts, and those in or right behind the targets of a multiple
assignment. -/
theorem function_lines_kept (limit : Int) (text : String) (ts : List Token) (t : Token)
    (htokens : tokenize limit text = .ok ts) (hmem : t ∈ ts) (hkind : t.kind = .keyword .function)
    (hleads : t.LeadsLine ts) (hlimit : ∀ d ∈ (parse ts).diagnostics, d.code ≠ .statementLimit) :
    (∃ n ∈ (parse ts).program.nodes, n.isFunctionAt t.span.start = true) ∨
      ∃ n ∈ (parse ts).program.nodes, n.swallows t = true := by
  have hreads := ((tokenize_eq_ok_iff limit text ts).mp htokens).1
  obtain ⟨place, rfl, hat⟩ := hreads.functionAt hmem hkind hleads
  obtain ⟨n, hn, hfunction | hswallows⟩ := hat.taken hreads.laidOut hlimit
  · exact .inl ⟨n, hn, hfunction⟩
  · exact .inr ⟨n, hn, hswallows⟩

/-- The tokens of a short text. -/
def tokensOf (text : String) : List Token := (tokenize 100 text).toOption.getD []

/-- A condition, a matrix and two headers that are left open. -/
def openLines : String := "if (x\n  y = [1,\n\n% f\n  function f(\nfunction [g ...\n  = h\nend"

/-- The keyword behind the matrix. -/
def headerWord : Token := ⟨.keyword .function, "function", .ofNats 4 2 4 10⟩

theorem function_lines_kept_openLines : tokenize 100 openLines = .ok (tokensOf openLines) ∧
    headerWord ∈ tokensOf openLines ∧ headerWord.LeadsLine (tokensOf openLines) ∧
    (∀ d ∈ (parse (tokensOf openLines)).diagnostics, d.code ≠ .statementLimit) ∧
    ∃ n ∈ (parse (tokensOf openLines)).program.nodes, n.isFunctionAt (.mk 4 2) = true := by
  -- One evaluation for all of it, as each one reads the text again.
  have hfacts : tokenize 100 openLines = .ok (tokensOf openLines) ∧ headerWord ∈ tokensOf openLines ∧
      headerWord.LeadsLine (tokensOf openLines) ∧
      (∀ d ∈ (parse (tokensOf openLines)).diagnostics, d.code ≠ .statementLimit) ∧
      ¬∃ n ∈ (parse (tokensOf openLines)).program.nodes, n.swallows headerWord = true := by
    decide +kernel
  obtain ⟨htokens, hmem, hleads, hlimit, hkeeps⟩ := hfacts
  have hfound := function_lines_kept 100 openLines _ headerWord htokens hmem rfl hleads hlimit
  exact ⟨htokens, hmem, hleads, hlimit, hfound.resolve_right hkeeps⟩

/-- A keyword leads its line in a text of which no block is too long, but it starts no function. -/
def LosesFunction (text : String) : Prop :=
  ∃ t ∈ tokensOf text, tokenize 100 text = .ok (tokensOf text) ∧ t.kind = .keyword .function ∧
    t.LeadsLine (tokensOf text) ∧
    (∀ d ∈ (parse (tokensOf text)).diagnostics, d.code ≠ .statementLimit) ∧
    ¬∃ n ∈ (parse (tokensOf text)).program.nodes, n.isFunctionAt t.span.start = true

instance (text : String) : Decidable (LosesFunction text) :=
  inferInstanceAs (Decidable (∃ t ∈ tokensOf text, _))

/-- The exceptions occur: before the branches of a switch, behind the first of two `otherwise`, among the
targets of a multiple assignment and where its value would be. -/
theorem function_lines_swallowed : LosesFunction "switch x\nfunction f\nend" ∧
    LosesFunction "switch x\notherwise\nfunction f\nend\notherwise\nend" ∧
    LosesFunction "[a\nfunction f\nb] = 1;" ∧ LosesFunction "[a \x7bb]\nfunction f \x7d = 1;" := by
  decide +kernel

end MatrixScript
