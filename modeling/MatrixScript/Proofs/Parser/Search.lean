import MatrixScript.Proofs.Parser.Extent
import MatrixScript.Proofs.Parser.Nested

/-! The search for the equals sign of an assignment goes along with the parser.

Main statement: in expressions and targets without errors, the search passes over what the parser
consumes, or it has given up, and outside of all brackets there is no equals sign that could assign. -/
namespace MatrixScript

variable {group : Group} {sign : Sign} {op : BinaryOp}

/-! Brackets and equals signs in code. -/

namespace Parser

/-- The brackets that are open behind a token. A closing bracket of any kind closes the innermost one. -/
def openAfter (opened : List Group) (t : Token) : List Group :=
  match t.kind with
  | .sign sign =>
    match Group.ofOpening? sign with
    | some group => group :: opened
    | none => if (Group.ofClosing? sign).isSome then opened.tail else opened
  | _ => opened

/-- The brackets among some tokens that are still open behind them. -/
def openBehind (tokens : List Token) : List Group :=
  tokens.foldl openAfter []

/-- A token that makes a comparison with an equals sign right behind it. -/
def comparesWith (t : Token) : Bool :=
  t.is .equals || t.is .less || t.is .greater || t.is .tilde || t.is .bang

end Parser

/-- An equals sign at `place` that is no part of a comparison. The first token counts as the one before
itself, but it is not adjacent to itself. -/
def Code.assignsAt (code : Code) (place : Nat) : Bool :=
  (code.token place).is .equals &&
    Parser.assigns (code.token (place - 1)) (code.token place) (code.token (place + 1))

namespace Parser

variable {s s₀ : State} {opened : List Group} {t : Token}

theorem openAfter_of_isNeutral (h : t.kind.isNeutral = true) : openAfter opened t = opened := by
  unfold openAfter
  cases hkind : t.kind with
  | sign sign =>
    rw [hkind] at h
    cases sign <;> first | rfl | contradiction
  | _ => rfl

theorem openAfter_opening (hkind : t.kind = .sign sign)
    (hopen : Group.ofOpening? sign = some group) : openAfter opened t = group :: opened := by
  simp only [openAfter, hkind, hopen]

theorem openAfter_closing (hkind : t.kind = .sign group.closing) :
    openAfter (group :: opened) t = opened := by
  simp only [openAfter, hkind, Group.ofOpening?_closing, Group.ofClosing?_closing, Option.isSome_some,
    if_true, List.tail_cons]

theorem openAfter_keyword {word : Keyword} (hkind : t.kind = .keyword word) :
    openAfter opened t = opened := by
  simp only [openAfter, hkind]

theorem assigns_eq (before equals following : Token) :
    assigns before equals following =
      (!(following.is .equals && equals.adjacent following) &&
        !(comparesWith before && before.adjacent equals)) :=
  rfl

theorem comparesWith_of_isName (h : t.isName = true) : comparesWith t = false := by
  unfold Token.isName at h
  unfold comparesWith Token.is
  cases hkind : t.kind <;> rw [hkind] at h <;> first | rfl | contradiction

/-- What is read around the current token. -/
theorem State.assignsAt_pos (s : State) :
    s.code.assignsAt s.pos = (s.current.is .equals && assigns s.previous s.current (s.ahead 1)) := by
  rw [Code.assignsAt, s.previous_eq_token, s.current_eq_ahead, s.ahead_eq_token 0, s.ahead_eq_token 1]
  rfl

theorem State.assignsAt_of_ne (h : s.current.kind ≠ .sign .equals) : s.code.assignsAt s.pos = false := by
  have hnot : s.current.is .equals = false := beq_eq_false_iff_ne.mpr h
  rw [s.assignsAt_pos, hnot]
  rfl

/-- The search ends with nothing, or it goes on behind the token, or the token assigns. -/
theorem findAssignment_cons (opened : List Group) (before t : Token) (ts : List Token) :
    findAssignment opened before (t :: ts) = none ∨
      findAssignment opened before (t :: ts) = findAssignment (openAfter opened t) t ts ∨
      opened = [] ∧ t.kind = .sign .equals ∧
        assigns before t (ts.headD ⟨.eof, "", t.span⟩) = true := by
  rw [findAssignment.eq_def]
  dsimp only
  unfold openAfter
  cases hkind : t.kind with
  | sign sign =>
    dsimp only
    cases hopen : Group.ofOpening? sign with
    | some group => exact .inr (.inl rfl)
    | none =>
      dsimp only
      by_cases hclose : (Group.ofClosing? sign).isSome = true
      · rw [if_pos hclose, if_pos hclose]
        exact .inr (.inl rfl)
      · rw [if_neg hclose, if_neg hclose]
        cases opened with
        | cons group groups => exact .inr (.inl rfl)
        | nil =>
          rw [if_neg (by simp)]
          cases sign
          case semicolon | comma => exact .inl rfl
          case equals =>
            dsimp only
            split_ifs with hassigns
            · exact .inr (.inr ⟨rfl, rfl, hassigns⟩)
            · exact .inr (.inl rfl)
          all_goals exact .inr (.inl rfl)
  | newline =>
    dsimp only
    split_ifs
    · exact .inr (.inl rfl)
    · exact .inl rfl
  | keyword word =>
    dsimp only
    split_ifs
    · exact .inl rfl
    · exact .inr (.inl rfl)
  | eof => exact .inl rfl
  | _ => exact .inr (.inl rfl)

/-- The end token is seen in the same way by the search and by the parser. -/
theorem State.assigns_ahead (s : State) (heof : s.code.eof.kind = .eof) {ts : List Token}
    (hrest : s.rest = t :: ts) (before : Token) :
    assigns before t (ts.headD ⟨.eof, "", t.span⟩) = assigns before t (s.ahead 1) := by
  unfold State.ahead
  rw [hrest]
  cases ts with
  | cons u us => rfl
  | nil =>
    have hnot (u : Token) (hu : u.kind = .eof) : u.is .equals = false := by
      rw [Token.is, hu]
      rfl
    change assigns _ _ ⟨.eof, "", t.span⟩ = assigns _ _ s.code.eof
    rw [assigns_eq, assigns_eq, hnot _ rfl, hnot _ heof]
    rfl

/-- The search passes over a token that does not assign, or it gives up. -/
theorem State.findAssignment_passes (s : State) (heof : s.code.eof.kind = .eof) (hne : s.rest ≠ [])
    (hquiet : opened = [] → s.code.assignsAt s.pos = false) :
    findAssignment opened s.previous s.rest = none ∨
      findAssignment opened s.previous s.rest =
        findAssignment (openAfter opened s.current) (advance s).2.previous (advance s).2.rest := by
  have hprevious := advance_previous hne
  have hrest' : (advance s).2.rest = s.rest.drop 1 := by
    rw [advance_eq hne]
    rfl
  rw [hprevious, hrest']
  rw [s.assignsAt_pos] at hquiet
  obtain ⟨t, ts, hrest⟩ := List.exists_cons_of_ne_nil hne
  have hcurrent : s.current = t := by rw [State.current, hrest]; rfl
  rw [hcurrent] at hquiet ⊢
  rw [hrest]
  obtain hnone | hnext | ⟨hnil, hkind, hassigns⟩ := findAssignment_cons opened s.previous t ts
  · exact .inl hnone
  · exact .inr hnext
  · rw [s.assigns_ahead heof hrest] at hassigns
    have hquiet' := hquiet hnil
    rw [hassigns, Bool.and_true, Token.is, hkind] at hquiet'
    contradiction

/-- The search stops at an equals sign that assigns. -/
theorem State.findAssignment_found (s : State) (heof : s.code.eof.kind = .eof) (hne : s.rest ≠ [])
    (hkind : s.current.kind = .sign .equals)
    (hassigns : assigns s.previous s.current (s.ahead 1) = true) :
    findAssignment [] s.previous s.rest = some s.current := by
  obtain ⟨t, ts, hrest⟩ := List.exists_cons_of_ne_nil hne
  have hcurrent : s.current = t := by rw [State.current, hrest]; rfl
  rw [hcurrent] at hkind hassigns ⊢
  rw [hrest, findAssignment.eq_def]
  simp only [hkind]
  rw [s.assigns_ahead heof hrest, hassigns]
  rfl

/-! The search goes along with the parser. -/

/-- From `s₀` to `s` the search for an equals sign has passed over all that the parser has consumed,
unless it has given up. `opened` are the brackets that were opened on the way and not closed again. -/
structure Calm (s₀ : State) (opened : List Group) (s : State) : Prop where
  code_eq : s.code = s₀.code
  eof_kind : s₀.code.eof.kind = .eof
  start_le : s₀.pos ≤ s.pos
  opened_eq : openBehind (s₀.code.tokens.extract s₀.pos s.pos) = opened
  /-- No equals sign outside of all brackets could assign. -/
  quiet : ∀ place, s₀.pos ≤ place → place < s.pos →
    openBehind (s₀.code.tokens.extract s₀.pos place) = [] → s₀.code.assignsAt place = false
  search : findAssignment [] s₀.previous s₀.rest = none ∨
    findAssignment [] s₀.previous s₀.rest = findAssignment opened s.previous s.rest

namespace Calm

theorem refl (s : State) (heof : s.code.eof.kind = .eof) : Calm s [] s where
  code_eq := rfl
  eof_kind := heof
  start_le := Nat.le_refl _
  opened_eq := by simp [List.extract_eq_take_drop, openBehind]
  quiet := fun place hle hlt => absurd hlt (Nat.not_lt_of_le hle)
  search := .inr rfl

theorem rest_ne_nil (h : Calm s₀ opened s) (hkind : s.current.kind ≠ .eof) : s.rest ≠ [] := by
  intro hnil
  apply hkind
  rw [State.current, hnil, h.code_eq]
  exact h.eof_kind

/-- One token more is passed over. Outside of all brackets it must not assign. -/
theorem advance (h : Calm s₀ opened s) (hkind : s.current.kind ≠ .eof)
    (hquiet : opened = [] → s.code.assignsAt s.pos = false) :
    Calm s₀ (openAfter opened s.current) (Parser.advance s).2 := by
  have hne := h.rest_ne_nil hkind
  have hcode : (Parser.advance s).2.code = s₀.code := (Extends.advance s).code.trans h.code_eq
  have hpos : (Parser.advance s).2.pos = s.pos + 1 := by rw [advance_eq hne]; rfl
  refine ⟨hcode, h.eof_kind, ?_, ?_, ?_, ?_⟩
  · rw [hpos]
    exact Nat.le_succ_of_le h.start_le
  · rw [hpos, ← h.code_eq, s.extract_succ h.start_le hne, h.code_eq, openBehind, List.foldl_append]
    change openAfter (openBehind _) s.current = _
    rw [h.opened_eq]
  · intro place hle hlt hout
    rw [hpos] at hlt
    obtain hlt | rfl := Nat.lt_succ_iff_lt_or_eq.mp hlt
    · exact h.quiet place hle hlt hout
    · rw [← h.code_eq]
      exact hquiet (h.opened_eq.symm.trans hout)
  · obtain hnone | hsearch := h.search
    · exact .inl hnone
    rw [hsearch]
    exact s.findAssignment_passes (h.code_eq ▸ h.eof_kind) hne hquiet

end Calm

/-- Besides, in the target of an assignment, the last token outside of all brackets is the end of a name
or an argument list. -/
structure Passed (s₀ : State) (target : Bool) (groups opened : List Group) (s : State) : Prop
    extends Calm s₀ opened s where
  groups_eq : s.groups = groups
  last : target = true → opened = [] → comparesWith s.previous = false

namespace Passed

variable {target : Bool} {groups : List Group}

section

variable (h : Passed s₀ target groups opened s)
include h

theorem advance (hkind : s.current.kind ≠ .eof)
    (hquiet : opened = [] → s.code.assignsAt s.pos = false)
    (hlast : target = true → openAfter opened s.current = [] → comparesWith s.current = false) :
    Passed s₀ target groups (openAfter opened s.current) (Parser.advance s).2 := by
  have hne := h.rest_ne_nil hkind
  refine ⟨h.toCalm.advance hkind hquiet, ?_, ?_⟩
  · rw [advance_eq hne]
    exact h.groups_eq
  · rw [advance_previous hne]
    exact hlast

theorem pass (hneutral : s.current.kind.isNeutral = true) (hne : s.current.kind ≠ .sign .equals)
    (hlast : target = true → opened = [] → comparesWith s.current = false) :
    Passed s₀ target groups opened (Parser.advance s).2 := by
  have hsame : openAfter opened s.current = opened := openAfter_of_isNeutral hneutral
  have hkind : s.current.kind ≠ .eof := by
    intro heof
    rw [heof] at hneutral
    contradiction
  have hnext := h.advance hkind (fun _ => State.assignsAt_of_ne hne) (by rwa [hsame])
  rwa [hsame] at hnext

theorem passPlain (hplain : isPlain s.current.kind = true) (hfits : target = true → opened ≠ []) :
    Passed s₀ target groups opened (Parser.advance s).2 := by
  unfold isPlain at hplain
  simp only [Bool.and_eq_true, bne_iff_ne] at hplain
  exact h.pass hplain.1.1 hplain.2 fun htarget hnil => absurd hnil (hfits htarget)

theorem passName (hname : s.current.isName = true) :
    Passed s₀ target groups opened (Parser.advance s).2 := by
  apply h.pass (Token.isNeutral_of_isName hname)
  · intro hkind
    rw [Token.isName, hkind] at hname
    contradiction
  · exact fun _ _ => comparesWith_of_isName hname

theorem passPeriod (hkind : s.current.kind = .sign .period) :
    Passed s₀ target groups opened (Parser.advance s).2 := by
  apply h.pass
  · rw [hkind]
    rfl
  · rw [hkind]
    decide
  · intro _ _
    rw [comparesWith, Token.is, Token.is, Token.is, Token.is, Token.is, hkind]
    rfl

theorem openBracket (hkind : s.current.kind = .sign sign)
    (hopen : Group.ofOpening? sign = some group) :
    Passed s₀ target groups (group :: opened) (Parser.advance s).2 := by
  have hafter : openAfter opened s.current = group :: opened := openAfter_opening hkind hopen
  have hne : s.current.kind ≠ .sign .equals := by
    rw [hkind]
    rintro ⟨⟩
    contradiction
  have hnext := h.advance (by rw [hkind]; exact nofun) (fun _ => State.assignsAt_of_ne hne)
    (by rw [hafter]; exact fun _ hnil => absurd hnil (List.cons_ne_nil _ _))
  rwa [hafter] at hnext

end

theorem closeBracket (h : Passed s₀ target groups (group :: opened) s)
    (hkind : s.current.kind = .sign group.closing) :
    Passed s₀ target groups opened (Parser.advance s).2 := by
  have hafter : openAfter (group :: opened) s.current = opened := openAfter_closing hkind
  have hlast : comparesWith s.current = false := by
    unfold comparesWith Token.is
    rw [hkind]
    cases group <;> rfl
  have hnext := h.advance (by rw [hkind]; exact nofun)
    (fun hnil => absurd hnil (List.cons_ne_nil _ _)) (fun _ _ => hlast)
  rwa [hafter] at hnext

theorem passEquals (h : Passed s₀ target groups (group :: opened) s)
    (hkind : s.current.kind = .sign .equals) :
    Passed s₀ target groups (group :: opened) (Parser.advance s).2 := by
  have hafter : openAfter (group :: opened) s.current = group :: opened :=
    openAfter_of_isNeutral (by rw [hkind]; rfl)
  have hnext := h.advance (by rw [hkind]; exact nofun)
    (fun hnil => absurd hnil (List.cons_ne_nil _ _))
    (by rw [hafter]; exact fun _ hnil => absurd hnil (List.cons_ne_nil _ _))
  rwa [hafter] at hnext

theorem passKeyword (h : Passed s₀ target groups opened s) {word : Keyword}
    (hkind : s.current.kind = .keyword word) (hfits : target = true → opened ≠ []) :
    Passed s₀ target groups opened (Parser.advance s).2 := by
  have hafter : openAfter opened s.current = opened := openAfter_keyword hkind
  have hne : s.current.kind ≠ .sign .equals := by
    rw [hkind]
    exact nofun
  have hnext := h.advance (by rw [hkind]; exact nofun) (fun _ => State.assignsAt_of_ne hne)
    (by rw [hafter]; exact fun htarget hnil => absurd hnil (hfits htarget))
  rwa [hafter] at hnext

/-- A sign that may be an equals sign, in a place where it is no assignment. -/
theorem passSign (h : Passed s₀ target groups opened s) (hkind : s.current.kind = .sign sign)
    (hneutral : (Token.Kind.sign sign).isNeutral = true) (hfits : target = true → opened ≠ [])
    (hquiet : s.code.assignsAt s.pos = false) :
    Passed s₀ target groups opened (Parser.advance s).2 := by
  have hafter : openAfter opened s.current = opened :=
    openAfter_of_isNeutral (by rw [hkind]; exact hneutral)
  have hnext := h.advance (by rw [hkind]; exact nofun) (fun _ => hquiet)
    (by rw [hafter]; exact fun htarget hnil => absurd hnil (hfits htarget))
  rwa [hafter] at hnext

end Passed

theorem adjacent_of_operatorAt {x y : Token} (h : operatorAt x y = some (op, 2)) :
    x.adjacent y = true := by
  unfold operatorAt at h
  split at h
  · rename_i first hfirst
    cases hdouble : doubleOperatorAt first x y with
    | none =>
      rw [hdouble] at h
      obtain ⟨_, -, heq⟩ := Option.map_eq_some_iff.mp h
      cases heq
    | some found =>
      unfold doubleOperatorAt at hdouble
      split at hdouble
      · split_ifs at hdouble with hadjacent
        exact hadjacent
      · contradiction
  · contradiction

theorem ne_equals_of_ofSign? (h : BinaryOp.ofSign? sign = some op) :
    sign ≠ .equals := by
  rintro rfl
  contradiction

/-- In an operator of two signs an equals sign stands behind a sign that compares. -/
theorem ofSigns?_equals {first second : Sign} (h : BinaryOp.ofSigns? first second = some op) :
    (first = .equals → second = .equals) ∧
      (second = .equals → first = .equals ∨ first = .less ∨ first = .greater ∨ first = .tilde ∨ first = .bang) := by
  unfold BinaryOp.ofSigns? at h
  split at h <;> first | contradiction | decide

theorem Passed.passOperator {target : Bool} {groups : List Group}
    (h : Passed s₀ target groups opened s) (hfits : target = true → opened ≠ []) {width : Nat}
    (hop : operatorAt s.current (s.ahead 1) = some (op, width)) :
    Passed s₀ target groups opened (advanceBy width s).2 := by
  obtain ⟨first, hfirst, ⟨rfl, hsign⟩ | ⟨rfl, second, hsecond, hsigns⟩⟩ := operatorAt_eq_some hop
  · have hne : s.current.kind ≠ .sign .equals := by
      rw [hfirst]
      exact fun heq => ne_equals_of_ofSign? hsign (Token.Kind.sign.inj heq)
    exact h.passSign hfirst (isNeutral_of_ofSign? hsign) hfits (State.assignsAt_of_ne hne)
  · have hadjacent := adjacent_of_operatorAt hop
    obtain ⟨hneutral, hneutral'⟩ := isNeutral_of_ofSigns? hsigns
    obtain ⟨hdouble, hcompares⟩ := ofSigns?_equals hsigns
    have hne : s.rest ≠ [] := h.rest_ne_nil (by rw [hfirst]; exact nofun)
    have hquiet : s.code.assignsAt s.pos = false := by
      by_cases hequals : first = .equals
      · have hnext : (s.ahead 1).is .equals = true := by
          rw [Token.is, hsecond, hdouble hequals]
          rfl
        rw [s.assignsAt_pos, assigns_eq, hnext, hadjacent]
        simp
      · apply State.assignsAt_of_ne
        rw [hfirst]
        exact fun heq => hequals (Token.Kind.sign.inj heq)
    have hcurrent : (Parser.advance s).2.current = s.ahead 1 := advance_current s
    have hquiet' : (Parser.advance s).2.code.assignsAt (Parser.advance s).2.pos = false := by
      by_cases hequals : second = .equals
      · have hbefore : comparesWith s.current = true := by
          unfold comparesWith Token.is
          rw [hfirst]
          obtain rfl | rfl | rfl | rfl | rfl := hcompares hequals <;> rfl
        rw [State.assignsAt_pos, assigns_eq, advance_previous hne, hcurrent, hbefore, hadjacent]
        simp
      · apply State.assignsAt_of_ne
        rw [hcurrent, hsecond]
        exact fun heq => hequals (Token.Kind.sign.inj heq)
    have hbetween := h.passSign hfirst hneutral hfits hquiet
    exact hbetween.passSign (hcurrent ▸ hsecond) hneutral' hfits hquiet'

/-- The search goes along with the parser. In the target of an assignment there are operators only inside
of brackets. -/
def passing (s₀ : State) (target : Bool) : Tracking where
  Context := List Group
  push group opened := group :: opened
  Fits _ opened := target = true → opened ≠ []
  Holds groups opened _ := Passed s₀ target groups opened
  InParams groups opened _ := Passed s₀ target groups (.paren :: opened)
  fits_push := fun _ => List.cons_ne_nil _ _
  groups_eq h := h.groups_eq
  regroup h := ⟨⟨h.code_eq, h.eof_kind, h.start_le, h.opened_eq, h.quiet, h.search⟩, rfl, h.last⟩
  uses h _ := h
  noteString h _ _ := ⟨⟨h.code_eq, h.eof_kind, h.start_le, h.opened_eq, h.quiet, h.search⟩, h.groups_eq, h.last⟩
  passName h hname := h.passName hname
  passRoot h hname := h.passName hname
  passField h hkind hname := (h.passPeriod hkind).passName hname
  pass h hfits hplain := h.passPlain hplain hfits
  passEquals h hkind := h.passEquals hkind
  openBracket h hkind hopen := h.openBracket hkind hopen
  closeBracket h hkind := h.closeBracket hkind
  openParams h hfits hkind hopen := (h.passPlain (by rw [hkind]; rfl) hfits).openBracket hopen rfl
  passParam h hparam := hparam.elim h.passName fun hkind =>
    h.passPlain (isPlain_of_isCommaOrNot hkind) fun _ => List.cons_ne_nil _ _
  closeParams h hkind := h.closeBracket hkind
  passEnd h hfits _ hkind := h.passKeyword hkind hfits
  passOperator h hfits hop := h.passOperator hfits hop

/-- No token is consumed yet. -/
theorem Passed.refl (s : State) (heof : s.code.eof.kind = .eof) : Passed s false s.groups [] s :=
  ⟨.refl s heof, rfl, nofun⟩

theorem rest_ne_nil_of_isName (heof : s.code.eof.kind = .eof) (hname : s.current.isName = true) :
    s.rest ≠ [] := by
  apply (Calm.refl s heof).rest_ne_nil
  intro hkind
  rw [Token.isName, hkind] at hname
  contradiction

/-- A target starts with a name. -/
theorem Passed.ofName (heof : s.code.eof.kind = .eof) (hname : s.current.isName = true) :
    Passed s true s.groups [] (Parser.advance s).2 := by
  have hfirst := (Passed.refl s heof).passName hname
  have hne := rest_ne_nil_of_isName heof hname
  refine ⟨hfirst.toCalm, hfirst.groups_eq, fun _ _ => ?_⟩
  rw [advance_previous hne]
  exact comparesWith_of_isName hname

theorem parseName_calm (gas : Nat) (heof : s.code.eof.kind = .eof) (hname : s.current.isName = true) :
    CleanRun True s (fun _ s' => Calm s [] s' ∧ comparesWith s'.previous = false)
      (parseName gas (parseExpression gas) s) := by
  have hsub := (passing s true).parseExpression gas
  refine .next (.pre (fun _ => Passed.ofName heof hname) ?_)
  exact (Tracking.parseNameFrom [] hsub gas gas _).mono fun _ s' _ (h : Passed s true s.groups [] s') =>
    ⟨h.toCalm, h.last rfl rfl⟩

theorem parseExpression_passes (gas : Nat) (heof : s.code.eof.kind = .eof) :
    CleanRun True s (fun _ s' => Passed s false s.groups [] s') (parseExpression gas 0 s) := by
  have hrun := (passing s false).parseExpression gas s.groups [] [] 0 s nofun
  exact .pre (fun _ => Passed.refl s heof) (hrun.mono fun _ _ _ h => h.1)

end Parser

end MatrixScript
