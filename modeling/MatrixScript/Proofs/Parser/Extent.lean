import MatrixScript.Proofs.Parser.Halting
import MatrixScript.Proofs.Syntax.Extent

/-! How far the parser has come, and the spans it has made on the way.

The places between tokens are kept abstract here: `B` holds at the ends of all tokens. What the parser
reads from one place to another lies between them. -/
namespace MatrixScript

/-- The tokens of the code stand behind each other, and only its end is empty. Names and periods stay on
their line. -/
structure Code.LaidOut (B : Position → Prop) (code : Code) : Prop where
  eof_kind : code.eof.kind = .eof
  kind_ne : ∀ t ∈ code.tokens, t.kind ≠ .eof
  eof_stop : code.eof.span.stop = code.eof.span.start
  ordered : code.all.Pairwise fun t u => t.span.stop ≤ u.span.start
  nonempty : ∀ t ∈ code.tokens, ¬t.span.stop ≤ t.span.start
  bounds : ∀ t ∈ code.all, B t.span.start ∧ B t.span.stop
  name_stop : ∀ t ∈ code.all, t.isName = true → t.span.stop = t.span.start.right t.text.length
  period_stop : ∀ t ∈ code.all, t.is .period = true → t.span.stop = t.span.start.right 1

namespace Code.LaidOut

variable {B : Position → Prop} {code : Code} {t u : Token} {i j : Nat}

theorem valid (h : code.LaidOut B) (ht : t ∈ code.all) : t.span.Valid B := by
  refine ⟨?_, (h.bounds t ht).1, (h.bounds t ht).2⟩
  rw [Code.all, List.mem_append, List.mem_singleton] at ht
  obtain ht | rfl := ht
  · exact (Position.le_total _ _).resolve_right (h.nonempty t ht)
  · rw [h.eof_stop]
    exact Position.le_refl _

theorem stop_le_start (h : code.LaidOut B) (hij : i < j) (hi : code.all[i]? = some t)
    (hj : code.all[j]? = some u) : t.span.stop ≤ u.span.start := by
  obtain ⟨hi', rfl⟩ := List.getElem?_eq_some_iff.mp hi
  obtain ⟨hj', rfl⟩ := List.getElem?_eq_some_iff.mp hj
  exact List.pairwise_iff_getElem.mp h.ordered i j hi' hj' hij

theorem start_le_start (h : code.LaidOut B) (hij : i ≤ j) (hi : code.all[i]? = some t)
    (hj : code.all[j]? = some u) : t.span.start ≤ u.span.start := by
  obtain rfl | hlt := Nat.eq_or_lt_of_le hij
  · obtain rfl := Option.some.inj (hi.symm.trans hj)
    exact Position.le_refl _
  · exact Position.le_trans (h.valid (List.mem_of_getElem? hi)).start_le (h.stop_le_start hlt hi hj)

theorem stop_le_stop (h : code.LaidOut B) (hij : i ≤ j) (hi : code.all[i]? = some t)
    (hj : code.all[j]? = some u) : t.span.stop ≤ u.span.stop := by
  obtain rfl | hlt := Nat.eq_or_lt_of_le hij
  · obtain rfl := Option.some.inj (hi.symm.trans hj)
    exact Position.le_refl _
  · exact Position.le_trans (h.stop_le_start hlt hi hj) (h.valid (List.mem_of_getElem? hj)).start_le

end Code.LaidOut

/-- A string is reported to be open at a place. -/
def ReportsOpen (ds : List Diagnostic) (span : Span) : Prop :=
  ∃ d ∈ ds, d.code = .unterminatedString ∧ d.span = span

theorem reportsOpen_push {ds : Array Diagnostic} {d : Diagnostic} {span : Span} :
    ReportsOpen (ds.push d).toList span ↔
      ReportsOpen ds.toList span ∨ d.code = .unterminatedString ∧ d.span = span := by
  simp only [ReportsOpen, Array.toList_push, List.mem_append, List.mem_singleton, or_and_right, exists_or,
    exists_eq_left]

namespace Problem

def isOpenString : Problem → Bool
  | .stringOpen => true
  | _ => false

theorem isOpenString_ofToken (token : Token) : (Problem.ofToken token).isOpenString = false := by
  unfold Problem.ofToken
  split <;> rfl

theorem code_ne_of_isOpenString {problem : Problem} (h : problem.isOpenString = false) :
    problem.code ≠ .unterminatedString := by
  cases problem with
  | stringOpen => contradiction
  | conditionMissing keyword | conditionInvalid keyword | blockOpen keyword =>
    cases keyword <;> exact nofun
  | extraComma kind | inMatrix kind => cases kind <;> exact nofun
  | _ => exact nofun

end Problem

namespace Parser

/-- The place where the current token starts. -/
def State.here (s : State) : Position := s.current.span.start

/-- Reported, unless the parser ran into a fault. -/
def State.Reports (s : State) (d : Diagnostic) : Prop := s.faults = [] → d ∈ s.diagnostics.toList

/-- A state over laid out code in which only problems with valid spans were reported. What is reported to be
open are the strings among those read that are not closed. -/
structure State.Sound (B : Position → Prop) (code : Code) (s : State) : Prop where
  laid : code.LaidOut B
  code_eq : s.code = code
  diagnostics : ∀ d ∈ s.diagnostics, d.span.Valid B ∧ ∃ problem : Problem, d.code = problem.code
  strings : ∀ place ∈ s.strings, (code.token place).kind = .string
  reports_iff : ∀ span, ReportsOpen s.diagnostics.toList span ↔
    ∃ place ∈ s.strings, isClosedString (code.token place).text = false ∧ (code.token place).span = span

theorem State.getElem?_current (s : State) : s.code.all[s.pos]? = some s.current := by
  rw [s.current_eq_ahead, ← s.getElem?_all 0, Nat.add_zero, Nat.min_eq_left s.pos_le]

theorem State.length_le_pos (s : State) (h : s.rest = []) : s.code.tokens.length ≤ s.pos := by
  rwa [s.rest_eq, List.drop_eq_nil_iff] at h

theorem advance_previous {s : State} (h : s.rest ≠ []) : (advance s).2.previous = s.current := by
  obtain ⟨t, ts, hrest⟩ := List.exists_cons_of_ne_nil h
  rw [advance_eq h]
  simp [State.skip, State.current, hrest]

theorem advance_diagnostics (s : State) : (advance s).2.diagnostics = s.diagnostics := by
  by_cases hrest : s.rest = []
  · rw [advance_eq_self hrest]
  · rw [advance_eq hrest]
    rfl

theorem advance_words (s : State) : (advance s).2.words = s.words := by
  by_cases hrest : s.rest = []
  · rw [advance_eq_self hrest]
  · rw [advance_eq hrest]
    rfl

theorem advance_strings (s : State) : (advance s).2.strings = s.strings := by
  by_cases hrest : s.rest = []
  · rw [advance_eq_self hrest]
  · rw [advance_eq hrest]
    rfl

theorem takeString_eq (s : State) :
    (takeString s).2 = { (advance s).2 with strings := s.pos :: s.strings } := by
  obtain ⟨code, pos, previous, rest, groups, diagnostics, faults, words, strings, _, _, _⟩ := s
  cases rest <;> rfl

theorem closeGroup_same (s : State) : (closeGroup s).2.diagnostics = s.diagnostics ∧
    (closeGroup s).2.strings = s.strings ∧ (closeGroup s).2.pos = s.pos := by
  obtain ⟨code, pos, previous, rest, groups, diagnostics, faults, words, strings, _, _, _⟩ := s
  cases groups <;> exact ⟨rfl, rfl, rfl⟩

variable {B : Position → Prop} {code : Code} {s s' : State} {α β : Type}

theorem Extends.reports (h : Extends s s') {d : Diagnostic} (hd : s.Reports d) : s'.Reports d := by
  intro hfaults
  refine h.diagnostics.subset (hd ?_)
  exact List.suffix_nil.mp (hfaults ▸ h.faults)

theorem report_reports (problem : Problem) (span : Span) (s : State) :
    (report problem span s).2.Reports (problem.toDiagnostic span) :=
  fun _ => Array.mem_toList_iff.mpr Array.mem_push_self

theorem kind_ne_of_sign {t : Token} {sign : Sign} (h : (t.kind == .sign sign) = true) : t.kind ≠ .eof := by
  simp [beq_iff_eq.mp h]

theorem kind_ne_of_isWord {t : Token} {words : List Keyword} (h : t.isWord words = true) :
    t.kind ≠ .eof := by
  obtain ⟨word, _, hkind⟩ := kind_of_isWord h
  simp [hkind]

namespace State.Sound

theorem ofCode (hlaid : code.LaidOut B) : (State.ofCode code).Sound B code :=
  ⟨hlaid, rfl, fun d hd => absurd hd (Array.not_mem_empty d), nofun, by simp [ReportsOpen, State.ofCode]⟩

section

variable (hs : s.Sound B code)
include hs

theorem current_mem : s.current ∈ code.all :=
  hs.code_eq ▸ s.current_mem_all

theorem current_standsIn (hname : s.current.isName = true) :
    Variable.StandsIn code.all ⟨s.current.text, s.current.span⟩ :=
  ⟨s.current, hs.current_mem, ⟨hname, rfl⟩, rfl⟩

theorem current_valid : s.current.span.Valid B :=
  hs.laid.valid hs.current_mem

theorem previous_valid : s.previous.span.Valid B :=
  hs.laid.valid (hs.code_eq ▸ s.previous_mem_all)

theorem getElem?_current : code.all[s.pos]? = some s.current :=
  hs.code_eq ▸ s.getElem?_current

theorem getElem?_previous : code.all[s.pos - 1]? = some s.previous :=
  hs.code_eq ▸ s.previous_eq

theorem current_eq : s.current = code.token s.pos := by
  rw [s.current_eq_token, hs.code_eq]

theorem previous_eq : s.previous = code.token (s.pos - 1) := by
  rw [s.previous_eq_token, hs.code_eq]

theorem rest_ne_nil (hkind : s.current.kind ≠ .eof) : s.rest ≠ [] := by
  intro hnil
  apply hkind
  rw [current, hnil, hs.code_eq]
  exact hs.laid.eof_kind

/-- Where nothing is reported and no string is read. -/
theorem of_same (hcode : s'.code = s.code) (hsame : s'.diagnostics = s.diagnostics)
    (hstrings : s'.strings = s.strings) : s'.Sound B code := by
  refine ⟨hs.laid, hcode.trans hs.code_eq, hsame ▸ hs.diagnostics, hstrings ▸ hs.strings, ?_⟩
  rw [hsame, hstrings]
  exact hs.reports_iff

theorem advance : (Parser.advance s).2.Sound B code :=
  hs.of_same (Extends.advance s).code (advance_diagnostics s) (advance_strings s)

theorem diagnostics_push (problem : Problem) {span : Span} (hspan : span.Valid B) :
    ∀ d ∈ s.diagnostics.push (problem.toDiagnostic span),
      d.span.Valid B ∧ ∃ problem : Problem, d.code = problem.code := by
  intro d hd
  obtain hd | rfl := Array.mem_push.mp hd
  · exact hs.diagnostics d hd
  · exact ⟨hspan, problem, rfl⟩

theorem report {problem : Problem} {span : Span} (hspan : span.Valid B)
    (hproblem : problem.isOpenString = false) : (Parser.report problem span s).2.Sound B code := by
  refine ⟨hs.laid, hs.code_eq, hs.diagnostics_push problem hspan, hs.strings, fun other => ?_⟩
  refine Iff.trans ?_ (hs.reports_iff other)
  change ReportsOpen (s.diagnostics.push _).toList other ↔ _
  rw [reportsOpen_push]
  exact or_iff_left fun hd => Problem.code_ne_of_isOpenString hproblem hd.1

/-- The place of a string is noted that needs no report. -/
theorem noteString (hkind : s.current.kind = .string)
    (hclosed : isClosedString s.current.text = true) :
    ({ s with strings := s.pos :: s.strings } : State).Sound B code := by
  rw [hs.current_eq] at hkind hclosed
  refine ⟨hs.laid, hs.code_eq, hs.diagnostics, List.forall_mem_cons.mpr ⟨hkind, hs.strings⟩, fun span => ?_⟩
  rw [List.exists_mem_cons_iff, ← hs.reports_iff, hclosed]
  simp

theorem takeString (hkind : s.current.kind = .string)
    (hclosed : isClosedString s.current.text = true) : (Parser.takeString s).2.Sound B code :=
  (hs.noteString hkind hclosed).advance

/-- An open string is read and reported. -/
theorem reportString (hkind : s.current.kind = .string)
    (hopen : isClosedString s.current.text = false) :
    (Parser.report .stringOpen s.current.span (Parser.takeString s).2).2.Sound B code := by
  have hpush := hs.advance.diagnostics_push .stringOpen hs.current_valid
  rw [hs.current_eq] at hkind hopen
  rw [takeString_eq]
  refine ⟨hs.laid, hs.advance.code_eq, hpush, List.forall_mem_cons.mpr ⟨hkind, hs.strings⟩, fun span => ?_⟩
  change ReportsOpen ((Parser.advance s).2.diagnostics.push _).toList span ↔ ∃ place ∈ s.pos :: s.strings, _
  rw [List.exists_mem_cons_iff, ← hs.reports_iff, hopen, reportsOpen_push, advance_diagnostics, hs.current_eq]
  simp [Problem.toDiagnostic, Problem.code, or_comm]

/-- The open brackets make no difference. -/
theorem groups (groups : List Group) : ({ s with groups } : State).Sound B code :=
  hs.of_same rfl rfl rfl

theorem here_le (h : Extends s s') : s.here ≤ s'.here :=
  hs.laid.start_le_start h.pos_le hs.getElem?_current
    (hs.code_eq ▸ h.code ▸ s'.getElem?_current)

/-- The current token stands before what follows it. -/
theorem current_between (h : Extends (Parser.advance s).2 s') :
    s.current.span.Between B s.here s'.here := by
  refine ⟨hs.current_valid, Position.le_refl _, Position.le_trans ?_ (hs.advance.here_le h)⟩
  by_cases hrest : s.rest = []
  · have hcurrent : s.current = code.eof := by rw [current, hrest, hs.code_eq]; rfl
    rw [advance_eq_self hrest, here, hcurrent, hs.laid.eof_stop]
    exact Position.le_refl _
  · refine hs.laid.stop_le_start ?_ hs.getElem?_current hs.advance.getElem?_current
    rw [advance_pos hrest]
    exact Nat.lt_succ_self _

theorem current_mem_tokens (hrest : s.rest ≠ []) : s.current ∈ code.tokens :=
  hs.code_eq ▸ List.mem_of_getElem? (s.getElem?_pos hrest)

theorem current_ended (hkind : s.current.kind ≠ .eof) (h : Extends (Parser.advance s).2 s') :
    s.current.span.Ended B code s.here s'.here :=
  ⟨hs.current_between h, s.current, hs.current_mem_tokens (hs.rest_ne_nil hkind), rfl⟩

/-- Only the end of the code takes no place. -/
theorem not_here_le (hrest : s.rest ≠ []) : ¬(Parser.advance s).2.here ≤ s.here := by
  intro hle
  exact hs.laid.nonempty _ (hs.current_mem_tokens hrest)
    (Position.le_trans (hs.current_between (.refl _)).le_hi hle)

theorem not_le_name (hname : s.current.isName = true) (h : Extends (Parser.advance s).2 s') :
    ¬s'.here ≤ s.current.span.start :=
  fun hle => hs.not_here_le (hs.rest_ne_nil (Token.kind_ne_of_isName hname))
    (Position.le_trans (hs.advance.here_le h) hle)

theorem previous_le_here (hpos : 0 < s.pos) : s.previous.span.stop ≤ s.here :=
  hs.laid.stop_le_start (Nat.sub_lt hpos Nat.zero_lt_one) hs.getElem?_previous hs.getElem?_current

theorem previous_le_previous (hs' : s'.Sound B code) (h : Extends s s') :
    s.previous.span.stop ≤ s'.previous.span.stop :=
  hs.laid.stop_le_stop (Nat.sub_le_sub_right h.pos_le 1) hs.getElem?_previous hs'.getElem?_previous

/-- A token that ends before the present one does not end behind the last one. -/
theorem covers {p : Position} (hp : code.Ends p) (hle : p ≤ s.here) : p ≤ s.previous.span.stop := by
  obtain ⟨t, ht, rfl⟩ := hp
  obtain ⟨i, hi, hget⟩ := List.getElem_of_mem ht
  have hall : code.all[i]? = some t := by
    rw [Code.all, List.getElem?_append_left hi, List.getElem?_eq_getElem hi, hget]
  by_cases hlt : i < s.pos
  · exact hs.laid.stop_le_stop (Nat.le_sub_one_of_lt hlt) hall hs.getElem?_previous
  · have hstart := hs.laid.start_le_start (Nat.not_lt.mp hlt) hs.getElem?_current hall
    exact absurd (Position.le_trans hle hstart) (hs.laid.nonempty t ht)

theorem previous_mem_tokens (hpos : 0 < s.pos) : s.previous ∈ code.tokens := by
  have hlt : s.pos - 1 < code.tokens.length :=
    Nat.lt_of_lt_of_le (Nat.sub_lt hpos Nat.zero_lt_one) (hs.code_eq ▸ s.pos_le)
  have hget := hs.getElem?_previous
  rw [Code.all, List.getElem?_append_left hlt] at hget
  exact List.mem_of_getElem? hget

/-- From a token that was consumed up to the last one. -/
theorem previous_whole (hrest : s.rest ≠ []) (h : Extends (Parser.advance s).2 s')
    (hs' : s'.Sound B code) : Span.Whole B code s.here s'.here ⟨s.here, s'.previous.span.stop⟩ := by
  have hpos : 0 < s'.pos := by
    have hle := h.pos_le
    rw [advance_pos hrest] at hle
    omega
  have hprevious := hs.advance.previous_le_previous hs' h
  rw [advance_previous hrest] at hprevious
  refine ⟨⟨⟨⟨?_, hs.current_valid.start, hs'.previous_valid.stop⟩, Position.le_refl _,
    hs'.previous_le_here hpos⟩, _, hs'.previous_mem_tokens hpos, rfl⟩, rfl, fun _ => hs'.covers⟩
  exact Position.le_trans hs.current_valid.start_le hprevious

end

end State.Sound

/-- From `s` the parser goes on soundly. The value that it finds stands in the relation `Q` to the state that
it reaches. Where `L` holds, it ends before any later line that opens with a keyword. -/
structure Reaches (L : Prop) (B : Position → Prop) (code : Code) (s : State) (Q : α → State → Prop)
    (x : α × State) : Prop where
  goes : Extends s x.2
  sound : x.2.Sound B code
  value : Q x.1 x.2
  halts : L → Halts code s x.2

namespace Reaches

variable {L : Prop} {Q : α → State → Prop} {R : β → State → Prop}

theorem pure {a : α} (hs : s.Sound B code) (h : Q a s) :
    Reaches L B code s Q ((Pure.pure a : Parser α) s) :=
  ⟨.refl s, hs, h, fun _ => .still rfl⟩

/-- Where it matters which run leads on. -/
theorem run {p : Parser α} {f : α → Parser β} (hp : Reaches L B code s Q (p s))
    (hf : ∀ a s', p s = (a, s') → Extends s s' → s'.Sound B code → Q a s' →
      Reaches L B code s' R (f a s')) : Reaches L B code s R ((p >>= f) s) :=
  have hnext := hf _ _ rfl hp.goes hp.sound hp.value
  ⟨hp.goes.trans hnext.goes, hnext.sound, hnext.value, fun hline => (hp.halts hline).trans (hnext.halts hline)⟩

theorem bind {p : Parser α} {f : α → Parser β} (hp : Reaches L B code s Q (p s))
    (hf : ∀ a s', Extends s s' → s'.Sound B code → Q a s' → Reaches L B code s' R (f a s')) :
    Reaches L B code s R ((p >>= f) s) :=
  hp.run fun a s' _ => hf a s'

/-- Looking at the state changes nothing. -/
theorem read {p : Parser α} {f : α → Parser β} {a : α} (hp : p s = (a, s))
    (h : Reaches L B code s R (f a s)) : Reaches L B code s R ((p >>= f) s) := by
  change Reaches L B code s R (f (p s).1 (p s).2)
  rwa [hp]

theorem map {p : Parser α} {f : α → β} (hp : Reaches L B code s Q (p s))
    (hQ : ∀ a s', Q a s' → R (f a) s') : Reaches L B code s R ((f <$> p) s) :=
  ⟨hp.goes, hp.sound, hQ _ _ hp.value, hp.halts⟩

theorem mono {Q' : α → State → Prop} {x : α × State} (h : Reaches L B code s Q x)
    (hQ : ∀ a s', Q a s' → Q' a s') : Reaches L B code s Q' x :=
  ⟨h.goes, h.sound, hQ _ _ h.value, h.halts⟩

theorem ite {c : Prop} [Decidable c] {p q : Parser α} (yes : c → Reaches L B code s Q (p s))
    (no : ¬c → Reaches L B code s Q (q s)) : Reaches L B code s Q ((if c then p else q) s) := by
  split_ifs with hc
  · exact yes hc
  · exact no hc

theorem code_eq {x : α × State} (h : Reaches L B code (advance s).2 Q x) : s.code = code :=
  ((h.goes.code.trans (Extends.advance s).code).symm.trans h.sound.code_eq)

theorem consume {f : Token → Parser β} (hhalts : L → Halts code s (advance s).2)
    (h : Reaches L B code (advance s).2 R (f s.current (advance s).2)) :
    Reaches L B code s R ((advance >>= f) s) := by
  have hfst : (advance s).1 = s.current := (Leads.advance s).2
  rw [← hfst] at h
  exact ⟨(Extends.advance s).trans h.goes, h.sound, h.value, fun hline => (hhalts hline).trans (h.halts hline)⟩

theorem next {f : Token → Parser β} (hkind : s.current.kind ≠ .newline)
    (h : Reaches L B code (advance s).2 R (f s.current (advance s).2)) :
    Reaches L B code s R ((advance >>= f) s) :=
  consume (fun _ => .advance h.code_eq hkind) h

/-- A token is consumed that may end the line. -/
theorem step {f : Token → Parser β} (h : Reaches False B code (advance s).2 R (f s.current (advance s).2)) :
    Reaches False B code s R ((advance >>= f) s) :=
  consume False.elim h

/-- A string is consumed. Whether it needs a report is seen later. -/
theorem nextString {f : Token → Parser β} (h : Reaches L B code s R (f s.current (Parser.takeString s).2)) :
    Reaches L B code s R ((Parser.takeString >>= f) s) := by
  rwa [← (Leads.takeString s).2] at h

theorem accepts {p : Token.Kind → Bool} (hp : p .newline = false) (hs : s.Sound B code) :
    Reaches L B code s (fun _ _ => True) (Parser.accept p s) := by
  rw [accept_eq]
  split_ifs with hyes
  · exact ⟨.advance s, hs.advance, trivial, fun _ => .advance hs.code_eq (kind_ne_newline_of hyes hp)⟩
  · exact ⟨.refl s, hs, trivial, fun _ => .still rfl⟩

/-- The end of a row inside a literal, where no keyword is on the next line. -/
theorem acceptsRow (hend : (atMatrixEnd s).1 = false) (hs : s.Sound B code) :
    Reaches L B code s (fun found s' => found = false → s'.current.kind ≠ .newline)
      (Parser.accept (fun kind => kind == .sign .semicolon || kind == .newline) s) := by
  rw [accept_eq]
  split_ifs with hyes
  · exact ⟨.advance s, hs.advance, nofun, fun _ => .advanceRow hs.code_eq hend⟩
  · refine ⟨.refl s, hs, fun _ hkind => hyes ?_, fun _ => .still rfl⟩
    rw [hkind]
    rfl

theorem skipUntil {p : Token.Kind → Bool} (hp : L → p .newline = true) (hs : s.Sound B code) :
    Reaches L B code s (fun _ _ => True) (Parser.skipUntil p s) :=
  ⟨(Leads.skipUntil p s).1, hs.of_same rfl rfl rfl, trivial, fun hline => .skipUntil hs.code_eq (hp hline)⟩

theorem synchronize (hs : s.Sound B code) : Reaches L B code s (fun _ _ => True) (Parser.synchronize s) := by
  have hskip : Reaches L B code { s with groups := [] } (fun _ _ => True) (Parser.skipUntil
    (fun kind => endsStatement kind || closesBlock kind) { s with groups := [] }) :=
    skipUntil (fun _ => rfl) (hs.groups [])
  exact ⟨(Leads.synchronize s).1, hskip.sound, trivial, hskip.halts⟩

theorem report (problem : Problem) {span : Span} (hs : s.Sound B code) (hspan : span.Valid B)
    (hproblem : problem.isOpenString = false) :
    Reaches L B code s (fun _ s' => s'.pos = s.pos) (Parser.report problem span s) :=
  ⟨.report problem span s, hs.report hspan hproblem, rfl, fun _ => .still rfl⟩

theorem reportHere (problem : Problem) (hs : s.Sound B code)
    (hproblem : problem.isOpenString = false) :
    Reaches L B code s (fun _ s' => s'.pos = s.pos) (Parser.reportHere problem s) :=
  report problem hs hs.current_valid hproblem

theorem outOfGas {a : α} (hs : s.Sound B code) (h : Q a (Parser.fault .outOfGas s).2) :
    Reaches L B code s Q (Parser.outOfGas a s) :=
  ⟨.fault .outOfGas s, hs.of_same rfl rfl rfl, h, fun _ => .still rfl⟩

theorem expectSign (sign : Sign) (problem : Problem) {span : Span} (hs : s.Sound B code)
    (hspan : span.Valid B) (hproblem : problem.isOpenString = false) :
    Reaches L B code s (fun _ _ => True) (Parser.expectSign sign problem span s) := by
  refine bind (accepts rfl hs) fun accepted s₁ _ hs₁ _ => ite (fun _ => ?_) (fun _ => pure hs₁ trivial)
  exact mono (report problem hs₁ hspan hproblem) fun _ _ _ => trivial

theorem expectValue (value : Option Expr) (problem : Problem) {span : Span} (hs : s.Sound B code)
    (hspan : span.Valid B) (hproblem : problem.isOpenString = false) :
    Reaches L B code s (fun _ _ => True) (Parser.expectValue value problem span s) :=
  ite (fun _ => mono (report problem hs hspan hproblem) fun _ _ _ => trivial) (fun _ => pure hs trivial)

/-- At the end of the code, a missing value is reported at the token before it. -/
theorem expectedExpression {after : Token} (hs : s.Sound B code) (hafter : after.span.Valid B) :
    Reaches L B code s (fun _ s' => s.current.kind = .eof →
      s'.Reports ((Problem.endsAfter after.text).toDiagnostic after.span)) (Parser.expectedExpression after s) := by
  refine ite (fun _ => ?_) (fun hends => ?_)
  · exact ⟨.report _ _ s, hs.report hafter rfl, fun _ => report_reports _ _ s, fun _ => .still rfl⟩
  · refine ⟨.report _ _ s, hs.report hs.current_valid rfl, fun hkind => absurd ?_ hends, fun _ => .still rfl⟩
    rw [hkind]
    rfl

theorem finishStatement (hs : s.Sound B code) :
    Reaches L B code s (fun _ _ => True) (Parser.finishStatement s) := by
  refine bind (accepts rfl hs) fun _ s₁ _ hs₁ _ => ite (fun _ => pure hs₁ trivial) (fun _ => ?_)
  refine bind (accepts rfl hs₁) fun _ s₂ _ hs₂ _ => ite (fun _ => pure hs₂ trivial) (fun _ => ?_)
  refine ite (fun _ => pure hs₂ trivial) (fun _ => read rfl ?_)
  refine bind (reportHere _ hs₂ (Problem.isOpenString_ofToken _)) fun _ s₃ _ hs₃ _ => ?_
  refine bind (synchronize hs₃) fun _ s₄ _ hs₄ _ => ?_
  exact accepts rfl hs₄

/-- What is read inside brackets, for a relation that more code does not break. -/
theorem inside {group : Group} {p : Parser α}
    (hQ : ∀ a s₁ s₂, Extends s₁ s₂ → s₁.Sound B code → Q a s₁ → Q a s₂)
    (hp : Reaches L B code { s with groups := group :: s.groups } Q
      (p { s with groups := group :: s.groups })) :
    Reaches L B code s Q (Parser.inside group p s) := by
  have hleads : Leads s (fun _ => True) (Parser.inside group p s) := .inside ⟨hp.goes, trivial⟩
  have hclose := Extends.closeGroup (p { s with groups := group :: s.groups }).2
  obtain ⟨hdiagnostics, hstrings, hpos⟩ := closeGroup_same (p { s with groups := group :: s.groups }).2
  refine ⟨hleads.1, hp.sound.of_same hclose.code hdiagnostics hstrings, hQ _ _ _ hclose hp.sound hp.value, ?_⟩
  exact fun hline => (hp.halts hline).trans (.still hpos)

end Reaches

end Parser

end MatrixScript
