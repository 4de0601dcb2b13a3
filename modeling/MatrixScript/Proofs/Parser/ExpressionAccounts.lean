import MatrixScript.Proofs.Parser.Accounts
import MatrixScript.Proofs.Parser.Nested

/-! The names in expressions and headers without errors are all accounted for. -/
namespace MatrixScript

namespace Parser

variable {B : Position → Prop} {code : Code} {groups : List Group} {D : Nat → Prop}
  {os : List Occurrence} {s₀ s : State}

/-- The leading name of a use has the place of its token. -/
theorem Accounts.root (h : Accounts B code groups D os s₀ s) (hname : s.current.isName = true) :
    Accounts B code groups D (os ++ [⟨s.current.text, ⟨s.current.span.start,
      s.current.span.start.right s.current.text.length⟩, .use⟩]) s₀ (advance s).2 := by
  have hmem := List.mem_of_getElem? h.sound.getElem?_current
  rw [← h.sound.laid.name_stop _ hmem hname]
  exact h.name

/-- The parser is between the parameters of the anonymous function with this at sign. -/
structure ParamAccounts (B : Position → Prop) (code : Code) (groups : List Group) (D : Nat → Prop)
    (os : List Occurrence) (s₀ : State) (sign : Nat) (s : State) : Prop
    extends Accounts B code groups D os s₀ s where
  not_mem : sign ∉ s.words
  inParams : code.InParamsOf sign s.pos

theorem Accounts.openParams (h : Accounts B code groups D os s₀ s)
    (hsign : s.current.kind = .sign .atSign) (hopen : (advance s).2.current.kind = .sign .openParen) :
    ParamAccounts B code groups D os s₀ s.pos (advance (advance s).2).2 := by
  have hrest : s.rest ≠ [] := h.sound.rest_ne_nil (by rw [hsign]; exact nofun)
  have hrest' := h.sound.advance.rest_ne_nil (by rw [hopen]; exact nofun)
  have hpos : (advance (advance s).2).2.pos = s.pos + 2 := by rw [advance_pos hrest', advance_pos hrest]
  rw [advance_current, h.ahead_eq] at hopen
  refine ⟨(h.passSign hsign).passSign (by rw [advance_current, h.ahead_eq, hopen]), ?_, ?_⟩
  · rw [advance_words, advance_words]
    exact fun hmem => Nat.lt_irrefl _ (h.words_lt _ hmem)
  · rw [hpos]
    refine ⟨?_, beq_iff_eq.mpr hopen, Nat.le_refl _, fun k hk hlt => absurd hlt (Nat.not_lt.mpr hk)⟩
    rw [← h.current_eq]
    exact beq_iff_eq.mpr hsign

/-- A parameter does not occur at the place of its token. -/
theorem ParamAccounts.next {sign : Nat} (h : ParamAccounts B code groups D os s₀ sign s)
    (hkind : s.current.isName = true ∨ isCommaOrNot s.current.kind = true) :
    ParamAccounts B code groups D os s₀ sign (advance s).2 := by
  by_cases hrest : s.rest = []
  · rwa [advance_eq_self hrest]
  refine ⟨h.step fun _ => .param ⟨sign, h.not_mem, h.inParams⟩, ?_, ?_⟩
  · rw [advance_words]
    exact h.not_mem
  · rw [advance_pos hrest]
    refine ⟨h.inParams.atSign, h.inParams.openParen, Nat.le_succ_of_le h.inParams.le, fun k hk hlt => ?_⟩
    obtain rfl | hne := eq_or_ne k s.pos
    · rwa [← h.current_eq]
    · exact h.inParams.between k hk (by omega)

/-- A name is not empty. -/
theorem State.Sound.text_ne_empty (hs : s.Sound B code) (hname : s.current.isName = true) :
    s.current.text.isEmpty = false := by
  have hrest := hs.rest_ne_nil (Token.kind_ne_of_isName hname)
  have hmem : s.current ∈ code.tokens := by
    obtain ⟨t, ts, hcons⟩ := List.exists_cons_of_ne_nil hrest
    have hdrop : t ∈ code.tokens.drop s.pos := by
      rw [← hs.code_eq, ← s.rest_eq, hcons]
      exact List.mem_cons_self
    rw [State.current, hcons]
    exact List.mem_of_mem_drop hdrop
  by_contra hempty
  have hlength : s.current.text.length = 0 := by
    rw [show s.current.text = "" by simpa using hempty]
    rfl
  refine hs.laid.nonempty _ hmem ?_
  rw [hs.laid.name_stop _ (hs.code_eq ▸ s.current_mem_all) hname,
    (Position.right_eq_self_iff _ _).mpr hlength]
  exact Position.le_refl _

theorem isName_of_isPlain {kind : Token.Kind} (h : isPlain kind = true) : kind.isName = false := by
  unfold isPlain at h
  simp only [Bool.and_eq_true, Bool.not_eq_true'] at h
  exact h.1.2

/-- All names from `s₀` on are accounted for. -/
def accounting (B : Position → Prop) (code : Code) (D : Nat → Prop) (s₀ : State) : HeaderTracking where
  Context := Unit
  push _ _ := ()
  Fits _ _ := True
  Holds groups _ os := Accounts B code groups D os s₀
  InParams groups _ os s := ∃ sign, ParamAccounts B code groups D os s₀ sign s
  fits_push := trivial
  groups_eq h := h.groups_eq
  regroup h := ⟨h.sound.groups _, rfl, h.le, h.words_lt, h.commands, h.words_subset, h.words_new, h.names⟩
  uses h hos := h.uses hos
  noteString h hkind hclosed := h.noteString hkind hclosed
  passName h _ := h.name
  passRoot h hname := h.root hname
  passField h hkind _ := by
    refine (h.passSign hkind).step fun _ => .field ⟨_, advance_pos (h.sound.rest_ne_nil ?_), ?_⟩
    · rw [hkind]
      exact nofun
    · rw [← h.current_eq]
      exact beq_iff_eq.mpr hkind
  pass h _ hplain := h.pass (isName_of_isPlain hplain)
  passEquals h hkind := h.passSign hkind
  openBracket h hkind _ := h.passSign hkind
  closeBracket h hkind := h.passSign hkind
  openParams h _ hkind hopen := ⟨_, h.openParams hkind hopen⟩
  passParam := fun ⟨sign, h⟩ hparam => ⟨sign, h.next hparam⟩
  closeParams := fun ⟨_, h⟩ hkind => h.passSign hkind
  passEnd h _ _ hkind := h.passWord hkind
  passOperator h _ hop := by
    obtain ⟨first, hfirst, ⟨rfl, _⟩ | ⟨rfl, second, hsecond, _⟩⟩ := operatorAt_eq_some hop
    · exact h.passSign hfirst
    · rw [← advance_current] at hsecond
      exact (h.passSign hfirst).passSign hsecond
  fits_nil := trivial
  assign h hkind := h.passSign hkind
  passFunctionName h hname := by
    rw [h.sound.text_ne_empty hname]
    exact h.introduce

/-- All names up to the end of an expression are accounted for. Where there is no expression, no token is
taken. -/
def ExprAccounts (B : Position → Prop) (code : Code) (groups : List Group) (D : Nat → Prop)
    (os : List Occurrence) (s₀ s : State) (e : Option Expr) (s' : State) : Prop :=
  Accounts B code groups D (os ++ optionalOccurrences e) s₀ s' ∧ (e = none → s'.pos = s.pos)

/-- The names in an expression without errors are all accounted for. -/
theorem parseExpression_accounts (gas least : Nat) (s : State) :
    CleanRun (Accounts B code groups D os s₀ s) s (ExprAccounts B code groups D os s₀ s)
      (parseExpression gas least s) :=
  (accounting B code D s₀).parseExpression gas groups () os least s trivial

theorem parseExpression_extends (gas least : Nat) (s : State) : Extends s (parseExpression gas least s).2 :=
  ((accounting (fun _ => True) s.code (fun _ => True) s).parseExpression gas [] () [] least s trivial).1

/-- The names that a part of a statement reads are accounted for. -/
theorem accounted {α : Type} {O : α → List Occurrence} {x : α × State}
    (h : CleanRun ((accounting B code D s₀).Holds groups () os s) s
      (fun a s' => (accounting B code D s₀).Holds groups () (O a) s') x) :
    CleanRun (Accounts B code groups D os s₀ s) s (fun a s' => Accounts B code groups D (O a) s₀ s') x :=
  h

end Parser

end MatrixScript
