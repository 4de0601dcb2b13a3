import MatrixScript.Proofs.Parser.Clean

/-! Steps of the parser that end before a later line that starts with a keyword.

Expressions, headers and statements of one line take no other steps: newlines are consumed only inside of
brackets, and there none is consumed that has a keyword behind it. -/
namespace MatrixScript

theorem Token.kind_ne_of_isName {t : Token} (h : t.isName = true) : t.kind ≠ .eof := by
  intro hkind
  rw [isName, hkind] at h
  contradiction

theorem Token.Kind.exists_keyword {kind : Kind} (h : kind.isKeyword = true) :
    ∃ word, kind = .keyword word := by
  cases kind with
  | keyword word => exact ⟨word, rfl⟩
  | _ => contradiction

/-- A keyword that has no other code before it on its line. -/
structure Code.OpensLine (code : Code) (place : Nat) : Prop where
  lt : place < code.tokens.length
  isKeyword : (code.token place).kind.isKeyword = true
  newline : ∀ before, place = before + 1 → (code.token before).kind = .newline

namespace Parser

/-- If the parser comes from before a line that opens with a keyword, it stays there. -/
def Halts (code : Code) (s s' : State) : Prop :=
  ∀ place, code.OpensLine place → s.pos < place → s'.pos < place

variable {code : Code} {s s' : State}

theorem Extends.current_eq (h : Extends s s') (hpos : s'.pos = s.pos) : s'.current = s.current := by
  rw [s'.current_eq_token, s.current_eq_token, h.code, hpos]

theorem State.exists_two_ahead (s : State) (h : s.pos + 1 < s.code.tokens.length) :
    ∃ t u more, s.rest = t :: u :: more := by
  have hlength : 1 < s.rest.length := by
    rw [s.rest_eq, List.length_drop]
    omega
  obtain ⟨t, ts, hrest⟩ := List.exists_cons_of_length_pos (Nat.lt_trans Nat.zero_lt_one hlength)
  rw [hrest, List.length_cons] at hlength
  obtain ⟨u, more, rfl⟩ := List.exists_cons_of_length_pos (Nat.lt_of_succ_lt_succ hlength)
  exact ⟨t, u, more, hrest⟩

theorem advance_pos (h : s.rest ≠ []) : (advance s).2.pos = s.pos + 1 := by
  rw [advance_eq h]
  rfl

theorem advance_pos_le (s : State) : (advance s).2.pos ≤ s.pos + 1 := by
  by_cases hrest : s.rest = []
  · rw [advance_eq_self hrest]
    exact Nat.le_succ _
  · rw [advance_pos hrest]

/-- A class on which `p` does not say what it says on newlines. -/
theorem kind_ne_newline_of {p : Token.Kind → Bool} {kind : Token.Kind} {b : Bool} (h : p kind = b)
    (hnewline : p .newline = !b) : kind ≠ .newline :=
  ne_of_apply_ne p (by rw [h, hnewline]; cases b <;> decide)

theorem kind_ne_newline_of_is {t : Token} {sign : Sign} (h : t.is sign = true) : t.kind ≠ .newline := by
  rw [beq_iff_eq.mp h]
  exact nofun

theorem kind_ne_newline_of_isName {t : Token} (h : t.isName = true) : t.kind ≠ .newline :=
  kind_ne_newline_of (p := Token.Kind.isName) h rfl

theorem kind_ne_newline_of_more {kind : Token.Kind} (h : isNewlineOrEnd kind = false) : kind ≠ .newline :=
  kind_ne_newline_of h rfl

theorem kind_ne_eof_of_more {kind : Token.Kind} (h : isNewlineOrEnd kind = false) : kind ≠ .eof := by
  rintro rfl
  contradiction

namespace Halts

theorem trans {s₁ s₂ s₃ : State} (h : Halts code s₁ s₂) (h' : Halts code s₂ s₃) : Halts code s₁ s₃ :=
  fun place hopens hlt => h' place hopens (h place hopens hlt)

/-- A step that consumes nothing. -/
theorem still (hpos : s'.pos = s.pos) : Halts code s s' :=
  fun _ _ hlt => hpos ▸ hlt

/-- The line opens behind a newline. -/
theorem advance (hcode : s.code = code) (hkind : s.current.kind ≠ .newline) :
    Halts code s (Parser.advance s).2 := by
  intro place hopens hlt
  have hne : place ≠ s.pos + 1 := by
    intro heq
    apply hkind
    rw [s.current_eq_token, hcode]
    exact hopens.newline s.pos heq
  have hle := advance_pos_le s
  omega

theorem skipUntil (hcode : s.code = code) {p : Token.Kind → Bool} (hp : p .newline = true) :
    Halts code s (Parser.skipUntil p s).2 := by
  intro place hopens hlt
  refine (skipUntil_keeps (I := fun s' => s'.code = code ∧ s'.pos < place) ?_ ⟨hcode, hlt⟩).2
  intro s' ⟨hcode, hlt⟩ hno
  refine ⟨(Extends.advance s').code.trans hcode, ?_⟩
  exact advance hcode (kind_ne_newline_of hno hp) place hopens hlt

/-- Inside a literal a newline is consumed if no keyword is behind it. -/
theorem advanceRow (hcode : s.code = code) (hend : (atMatrixEnd s).1 = false) :
    Halts code s (Parser.advance s).2 := by
  subst hcode
  by_cases hkind : s.current.kind = .newline
  swap
  · exact advance rfl hkind
  intro place hopens hlt
  have hnext : place ≠ s.pos + 1 := by
    rintro rfl
    obtain ⟨t, u, more, hrest⟩ := s.exists_two_ahead hopens.lt
    have hword : u.kind.isKeyword = true := by
      have hahead : s.ahead 1 = u := by rw [State.ahead, hrest]; rfl
      rw [← hahead, s.ahead_eq_token]
      exact hopens.isKeyword
    have hstays : (u.kind == .newline || u.is .semicolon) = false := by
      obtain ⟨word, hu⟩ := Token.Kind.exists_keyword hword
      rw [Token.is, hu]
      rfl
    have hcurrent : s.current = t := by rw [State.current, hrest]; rfl
    have hline : keywordOnNextLine s = true := by
      rw [keywordOnNextLine, hrest]
      simp [← hcurrent, hkind, hstays, hword]
    change (_ || keywordOnNextLine s) = false at hend
    rw [hline, Bool.or_true] at hend
    contradiction
  have hle := advance_pos_le s
  omega

end Halts

end Parser

end MatrixScript
