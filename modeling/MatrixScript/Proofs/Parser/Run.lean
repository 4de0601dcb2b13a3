import MatrixScript.Proofs.Parser.Total

/-! One run of a parser: what every step keeps, and what can be said of the values on the way. -/
namespace MatrixScript.Parser

/-- The parser has gone on over the same code. It has not gone back, and it takes back nothing of what
it has reported. -/
structure Extends (s s' : State) : Prop where
  code : s'.code = s.code
  pos_le : s.pos ≤ s'.pos
  diagnostics : s.diagnostics.toList <+: s'.diagnostics.toList
  faults : s.faults <:+ s'.faults

/-- From `s` the parser goes on to a value that satisfies `V`. -/
def Leads {α : Type} (s : State) (V : α → Prop) (x : α × State) : Prop :=
  Extends s x.2 ∧ V x.1

variable {s s' : State} {α β : Type} {V : α → Prop} {W : β → Prop}

theorem State.ahead_eq_token (s : State) (n : Nat) : s.ahead n = s.code.token (s.pos + n) := by
  rw [ahead, s.rest_eq, List.getElem?_drop, Code.token]

theorem State.current_eq_token (s : State) : s.current = s.code.token s.pos := by
  rw [s.current_eq_ahead, s.ahead_eq_token, Nat.add_zero]

theorem State.previous_eq_token (s : State) : s.previous = s.code.token (s.pos - 1) := by
  have hprevious := s.previous_eq
  have hle := s.pos_le
  unfold Code.token
  by_cases hlt : s.pos - 1 < s.code.tokens.length
  · rw [List.getElem?_append_left hlt] at hprevious
    rw [hprevious]
    rfl
  · have hlength : s.code.tokens.length = 0 := by omega
    have hnil := List.eq_nil_of_length_eq_zero hlength
    have hpos : s.pos = 0 := by omega
    rw [hnil, hpos] at hprevious
    rw [hnil]
    exact (Option.some.inj hprevious).symm

theorem State.getElem?_pos (s : State) (hne : s.rest ≠ []) : s.code.tokens[s.pos]? = some s.current := by
  obtain ⟨t, ts, hrest⟩ := List.exists_cons_of_ne_nil hne
  have hhead : (s.code.tokens.drop s.pos)[0]? = some t := by
    rw [← s.rest_eq, hrest]
    rfl
  rw [List.getElem?_drop, Nat.add_zero] at hhead
  rw [hhead, State.current, hrest]
  rfl

namespace Extends

theorem refl (s : State) : Extends s s :=
  ⟨rfl, Nat.le_refl _, List.prefix_rfl, List.suffix_rfl⟩

theorem trans {s₁ s₂ s₃ : State} (h : Extends s₁ s₂) (h' : Extends s₂ s₃) : Extends s₁ s₃ :=
  ⟨h'.code.trans h.code, Nat.le_trans h.pos_le h'.pos_le, h.diagnostics.trans h'.diagnostics,
    h.faults.trans h'.faults⟩

theorem skip (s : State) (n : Nat) (h : n ≤ s.rest.length) : Extends s (s.skip n h) :=
  ⟨rfl, Nat.le_add_right _ _, List.prefix_rfl, List.suffix_rfl⟩

theorem advance (s : State) : Extends s (Parser.advance s).2 := by
  by_cases hrest : s.rest = []
  · rw [advance_eq_self hrest]
    exact refl s
  · rw [advance_eq hrest]
    exact skip s 1 (List.length_pos_iff.mpr hrest)

theorem report (problem : Problem) (span : Span) (s : State) :
    Extends s (Parser.report problem span s).2 := by
  refine ⟨rfl, Nat.le_refl _, ?_, List.suffix_rfl⟩
  change s.diagnostics.toList <+: (s.diagnostics.push _).toList
  rw [Array.toList_push]
  exact List.prefix_append _ _

theorem fault (f : Fault) (s : State) : Extends s (Parser.fault f s).2 :=
  ⟨rfl, Nat.le_refl _, List.prefix_rfl, List.suffix_cons _ _⟩

theorem closeGroup (s : State) : Extends s (Parser.closeGroup s).2 := by
  cases hgroups : s.groups with
  | nil =>
    have heq : Parser.closeGroup s = Parser.fault .noOpenGroup s := by
      cases s
      subst hgroups
      rfl
    rw [heq]
    exact fault _ s
  | cons group groups =>
    rw [closeGroup_eq hgroups]
    exact ⟨rfl, Nat.le_refl _, List.prefix_rfl, List.suffix_rfl⟩

end Extends

namespace Leads

theorem pure {a : α} (h : V a) : Leads s V ((Pure.pure a : Parser α) s) :=
  ⟨.refl s, h⟩

theorem bind {p : Parser α} {f : α → Parser β} (hp : Leads s V (p s))
    (hf : ∀ a s', Extends s s' → V a → Leads s' W (f a s')) : Leads s W ((p >>= f) s) :=
  have hnext := hf _ _ hp.1 hp.2
  ⟨hp.1.trans hnext.1, hnext.2⟩

/-- Looking at the state changes nothing. -/
theorem read {p : Parser α} {f : α → Parser β} {a : α} (hp : p s = (a, s)) (h : Leads s W (f a s)) :
    Leads s W ((p >>= f) s) := by
  change Leads s W (f (p s).1 (p s).2)
  rwa [hp]

theorem ite {c : Prop} [Decidable c] {p q : Parser α} (yes : c → Leads s V (p s))
    (no : ¬c → Leads s V (q s)) : Leads s V ((if c then p else q) s) := by
  split_ifs with hc
  · exact yes hc
  · exact no hc

theorem advance (s : State) : Leads s (fun t => t = s.current) (Parser.advance s) :=
  ⟨.advance s, by rw [advance_fst, s.current_eq_ahead]⟩

theorem takeWord (s : State) : Leads s (fun t => t = s.current) (Parser.takeWord s) :=
  have hnoted := advance { s with words := s.pos :: s.words }
  ⟨⟨hnoted.1.code, hnoted.1.pos_le, hnoted.1.diagnostics, hnoted.1.faults⟩, hnoted.2⟩

theorem takeString (s : State) : Leads s (fun t => t = s.current) (Parser.takeString s) :=
  have hnoted := advance { s with strings := s.pos :: s.strings }
  ⟨⟨hnoted.1.code, hnoted.1.pos_le, hnoted.1.diagnostics, hnoted.1.faults⟩, hnoted.2⟩

theorem accepts (p : Token.Kind → Bool) (s : State) : Leads s (fun _ => True) (Parser.accept p s) := by
  rw [accept_eq]
  split_ifs
  · exact ⟨.advance s, trivial⟩
  · exact ⟨.refl s, trivial⟩

theorem skipUntil (p : Token.Kind → Bool) (s : State) :
    Leads s (fun _ => True) (Parser.skipUntil p s) :=
  ⟨.skip s _ (List.takeWhile_sublist _).length_le, trivial⟩

theorem report (problem : Problem) (span : Span) (s : State) :
    Leads s (fun _ => True) (Parser.report problem span s) :=
  ⟨.report problem span s, trivial⟩

theorem reportHere (problem : Problem) (s : State) :
    Leads s (fun _ => True) (Parser.reportHere problem s) :=
  report problem s.current.span s

theorem outOfGas {a : α} (h : V a) : Leads s V (Parser.outOfGas a s) :=
  ⟨.fault .outOfGas s, h⟩

theorem expectedExpression (after : Token) (s : State) :
    Leads s (fun _ => True) (Parser.expectedExpression after s) :=
  ite (fun _ => report _ after.span s) (fun _ => reportHere _ s)

theorem synchronize (s : State) : Leads s (fun _ => True) (Parser.synchronize s) :=
  have hskip := skipUntil (fun kind => endsStatement kind || closesBlock kind) { s with groups := [] }
  ⟨⟨hskip.1.code, hskip.1.pos_le, hskip.1.diagnostics, hskip.1.faults⟩, trivial⟩

theorem finishStatement (s : State) : Leads s (fun _ => True) (Parser.finishStatement s) := by
  refine bind (accepts _ s) fun _ s₁ _ _ => ite (fun _ => pure trivial) (fun _ => ?_)
  refine bind (accepts _ s₁) fun _ s₂ _ _ => ite (fun _ => pure trivial) (fun _ => ?_)
  refine ite (fun _ => pure trivial) (fun _ => read rfl ?_)
  refine bind (reportHere _ s₂) fun _ s₃ _ _ => bind (synchronize s₃) fun _ s₄ _ _ => ?_
  exact accepts _ s₄

/-- What is read inside brackets. -/
theorem inside {group : Group} {p : Parser α}
    (hp : Leads { s with groups := group :: s.groups } V (p { s with groups := group :: s.groups })) :
    Leads s V (Parser.inside group p s) := by
  have hclose := Extends.closeGroup (p { s with groups := group :: s.groups }).2
  have hall := hp.1.trans hclose
  exact ⟨⟨hall.code, hall.pos_le, hall.diagnostics, hall.faults⟩, hp.2⟩

end Leads

theorem State.current_mem_all (s : State) : s.current ∈ s.code.all := by
  rw [s.current_eq_ahead]
  exact s.ahead_mem_all 0

theorem advance_current (s : State) : (advance s).2.current = s.ahead 1 := by
  rw [State.current_eq_ahead]
  by_cases hrest : s.rest = []
  · rw [advance_eq_self hrest]
    simp [State.ahead, hrest]
  · rw [advance_eq hrest]
    simp [State.ahead, State.skip]

theorem State.previous_mem_all (s : State) : s.previous ∈ s.code.all :=
  List.mem_of_getElem? s.previous_eq

theorem kind_of_isWord {t : Token} {words : List Keyword} (h : t.isWord words = true) :
    ∃ word ∈ words, t.kind = .keyword word := by
  unfold Token.isWord at h
  split at h
  · exact ⟨_, by simpa using h, by assumption⟩
  · contradiction

theorem kind_of_isWord_singleton {t : Token} {word : Keyword} (h : t.isWord [word] = true) :
    t.kind = .keyword word := by
  obtain ⟨other, hmem, hkind⟩ := kind_of_isWord h
  rwa [List.mem_singleton.mp hmem] at hkind

end MatrixScript.Parser
