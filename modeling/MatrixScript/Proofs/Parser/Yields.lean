import MatrixScript.Proofs.Parser.Run
import MatrixScript.Proofs.Token.Piece

/-! Runs of a parser over tokens that are known, piece by piece. -/
namespace MatrixScript

variable {ts : List Token} {ps : List Piece} {before : Option Token}

namespace Piece

/-- The class of the piece at a place; behind the last one comes the end token. -/
def kindAt (ps : List Piece) (n : Nat) : Token.Kind := (ps[n]?.map kind).getD .eof

theorem AllFit.weaken (h : AllFit before ps ts) : AllFit none ps ts := by
  cases ps with
  | nil => exact h
  | cons p ps =>
    obtain ⟨t, us, rfl, hfits, hmore⟩ := h
    exact ⟨t, us, rfl, ⟨hfits.kind_eq, hfits.text_eq, by simp, by simp⟩, hmore⟩

theorem AllFit.map_kind (h : AllFit before ps ts) : ts.map Token.kind = ps.map kind := by
  induction ps generalizing before ts with
  | nil =>
    obtain rfl : ts = [] := h
    rfl
  | cons p ps ih =>
    obtain ⟨t, us, rfl, hfits, hmore⟩ := h
    rw [List.map_cons, List.map_cons, hfits.kind_eq, ih hmore]

theorem AllFit.length_eq (h : AllFit before ps ts) : ts.length = ps.length := by
  simpa using congrArg List.length h.map_kind

theorem AllFit.getElem? (h : AllFit before ps ts) {n : Nat} {p : Piece} (hp : ps[n]? = some p) :
    ∃ t, ts[n]? = some t ∧ ∃ b, p.Fits b t ∧ ∀ m, n = m + 1 → b = ts[m]? := by
  induction ps generalizing before ts n with
  | nil => simp at hp
  | cons q ps ih =>
    obtain ⟨t, us, rfl, hfits, hmore⟩ := h
    cases n with
    | zero =>
      obtain rfl : q = p := by simpa using hp
      exact ⟨t, rfl, before, hfits, nofun⟩
    | succ n =>
      obtain ⟨u, hu, b, hb, hbefore⟩ := ih hmore (by simpa using hp)
      refine ⟨u, by simpa using hu, ?_⟩
      cases n with
      | zero =>
        cases ps with
        | nil => simp at hp
        | cons q ps =>
          obtain ⟨v, vs, rfl, hv, -⟩ := hmore
          obtain rfl : v = u := by simpa using hu
          obtain rfl : q = p := by simpa using hp
          exact ⟨some t, hv, by rintro m ⟨⟩; rfl⟩
      | succ n =>
        refine ⟨b, hb, ?_⟩
        rintro m ⟨⟩
        simpa using hbefore n rfl

end Piece

namespace Parser

open Piece

/-- The tokens ahead are these pieces. -/
structure State.Starts (s : State) (ps : List Piece) : Prop where
  eof_kind : s.code.eof.kind = .eof
  fits : AllFit none ps s.rest

/-- The tokens ahead are these pieces, and the first one stands to the token before as it says. -/
structure State.Sees (s : State) (ps : List Piece) : Prop where
  eof_kind : s.code.eof.kind = .eof
  fits : AllFit (some s.previous) ps s.rest

variable {s s' : State} {p q : Piece} {qs : List Piece}

theorem State.Sees.starts (h : s.Sees ps) : s.Starts ps :=
  ⟨h.eof_kind, h.fits.weaken⟩

theorem State.Sees.adjacent_previous (h : s.Sees (p :: ps)) :
    s.previous.adjacent s.current = p.glued := by
  obtain ⟨t, us, hrest, hfits, -⟩ := h.fits
  rw [State.current, hrest]
  exact hfits.adjacent_eq _ rfl

namespace State.Starts

theorem length_eq (h : s.Starts ps) : s.rest.length = ps.length := h.fits.length_eq

theorem kind_ahead (h : s.Starts ps) (n : Nat) : (s.ahead n).kind = kindAt ps n := by
  cases hp : ps[n]? with
  | none =>
    have hnone : s.rest[n]? = none := by
      rw [List.getElem?_eq_none_iff] at hp ⊢
      rwa [h.length_eq]
    rw [State.ahead, hnone, kindAt, hp]
    exact h.eof_kind
  | some p =>
    obtain ⟨t, ht, b, hfits, -⟩ := h.fits.getElem? hp
    rw [State.ahead, ht, kindAt, hp]
    exact hfits.kind_eq

theorem current_kind (h : s.Starts ps) : s.current.kind = kindAt ps 0 := by
  rw [s.current_eq_ahead]
  exact h.kind_ahead 0

theorem current_text (h : s.Starts (p :: ps)) : s.current.text = p.text := by
  obtain ⟨t, us, hrest, hfits, -⟩ := h.fits
  rw [State.current, hrest]
  exact hfits.text_eq

theorem adjacent_ahead (h : s.Starts ps) {n : Nat} (hq : ps[n + 1]? = some q) :
    (s.ahead n).adjacent (s.ahead (n + 1)) = q.glued := by
  obtain ⟨t, ht, b, hfits, hbefore⟩ := h.fits.getElem? hq
  have hn : n < s.rest.length := by
    have hlt := (List.getElem?_eq_some_iff.mp ht).1
    omega
  have hb := hbefore n rfl
  rw [List.getElem?_eq_getElem hn] at hb
  rw [State.ahead, State.ahead, ht, List.getElem?_eq_getElem hn]
  exact hfits.adjacent_eq _ hb

theorem adjacent (h : s.Starts (p :: q :: ps)) : s.current.adjacent (s.ahead 1) = q.glued := by
  rw [s.current_eq_ahead]
  exact h.adjacent_ahead rfl

theorem rest_ne_nil (h : s.Starts (p :: ps)) : s.rest ≠ [] := by
  obtain ⟨t, us, hrest, -⟩ := h.fits
  rw [hrest]
  exact List.cons_ne_nil _ _

end State.Starts

/-- The parser has changed nothing but its place. -/
structure Same (s s' : State) : Prop where
  code : s'.code = s.code
  groups : s'.groups = s.groups
  diagnostics : s'.diagnostics = s.diagnostics
  faults : s'.faults = s.faults

theorem Same.refl (s : State) : Same s s := ⟨rfl, rfl, rfl, rfl⟩

theorem Same.trans {s₁ s₂ s₃ : State} (h : Same s₁ s₂) (h' : Same s₂ s₃) : Same s₁ s₃ :=
  ⟨h'.code.trans h.code, h'.groups.trans h.groups, h'.diagnostics.trans h.diagnostics,
    h'.faults.trans h.faults⟩

theorem State.Starts.advance (h : s.Starts (p :: ps)) :
    (Parser.advance s).1 = s.current ∧ (Parser.advance s).2.Sees ps ∧ Same s (Parser.advance s).2 ∧
      (Parser.advance s).2.previous = s.current := by
  obtain ⟨t, us, hrest, -, hmore⟩ := h.fits
  have hcurrent : s.current = t := by rw [State.current, hrest]; rfl
  have hprevious : (s.skip 1 (List.length_pos_iff.mpr h.rest_ne_nil)).previous = t := by
    simp [State.skip, hrest]
  have hrest' : (s.skip 1 (List.length_pos_iff.mpr h.rest_ne_nil)).rest = us := by
    simp [State.skip, hrest]
  rw [advance_eq h.rest_ne_nil]
  refine ⟨rfl, ⟨h.eof_kind, ?_⟩, ⟨rfl, rfl, rfl, rfl⟩, hprevious.trans hcurrent.symm⟩
  rw [hprevious, hrest']
  exact hmore

/-- From `s` the parser comes to where the pieces `qs` are ahead, with a value that satisfies `Q`. It
reports nothing on the way. -/
structure Yields {α : Type} (s : State) (qs : List Piece) (Q : α → Prop) (x : α × State) : Prop where
  sees : x.2.Sees qs
  same : Same s x.2
  value : Q x.1

namespace Yields

variable {α β : Type} {Q : α → Prop} {R : β → Prop} {rs : List Piece}

theorem pure {a : α} (h : s.Sees qs) (ha : Q a) : Yields s qs Q ((Pure.pure a : Parser α) s) :=
  ⟨h, .refl s, ha⟩

theorem after {x : α × State} (hsame : Same s s') (h : Yields s' qs Q x) : Yields s qs Q x :=
  ⟨h.sees, hsame.trans h.same, h.value⟩

theorem bind {p : Parser α} {f : α → Parser β} (hp : Yields s qs Q (p s))
    (hf : ∀ a s', s'.Sees qs → Same s s' → Q a → Yields s' rs R (f a s')) :
    Yields s rs R ((p >>= f) s) :=
  .after hp.same (hf (p s).1 (p s).2 hp.sees hp.same hp.value)

theorem read {p : Parser α} {f : α → Parser β} {a : α} (hp : p s = (a, s))
    (h : Yields s rs R (f a s)) : Yields s rs R ((p >>= f) s) := by
  change Yields s rs R (f (p s).1 (p s).2)
  rwa [hp]

theorem mono {Q' : α → Prop} {x : α × State} (h : Yields s qs Q x) (hQ : ∀ a, Q a → Q' a) :
    Yields s qs Q' x :=
  ⟨h.sees, h.same, hQ _ h.value⟩

theorem map {p : Parser α} {f : α → β} (h : Yields s qs Q (p s)) (hQ : ∀ a, Q a → R (f a)) :
    Yields s qs R ((f <$> p) s) :=
  ⟨h.sees, h.same, hQ _ h.value⟩

theorem returns {p : Parser α} (h : Yields s qs Q (p s)) :
    Yields s qs Q ((p >>= Pure.pure) s) := by
  rwa [bind_pure]

theorem yes {c : Prop} [Decidable c] {p p' : Parser α} (hc : c) (h : Yields s qs Q (p s)) :
    Yields s qs Q ((if c then p else p') s) := by
  rwa [if_pos hc]

theorem no {c : Prop} [Decidable c] {p p' : Parser α} (hc : ¬c) (h : Yields s qs Q (p' s)) :
    Yields s qs Q ((if c then p else p') s) := by
  rwa [if_neg hc]

/-- The next piece is consumed. -/
theorem next {f : Token → Parser β} (h : s.Starts (p :: ps))
    (hf : ∀ s', s'.Sees ps → Same s s' → s'.previous = s.current → Yields s' rs R (f s.current s')) :
    Yields s rs R ((advance >>= f) s) := by
  obtain ⟨hfst, hsees, hsame, hprevious⟩ := h.advance
  refine .after hsame ?_
  change Yields _ rs R (f (advance s).1 (advance s).2)
  rw [hfst]
  exact hf _ hsees hsame hprevious

theorem nextString {f : Token → Parser β} (h : s.Starts (p :: ps))
    (hf : ∀ s', s'.Sees ps → Yields s' rs R (f s.current s')) :
    Yields s rs R ((takeString >>= f) s) := by
  have hnoted : State.Starts { s with strings := s.pos :: s.strings } (p :: ps) := ⟨h.eof_kind, h.fits⟩
  have hnext := next (f := f) hnoted fun s' hsees _ _ => hf s' hsees
  exact ⟨hnext.sees, ⟨hnext.same.code, hnext.same.groups, hnext.same.diagnostics, hnext.same.faults⟩,
    hnext.value⟩

theorem acceptYes {c : Token.Kind → Bool} {f : Bool → Parser β} (h : s.Starts (p :: ps))
    (hc : c p.kind = true)
    (hf : ∀ s', s'.Sees ps → Same s s' → Yields s' rs R (f true s')) :
    Yields s rs R ((accept c >>= f) s) := by
  obtain ⟨-, hsees, hsame, -⟩ := h.advance
  have hkind : c s.current.kind = true := by rwa [h.current_kind]
  change Yields s rs R (f (accept c s).1 (accept c s).2)
  rw [accept_eq, if_pos hkind]
  exact .after hsame (hf _ hsees hsame)

theorem acceptNo {c : Token.Kind → Bool} {f : Bool → Parser β} (h : s.Starts ps)
    (hc : c (kindAt ps 0) = false) (hf : Yields s rs R (f false s)) :
    Yields s rs R ((accept c >>= f) s) := by
  have hkind : ¬c s.current.kind = true := by rw [h.current_kind, hc]; decide
  change Yields s rs R (f (accept c s).1 (accept c s).2)
  rwa [accept_eq, if_neg hkind]

theorem expectSign {sign : Sign} {problem : Problem} {span : Span}
    (h : s.Starts (Piece.sign true sign :: ps)) :
    Yields s ps (fun _ => True) (Parser.expectSign sign problem span s) :=
  acceptYes h (beq_self_eq_true _) fun _ hsees _ => pure hsees trivial

theorem expectValue {value : Option Expr} {problem : Problem} {span : Span} (h : s.Sees ps)
    (hvalue : value.isSome = true) :
    Yields s ps (fun _ => True) (Parser.expectValue value problem span s) := by
  refine no ?_ (pure h trivial)
  cases value with
  | none => contradiction
  | some _ => exact nofun

/-- What is read inside a bracket of the parser. -/
theorem inside {group : Group} {p : Parser α}
    (h : Yields { s with groups := group :: s.groups } qs Q (p { s with groups := group :: s.groups })) :
    Yields s qs Q (Parser.inside group p s) := by
  have hgroups := h.same.groups
  have hclose := closeGroup_eq hgroups
  change Yields s qs Q ((p { s with groups := group :: s.groups }).1,
    (closeGroup (p { s with groups := group :: s.groups }).2).2)
  rw [hclose]
  exact ⟨⟨h.sees.eof_kind, h.sees.fits⟩, ⟨h.same.code, rfl, h.same.diagnostics, h.same.faults⟩, h.value⟩

end Yields

end Parser

end MatrixScript
