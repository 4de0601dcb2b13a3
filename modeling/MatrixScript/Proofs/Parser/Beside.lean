import MatrixScript.Parser.State
import MatrixScript.Proofs.Syntax.Down
import Mathlib.Data.List.TakeWhile

/-! Two runs of a parser beside each other.

The second run sees the code of the first one further down in its text, and possibly more code behind
it, from a newline on. As long as the first run does not ask for more than the class of its end token,
the second one does the same. Compared with itself, a run shows what it keeps. -/
namespace MatrixScript

/-- The tokens of code whose statements all end with their line. -/
def Token.Kind.isPlain : Token.Kind → Bool
  | .sign .openBracket | .sign .openBrace | .keyword _ => false
  | _ => true

namespace Parser

/-- How the second run differs: it is one over `code`, in which the text stands `lines` further down. It
has consumed `ahead` more tokens and reported `earlier` before, and `tail` follows. From the token at
`start` on, both have consumed the same ones. -/
structure Frame where
  code : Code
  lines : Nat
  ahead : Nat
  start : Nat
  earlier : Array Diagnostic
  tail : List Token

/-- What the second run sees in the place of a token: the end of the code may be a newline. -/
inductive Frame.Sees (F : Frame) (x y : Token) : Prop where
  | same (h : y = x.down F.lines)
  | newline (htail : F.tail ≠ []) (hx : x.kind = .eof) (hy : y.kind = .newline)
      (hstart : y.span.start = x.span.start.down F.lines)

/-- Two states at the same place of the same code. -/
structure Beside (F : Frame) (s t : State) : Prop where
  code : t.code = F.code
  rest : t.rest = s.rest.map (Token.down F.lines) ++ F.tail
  pos : t.pos = s.pos + F.ahead
  start_le : F.start ≤ s.pos
  previous : F.start < s.pos → t.previous = s.previous.down F.lines
  groups : t.groups = s.groups
  diagnostics : t.diagnostics = F.earlier ++ s.diagnostics.map (Diagnostic.down F.lines)
  faults : s.faults = [] ∧ t.faults = []
  eof_kind : s.code.eof.kind = .eof
  kind_ne : ∀ x ∈ s.rest, x.kind ≠ .eof
  plain : F.tail ≠ [] → ∀ x ∈ s.rest, x.kind.isPlain = true
  behind : (F.tail = [] ∧ F.code.eof = s.code.eof.down F.lines) ∨
    ∃ line more, F.tail = line :: more ∧ line.kind = .newline ∧
      line.span.start = s.code.eof.span.start.down F.lines

/-- The runs go on from `s` to states beside each other. The first one has not gone back, and the
brackets that are open are the same again. -/
structure Step (F : Frame) (s s' t' : State) : Prop where
  beside : Beside F s' t'
  code : s'.code = s.code
  pos_le : s.pos ≤ s'.pos
  groups : s'.groups = s.groups

/-- The outcome of both runs from `s` on: their values are in the relation `V`, which also gets the
place where the first run is then. -/
def Outcome {α β : Type} (F : Frame) (s : State) (V : α → β → Nat → Prop) (x : α × State)
    (y : β × State) : Prop :=
  Step F s x.2 y.2 ∧ V x.1 y.1 x.2.pos

/-- Two gases that are enough for the tokens left in both runs. -/
structure Enough (F : Frame) (s : State) (gas gas' : Nat) : Prop where
  lt : s.rest.length < gas
  lt' : s.rest.length + F.tail.length < gas'

variable {F : Frame} {s s' t t' : State} {α β γ δ : Type}

namespace Step

theorem refl (h : Beside F s t) : Step F s s t :=
  ⟨h, rfl, Nat.le_refl _, rfl⟩

theorem trans {s₁ s₂ s₃ t₂ t₃ : State} (h : Step F s₁ s₂ t₂) (h' : Step F s₂ s₃ t₃) :
    Step F s₁ s₃ t₃ :=
  ⟨h'.beside, h'.code.trans h.code, Nat.le_trans h.pos_le h'.pos_le, h'.groups.trans h.groups⟩

theorem left (h : Step F s s' t') : s'.pos + s'.rest.length = s.pos + s.rest.length := by
  have hle := h.code ▸ s'.pos_le
  have := s.pos_le
  rw [s.rest_eq, s'.rest_eq, h.code, List.length_drop, List.length_drop]
  omega

theorem rest_eq (h : Step F s s' t') (hpos : s'.pos = s.pos) : s'.rest = s.rest := by
  rw [s.rest_eq, s'.rest_eq, h.code, hpos]

theorem current_eq (h : Step F s s' t') (hpos : s'.pos = s.pos) : s'.current = s.current := by
  rw [State.current, State.current, h.rest_eq hpos, h.code]

end Step

namespace Enough

variable {gas gas' : Nat}

theorem step (h : Enough F s gas gas') (hs : Step F s s' t') : Enough F s' gas gas' := by
  have := hs.pos_le
  have := hs.left
  exact ⟨Nat.lt_of_le_of_lt (by omega) h.lt, Nat.lt_of_le_of_lt (by omega) h.lt'⟩

/-- Where a token was consumed, less gas will do. -/
theorem consume (h : Enough F s (gas + 1) (gas' + 1)) (hs : Step F s s' t') (hlt : s.pos < s'.pos) :
    Enough F s' gas gas' := by
  have := hs.left
  have := h.lt
  have := h.lt'
  exact ⟨by omega, by omega⟩

theorem succ (h : Enough F s gas gas') : Enough F s (gas + 1) (gas' + 1) :=
  ⟨Nat.lt_succ_of_lt h.lt, Nat.lt_succ_of_lt h.lt'⟩

theorem of_rest (h : Enough F s gas gas') (hrest : s'.rest = s.rest) : Enough F s' gas gas' :=
  ⟨hrest ▸ h.lt, hrest ▸ h.lt'⟩

/-- Gas that is enough is not used up. -/
theorem exists_succ (h : Enough F s gas gas') : ∃ g g', gas = g + 1 ∧ gas' = g' + 1 := by
  have := h.lt
  have := h.lt'
  exact ⟨gas - 1, gas' - 1, by omega, by omega⟩

end Enough

namespace Outcome

variable {V : α → β → Nat → Prop} {W : γ → δ → Nat → Prop}

theorem pure {a : α} {b : β} (h : Beside F s t) (hv : V a b s.pos) :
    Outcome F s V ((Pure.pure a : Parser α) s) ((Pure.pure b : Parser β) t) :=
  ⟨.refl h, hv⟩

theorem bind {p : Parser α} {q : Parser β} {f : α → Parser γ} {g : β → Parser δ}
    (hp : Outcome F s V (p s) (q t))
    (hf : ∀ a b s' t', Step F s s' t' → V a b s'.pos → Outcome F s' W (f a s') (g b t')) :
    Outcome F s W ((p >>= f) s) ((q >>= g) t) :=
  have hnext := hf _ _ _ _ hp.1 hp.2
  ⟨hp.1.trans hnext.1, hnext.2⟩

/-- Looking at the state changes nothing. -/
theorem read {p : Parser α} {q : Parser β} {f : α → Parser γ} {g : β → Parser δ} {a : α} {b : β}
    (hp : p s = (a, s)) (hq : q t = (b, t)) (h : Outcome F s W (f a s) (g b t)) :
    Outcome F s W ((p >>= f) s) ((q >>= g) t) := by
  change Outcome F s W (f (p s).1 (p s).2) (g (q t).1 (q t).2)
  rwa [hp, hq]

theorem map {p : Parser α} {q : Parser β} {f : α → γ} {g : β → δ} (hp : Outcome F s V (p s) (q t))
    (hv : ∀ a b n, V a b n → W (f a) (g b) n) : Outcome F s W ((f <$> p) s) ((g <$> q) t) :=
  ⟨hp.1, hv _ _ _ hp.2⟩

theorem step {x : α × State} {y : β × State} (hs : Step F s s' t') (h : Outcome F s' V x y) :
    Outcome F s V x y :=
  ⟨hs.trans h.1, h.2⟩

theorem mono {V' : α → β → Nat → Prop} {x : α × State} {y : β × State} (h : Outcome F s V x y)
    (hv : ∀ a b n, s.pos ≤ n → V a b n → V' a b n) : Outcome F s V' x y :=
  ⟨h.1, hv _ _ _ h.1.pos_le h.2⟩

theorem cond {b b' : Bool} {p p' : Parser α} {q q' : Parser β} (hb : b' = b)
    (yes : b = true → Outcome F s V (p s) (q t)) (no : b = false → Outcome F s V (p' s) (q' t)) :
    Outcome F s V ((if b = true then p else p') s) ((if b' = true then q else q') t) := by
  subst hb
  cases b' with
  | true => exact yes rfl
  | false => exact no rfl

theorem ite {c : Prop} [Decidable c] {p p' : Parser α} {q q' : Parser β}
    (yes : c → Outcome F s V (p s) (q t)) (no : ¬c → Outcome F s V (p' s) (q' t)) :
    Outcome F s V ((if c then p else p') s) ((if c then q else q') t) := by
  split_ifs with hc
  · exact yes hc
  · exact no hc

end Outcome

/-! What the two runs see. -/

namespace Frame.Sees

variable {x y : Token}

theorem eq_down (h : F.Sees x y) (htail : F.tail = []) : y = x.down F.lines := by
  cases h with
  | same h => exact h
  | newline hne => exact absurd htail hne

theorem eq_down_of_kind_ne (h : F.Sees x y) (hx : x.kind ≠ .eof) : y = x.down F.lines := by
  cases h with
  | same h => exact h
  | newline _ heof => exact absurd heof hx

/-- What does not tell the end of the code from a newline has the same answer. -/
theorem kind {α : Type} (h : F.Sees x y) (p : Token.Kind → α)
    (hp : F.tail = [] ∨ p .newline = p .eof) : p y.kind = p x.kind := by
  cases h with
  | same h => rw [h, Token.kind_down]
  | newline hne hx hy => rw [hx, hy, hp.resolve_left hne]

theorem is (h : F.Sees x y) (sign : Sign) : y.is sign = x.is sign :=
  h.kind (· == .sign sign) (.inr rfl)

theorem isName (h : F.Sees x y) : y.isName = x.isName :=
  h.kind Token.Kind.isName (.inr rfl)

theorem isWord (h : F.Sees x y) (words : List Keyword) : y.isWord words = x.isWord words := by
  cases h with
  | same h => rw [h, Token.isWord_down]
  | newline _ hx hy => simp [Token.isWord, hx, hy]

theorem adjacent (h : F.Sees x y) (before : Token) :
    (before.down F.lines).adjacent y = before.adjacent x := by
  cases h with
  | same h => rw [h, Token.adjacent_down]
  | newline _ _ _ hstart =>
    rw [Bool.eq_iff_iff]
    simp [Token.adjacent, hstart]

end Frame.Sees

theorem State.current_eq_ahead (s : State) : s.current = s.ahead 0 := by
  unfold current ahead
  cases s.rest <;> rfl

namespace Beside

theorem length (h : Beside F s t) : t.rest.length = s.rest.length + F.tail.length := by
  rw [h.rest, List.length_append, List.length_map]

theorem pos_beq (h : Beside F s t) (h' : Beside F s' t') :
    (t'.pos == t.pos) = (s'.pos == s.pos) := by
  rw [h.pos, h'.pos, Bool.eq_iff_iff, beq_iff_eq, beq_iff_eq, Nat.add_right_cancel_iff]

/-- Up to the end of the code the runs see the same. -/
theorem ahead (h : Beside F s t) {n : Nat} (hn : n ≤ s.rest.length) :
    F.Sees (s.ahead n) (t.ahead n) := by
  unfold State.ahead
  rw [h.rest]
  by_cases hlt : n < s.rest.length
  · refine .same ?_
    rw [List.getElem?_append_left (by simpa using hlt), List.getElem?_map,
      List.getElem?_eq_getElem hlt]
    rfl
  · obtain rfl : n = s.rest.length := by omega
    rw [List.getElem?_append_right (by simp), List.length_map, Nat.sub_self,
      List.getElem?_eq_none (Nat.le_refl _)]
    obtain ⟨htail, heof⟩ | ⟨line, more, htail, hkind, hstart⟩ := h.behind
    · rw [htail, h.code]
      exact .same heof
    · refine .newline (by simp [htail]) h.eof_kind ?_ ?_ <;> simpa [htail]

/-- Where no code follows, the runs see the same everywhere. -/
theorem ahead_eq (h : Beside F s t) (htail : F.tail = []) (n : Nat) :
    t.ahead n = (s.ahead n).down F.lines := by
  by_cases hn : n ≤ s.rest.length
  · exact (h.ahead hn).eq_down htail
  · have hn' : t.rest.length ≤ n := by rw [h.length, htail, List.length_nil]; omega
    unfold State.ahead
    rw [List.getElem?_eq_none hn', List.getElem?_eq_none (by omega), h.code]
    obtain ⟨_, heof⟩ | ⟨line, more, hne, _⟩ := h.behind
    · exact heof
    · rw [htail] at hne
      contradiction

/-- Behind the first token both runs have consumed the same one before. -/
theorem start_lt {s₁ s₂ t₂ : State} (h : Beside F s t) (hpos : s₁.pos = s.pos + 1)
    (h₂ : Step F s₁ s₂ t₂) : F.start < s₂.pos := by
  have hstart := h.start_le
  have hle := h₂.pos_le
  omega

theorem current (h : Beside F s t) : F.Sees s.current t.current := by
  rw [s.current_eq_ahead, t.current_eq_ahead]
  exact h.ahead (Nat.zero_le _)

/-- What is not the end of the code is in front of it. -/
theorem lt_of_kind_ne (h : Beside F s t) {n : Nat} (hn : (s.ahead n).kind ≠ .eof) :
    n < s.rest.length := by
  refine Nat.lt_of_not_le fun hle => hn ?_
  rw [State.ahead, List.getElem?_eq_none hle]
  exact h.eof_kind

theorem rest_ne_nil (h : Beside F s t) (hkind : s.current.kind ≠ .eof) : s.rest ≠ [] := by
  rw [s.current_eq_ahead] at hkind
  exact List.ne_nil_of_length_pos (h.lt_of_kind_ne hkind)

theorem current_kind_ne (h : Beside F s t) (hne : s.rest ≠ []) : s.current.kind ≠ .eof := by
  unfold State.current
  cases hr : s.rest with
  | nil => exact absurd hr hne
  | cons x xs => exact h.kind_ne x (by simp [hr])

theorem current_plain (h : Beside F s t) (htail : F.tail ≠ []) : s.current.kind.isPlain = true := by
  unfold State.current
  cases hr : s.rest with
  | nil => exact h.eof_kind ▸ rfl
  | cons x xs => exact h.plain htail x (by simp [hr])

/-- The first run starts at the beginning of its code. -/
theorem ofCode {code : Code} (hcode : t.code = F.code)
    (hrest : t.rest = code.tokens.map (Token.down F.lines) ++ F.tail) (hpos : t.pos = F.ahead)
    (hstart : F.start = 0) (hgroups : t.groups = []) (hdiagnostics : t.diagnostics = F.earlier)
    (hfaults : t.faults = []) (heof : code.eof.kind = .eof)
    (hkind : ∀ x ∈ code.tokens, x.kind ≠ .eof)
    (hplain : F.tail ≠ [] → ∀ x ∈ code.tokens, x.kind.isPlain = true)
    (hbehind : (F.tail = [] ∧ F.code.eof = code.eof.down F.lines) ∨
      ∃ line more, F.tail = line :: more ∧ line.kind = .newline ∧
        line.span.start = code.eof.span.start.down F.lines) : Beside F (.ofCode code) t where
  code := hcode
  rest := hrest
  pos := hpos.trans (Nat.zero_add _).symm
  start_le := Nat.le_of_eq hstart
  previous := fun h => absurd h (by rw [hstart]; exact Nat.lt_irrefl 0)
  groups := hgroups
  diagnostics := by simp [hdiagnostics, State.ofCode]
  faults := ⟨rfl, hfaults⟩
  eof_kind := heof
  kind_ne := hkind
  plain := hplain
  behind := hbehind

end Beside

/-! What the steps of the parser do to both runs. -/

namespace Beside

theorem skip (h : Beside F s t) {n : Nat} (hn : n ≤ s.rest.length) (hn' : n ≤ t.rest.length) :
    Step F s (s.skip n hn) (t.skip n hn') where
  beside :=
    { code := h.code
      rest := by
        simp only [State.skip]
        rw [h.rest, List.drop_append_of_le_length (by simpa using hn), List.map_drop]
      pos := by
        simp only [State.skip]
        rw [h.pos]
        omega
      start_le := Nat.le_trans h.start_le (Nat.le_add_right _ _)
      previous := by
        intro hlt
        simp only [State.skip] at hlt ⊢
        rw [h.rest, List.take_append_of_le_length (by simpa using hn), ← List.map_take,
          List.getLast?_map]
        cases hlast : (s.rest.take n).getLast? with
        | some x => rfl
        | none =>
          have hlen := congrArg List.length (List.getLast?_eq_none_iff.mp hlast)
          rw [List.length_take, List.length_nil] at hlen
          exact h.previous (by omega)
      groups := h.groups
      diagnostics := h.diagnostics
      faults := h.faults
      eof_kind := h.eof_kind
      kind_ne := fun x hx => h.kind_ne x (List.mem_of_mem_drop hx)
      plain := fun htail x hx => h.plain htail x (List.mem_of_mem_drop hx)
      behind := h.behind }
  code := rfl
  pos_le := Nat.le_add_right _ _
  groups := rfl

end Beside

theorem advance_eq (hne : s.rest ≠ []) :
    advance s = (s.current, s.skip 1 (List.length_pos_iff.mpr hne)) := by
  unfold advance State.current
  split
  · contradiction
  · rename_i x xs hr
    have hhead : s.rest.headD s.code.eof = x := by rw [hr]; rfl
    exact Prod.ext hhead.symm rfl

theorem advance_eq_self (hnil : s.rest = []) : advance s = (s.current, s) := by
  unfold advance State.current
  split
  · rw [hnil]
    rfl
  · simp_all

namespace Beside

/-- Both runs consume the same token. -/
theorem advance (h : Beside F s t) (hne : s.rest ≠ []) :
    Outcome F s (fun x y n => x = s.current ∧ y = x.down F.lines ∧ n = s.pos + 1)
      (Parser.advance s) (Parser.advance t) := by
  have hlen := h.length
  have hpos := List.length_pos_iff.mpr hne
  have hne' : t.rest ≠ [] := List.ne_nil_of_length_pos (by omega)
  rw [advance_eq hne, advance_eq hne']
  exact ⟨h.skip hpos (List.length_pos_iff.mpr hne'), rfl,
    h.current.eq_down_of_kind_ne (h.current_kind_ne hne), rfl⟩

theorem next {f : Token → Parser γ} {g : Token → Parser δ} {W : γ → δ → Nat → Prop} (h : Beside F s t)
    (hne : s.rest ≠ []) (hf : ∀ s' t', Step F s s' t' → s'.pos = s.pos + 1 →
      Outcome F s' W (f s.current s') (g (s.current.down F.lines) t')) :
    Outcome F s W ((Parser.advance >>= f) s) ((Parser.advance >>= g) t) := by
  refine Outcome.bind (h.advance hne) ?_
  rintro _ _ s' t' h' ⟨rfl, rfl, hpos⟩
  exact hf s' t' h' hpos

theorem takeWord (h : Beside F s t) (hne : s.rest ≠ []) :
    Outcome F s (fun x y n => x = s.current ∧ y = x.down F.lines ∧ n = s.pos + 1)
      (Parser.takeWord s) (Parser.takeWord t) := by
  have hnoted : Beside F { s with words := s.pos :: s.words } { t with words := t.pos :: t.words } :=
    { h with }
  have hstep := hnoted.advance hne
  exact ⟨⟨hstep.1.beside, hstep.1.code, hstep.1.pos_le, hstep.1.groups⟩, hstep.2⟩

theorem takeString (h : Beside F s t) (hne : s.rest ≠ []) :
    Outcome F s (fun x y n => x = s.current ∧ y = x.down F.lines ∧ n = s.pos + 1)
      (Parser.takeString s) (Parser.takeString t) := by
  have hnoted : Beside F { s with strings := s.pos :: s.strings }
      { t with strings := t.pos :: t.strings } := { h with }
  have hstep := hnoted.advance hne
  exact ⟨⟨hstep.1.beside, hstep.1.code, hstep.1.pos_le, hstep.1.groups⟩, hstep.2⟩

/-- At the end of all code nothing is consumed. -/
theorem advance_or_stay (h : Beside F s t) (htail : F.tail = []) :
    Outcome F s (fun x y _ => y = x.down F.lines) (Parser.advance s) (Parser.advance t) := by
  by_cases hne : s.rest = []
  · have hne' : t.rest = [] := by rw [h.rest, hne, htail]; rfl
    rw [advance_eq_self hne, advance_eq_self hne']
    exact ⟨.refl h, h.current.eq_down htail⟩
  · exact (h.advance hne).mono fun _ _ _ _ hv => hv.2.1

end Beside

theorem accept_eq (p : Token.Kind → Bool) (s : State) :
    accept p s = if p s.current.kind = true then (true, (advance s).2) else (false, s) := by
  change (if p s.current.kind = true then advance >>= fun _ => pure true else pure false) s = _
  split_ifs <;> rfl

theorem closeGroup_eq {group : Group} {groups : List Group} (h : s.groups = group :: groups) :
    closeGroup s = ((), { s with groups }) := by
  cases s
  subst h
  rfl

theorem State.skip_congr {n m : Nat} (h : n = m) (hn : n ≤ s.rest.length) (hm : m ≤ s.rest.length) :
    s.skip n hn = s.skip m hm := by
  subst h
  rfl

theorem State.skip_skip (s : State) {n m : Nat} (hn : n ≤ s.rest.length)
    (hm : m ≤ (s.skip n hn).rest.length) (h : n + m ≤ s.rest.length) :
    (s.skip n hn).skip m hm = s.skip (n + m) h := by
  have hprevious : ((s.rest.drop n).take m).getLast?.getD ((s.rest.take n).getLast?.getD s.previous) =
      (s.rest.take (n + m)).getLast?.getD s.previous := by
    rw [List.take_add, List.getLast?_append, Option.getD_or]
  simp only [skip, List.drop_drop, hprevious, Nat.add_assoc]

/-- What is skipped in two steps can be skipped in one. -/
theorem skipUntil_skip {p : Token.Kind → Bool} {s : State} {n : Nat} (hn : n ≤ s.rest.length)
    (h : ∀ x ∈ s.rest.take n, p x.kind = false) :
    skipUntil p (s.skip n hn) = skipUntil p s := by
  have htake : s.rest.takeWhile (fun x => !p x.kind) =
      s.rest.take n ++ (s.rest.drop n).takeWhile fun x => !p x.kind := by
    rw [← List.takeWhile_append_of_pos (by simpa using h), List.take_append_drop]
  have hlength : (s.rest.takeWhile fun x => !p x.kind).length =
      n + ((s.rest.drop n).takeWhile fun x => !p x.kind).length := by
    rw [htake, List.length_append, List.length_take, Nat.min_eq_left hn]
  have hle := hlength ▸ (List.takeWhile_sublist fun x : Token => !p x.kind).length_le
  unfold skipUntil
  rw [State.skip_congr hlength _ hle]
  exact Prod.ext rfl (s.skip_skip hn (List.takeWhile_sublist _).length_le hle)

theorem skipUntil_rest (p : Token.Kind → Bool) (s : State) :
    (skipUntil p s).2.rest = s.rest.dropWhile fun x => !p x.kind :=
  calc s.rest.drop (s.rest.takeWhile fun x => !p x.kind).length
      = ((s.rest.takeWhile fun x => !p x.kind) ++ s.rest.dropWhile fun x => !p x.kind).drop
          (s.rest.takeWhile fun x => !p x.kind).length := by rw [List.takeWhile_append_dropWhile]
    _ = s.rest.dropWhile fun x => !p x.kind := List.drop_left

namespace Beside

/-- Both runs accept a token, or both do not. -/
theorem accept {p : Token.Kind → Bool} {f : Bool → Parser γ} {g : Bool → Parser δ}
    {W : γ → δ → Nat → Prop} (h : Beside F s t) (heof : p .eof = false)
    (hline : F.tail = [] ∨ p .newline = false)
    (yes : ∀ s' t', Step F s s' t' → s'.pos = s.pos + 1 → p s.current.kind = true →
      Outcome F s' W (f true s') (g true t'))
    (no : p s.current.kind = false → Outcome F s W (f false s) (g false t)) :
    Outcome F s W ((Parser.accept p >>= f) s) ((Parser.accept p >>= g) t) := by
  have hkind : p t.current.kind = p s.current.kind :=
    h.current.kind p (hline.imp_right fun hl => hl.trans heof.symm)
  change Outcome F s W (f (Parser.accept p s).1 (Parser.accept p s).2)
    (g (Parser.accept p t).1 (Parser.accept p t).2)
  rw [accept_eq, accept_eq, hkind]
  split_ifs with hp
  · have hne : s.rest ≠ [] := by
      refine h.rest_ne_nil fun hk => ?_
      rw [hk, heof] at hp
      contradiction
    have hstep := h.advance hne
    exact (yes _ _ hstep.1 hstep.2.2.2 hp).step hstep.1
  · exact no (by simpa using hp)

theorem accepts {p : Token.Kind → Bool} (h : Beside F s t) (heof : p .eof = false)
    (hline : F.tail = [] ∨ p .newline = false) :
    Outcome F s (fun a b _ => a = b) (Parser.accept p s) (Parser.accept p t) :=
  h.accept (f := pure) (g := pure) heof hline (fun _ _ h₁ _ _ => Outcome.pure h₁.beside rfl)
    (fun _ => Outcome.pure h rfl)

/-- Both runs take the same branch. -/
theorem check {p : Token.Kind → Bool} {P Q : Parser γ} {P' Q' : Parser δ} {W : γ → δ → Nat → Prop}
    (h : Beside F s t) (hp : F.tail = [] ∨ p .newline = p .eof)
    (yes : p s.current.kind = true → Outcome F s W (P s) (P' t))
    (no : p s.current.kind = false → Outcome F s W (Q s) (Q' t)) :
    Outcome F s W ((Parser.check p >>= fun b => if b = true then P else Q) s)
      ((Parser.check p >>= fun b => if b = true then P' else Q') t) :=
  Outcome.cond (h.current.kind p hp) yes no

theorem skipUntil_of_takeWhile (h : Beside F s t) {p : Token.Kind → Bool}
    (htake : t.rest.takeWhile (fun x => !p x.kind) =
      (s.rest.takeWhile fun x => !p x.kind).map (Token.down F.lines)) :
    Step F s (Parser.skipUntil p s).2 (Parser.skipUntil p t).2 := by
  have hlength := congrArg List.length htake
  rw [List.length_map] at hlength
  have hle : (s.rest.takeWhile fun x => !p x.kind).length ≤ t.rest.length :=
    hlength ▸ (List.takeWhile_sublist _).length_le
  unfold Parser.skipUntil
  rw [State.skip_congr hlength _ hle]
  exact h.skip (List.takeWhile_sublist _).length_le hle

theorem takeWhile_map_down (p : Token.Kind → Bool) (n : Nat) (ts : List Token) :
    (ts.map (Token.down n)).takeWhile (fun x => !p x.kind) =
      (ts.takeWhile fun x => !p x.kind).map (Token.down n) :=
  List.takeWhile_map ..

/-- Both runs stop at the same token, or at the end of the code of the first. -/
theorem skipUntil (h : Beside F s t) {p : Token.Kind → Bool}
    (hline : F.tail = [] ∨ p .newline = true) :
    Step F s (Parser.skipUntil p s).2 (Parser.skipUntil p t).2 := by
  refine h.skipUntil_of_takeWhile ?_
  have hstop : F.tail.takeWhile (fun x => !p x.kind) = [] := by
    obtain ⟨htail, _⟩ | ⟨line, more, htail, hkind, _⟩ := h.behind
    · rw [htail]
      rfl
    · rw [htail, List.takeWhile_cons, hkind, hline.resolve_left (by simp [htail])]
      rfl
  rw [h.rest, List.takeWhile_append, hstop, List.append_nil, takeWhile_map_down]
  split_ifs with hall
  · rw [List.length_map, List.length_map] at hall
    rw [(List.takeWhile_prefix _).eq_of_length hall]
  · rfl

/-- Where the first run stops before the end of its code, the other one stops at the same token. -/
theorem skipUntil_of_rest_ne_nil (h : Beside F s t) {p : Token.Kind → Bool}
    (hne : (Parser.skipUntil p s).2.rest ≠ []) :
    Step F s (Parser.skipUntil p s).2 (Parser.skipUntil p t).2 := by
  refine h.skipUntil_of_takeWhile ?_
  have hlt : (s.rest.takeWhile fun x => !p x.kind).length ≠ s.rest.length := fun hall => by
    rw [skipUntil_rest] at hne
    have happend := congrArg List.length
      (List.takeWhile_append_dropWhile (p := fun x : Token => !p x.kind) (l := s.rest))
    rw [List.length_append] at happend
    exact hne (List.eq_nil_of_length_eq_zero (by omega))
  rw [h.rest, List.takeWhile_append, takeWhile_map_down, List.length_map, List.length_map, if_neg hlt]

theorem report (h : Beside F s t) (problem : Problem) {span span' : Span}
    (hspan : span' = span.down F.lines) :
    Outcome F s (fun _ _ n => n = s.pos) (Parser.report problem span s)
      (Parser.report problem span' t) := by
  refine ⟨⟨{ h with diagnostics := ?_ }, rfl, Nat.le_refl _, rfl⟩, rfl⟩
  change t.diagnostics.push (problem.toDiagnostic span') =
    F.earlier ++ (s.diagnostics.push (problem.toDiagnostic span)).map (Diagnostic.down F.lines)
  rw [h.diagnostics, hspan, Array.map_push, Array.append_push]
  rfl

theorem reportHere (h : Beside F s t) {problem problem' : Problem} (hproblem : problem' = problem)
    (hcurrent : t.current = s.current.down F.lines) :
    Outcome F s (fun _ _ n => n = s.pos) (Parser.reportHere problem s)
      (Parser.reportHere problem' t) :=
  hproblem ▸ h.report problem (congrArg Token.span hcurrent)

theorem expectSign (h : Beside F s t) (sign : Sign) (problem : Problem) (span : Span) :
    Outcome F s (fun _ _ _ => True) (Parser.expectSign sign problem span s)
      (Parser.expectSign sign problem (span.down F.lines) t) := by
  refine h.accept rfl (.inr rfl) (fun _ _ h₁ _ _ => Outcome.pure h₁.beside trivial) (fun _ => ?_)
  exact (h.report problem rfl).mono fun _ _ _ _ _ => trivial

theorem expectValue (h : Beside F s t) (value : Option Expr) (problem : Problem) (span : Span) :
    Outcome F s (fun _ _ n => n = s.pos) (Parser.expectValue value problem span s)
      (Parser.expectValue (value.map (Expr.down F.lines)) problem (span.down F.lines) t) := by
  refine Outcome.cond (by cases value <;> rfl) (fun _ => ?_) (fun _ => Outcome.pure h rfl)
  exact h.report problem rfl

/-- What is read inside brackets leaves them open, so that they can be closed. -/
theorem inside {V : α → β → Nat → Prop} {p : Parser α} {q : Parser β} (group : Group)
    (h : Beside F s t)
    (hp : ∀ s' t', Beside F s' t' → s'.pos = s.pos → s'.rest = s.rest → Outcome F s' V (p s') (q t')) :
    Outcome F s V (Parser.inside group p s) (Parser.inside group q t) := by
  have hopen : Beside F (openGroup group s).2 (openGroup group t).2 :=
    { h with groups := congrArg (group :: ·) h.groups }
  obtain ⟨hstep, hv⟩ := hp _ _ hopen rfl rfl
  have hs := closeGroup_eq hstep.groups
  have ht := closeGroup_eq (hstep.beside.groups.trans hstep.groups)
  change Outcome F s V ((p (openGroup group s).2).1, (closeGroup (p (openGroup group s).2).2).2)
    ((q (openGroup group t).2).1, (closeGroup (q (openGroup group t).2).2).2)
  rw [hs, ht]
  exact ⟨⟨{ hstep.beside with groups := rfl }, hstep.code, hstep.pos_le, rfl⟩, hv⟩

end Beside

end Parser

end MatrixScript
