import MatrixScript.Proofs.Parser.Following

/-! Precedence climbing over chains of operands and operators.

Main statement: the parser reads a chain as the one tree that groups its operators by precedence and to
the left, with every transpose on its atom and every prefix operator over the powers behind it. -/
namespace MatrixScript

namespace Chain

/-! The tokens of a chain. -/

inductive SpellsPrefix : PrefixOp → List Token → Prop
  | sign {t : Token} {sign : Sign} {op : PrefixOp} (hkind : t.kind = .sign sign)
      (hop : PrefixOp.ofSign? sign = some op) : SpellsPrefix op [t]

inductive SpellsTranspose : TransposeOp → List Token → Prop
  | conjugate {quote : Token} (hkind : quote.kind = .transpose) : SpellsTranspose .conjugate [quote]
  | plain {point quote : Token} (hpoint : point.kind = .sign .period) (hquote : quote.kind = .transpose)
      (hadjacent : point.adjacent quote = true) : SpellsTranspose .plain [point, quote]

/-- One sign between operands, or two of them without a blank in between. -/
inductive SpellsBinary : BinaryOp → List Token → Prop
  | single {t : Token} {sign : Sign} {op : BinaryOp} (hkind : t.kind = .sign sign)
      (hop : BinaryOp.ofSign? sign = some op) : SpellsBinary op [t]
  | double {t u : Token} {first second : Sign} {op : BinaryOp} (hfirst : t.kind = .sign first)
      (hsecond : u.kind = .sign second) (hadjacent : t.adjacent u = true)
      (hop : BinaryOp.ofSigns? first second = some op) : SpellsBinary op [t, u]

/-- An operator with the tokens that spell it. -/
structure Spelling {ω : Type} (Spells : ω → List Token → Prop) where
  op : ω
  tokens : List Token
  spells : Spells op tokens

/-- A number, or a name that stands alone. -/
structure Atom where
  token : Token
  isAtom : token.kind = .number ∨ token.kind = .identifier

structure Operand where
  signs : List (Spelling SpellsPrefix)
  atom : Atom
  transposes : List (Spelling SpellsTranspose)

/-- An operator with its right operand. -/
structure Link where
  operator : Spelling SpellsBinary
  operand : Operand

/-! What a chain reads as. -/

/-- The parts of a chain, one after another. -/
inductive Item where
  | sign (op : PrefixOp)
  | atom (e : Expr)
  | transpose (op : TransposeOp)
  | operator (op : BinaryOp)

/-- An operator between operands other than a power. -/
def Item.isWeak : Item → Bool
  | .operator op => op != .power && op != .elementPower
  | _ => false

def Atom.toExpr (a : Atom) : Expr :=
  if a.token.kind = .number then .number a.token.text a.token.span
  else .name ⟨a.token.text, [], a.token.span, none, false, false⟩

namespace Operand

def tokens (u : Operand) : List Token :=
  u.signs.flatMap Spelling.tokens ++ u.atom.token :: u.transposes.flatMap Spelling.tokens

def items (u : Operand) : List Item :=
  u.signs.map (fun x => .sign x.op) ++ .atom u.atom.toExpr :: u.transposes.map fun x => .transpose x.op

end Operand

namespace Link

def tokens (l : Link) : List Token := l.operator.tokens ++ l.operand.tokens

def items (l : Link) : List Item := .operator l.operator.op :: l.operand.items

def precedence (l : Link) : Nat := l.operator.op.precedence

end Link

end Chain

/-- Operands with operators between them. -/
structure Chain where
  first : Chain.Operand
  links : List Chain.Link

namespace Chain

def tokens (c : Chain) : List Token := c.first.tokens ++ c.links.flatMap Link.tokens

def items (c : Chain) : List Item := c.first.items ++ c.links.flatMap Link.items

end Chain

namespace Expr

open Chain

/-- The parts of an expression in order. -/
def reading : Expr → List Item
  | .binary op left right _ => left.reading ++ .operator op :: right.reading
  | .prefixed op operand _ => .sign op :: operand.reading
  | .transposed op operand _ => operand.reading ++ [.transpose op]
  | e => [.atom e]

/-- The operator between two operands that an expression is made of. -/
def operator? : Expr → Option BinaryOp
  | .binary op _ _ _ => some op
  | _ => none

/-- A number or name, or one with transposes. -/
def isTransposedAtom : Expr → Bool
  | .name _ | .number _ _ => true
  | .transposed _ operand _ => operand.isTransposedAtom
  | _ => false

/-- Every operator of the expression has the operands that it should have when `behind` follows. -/
def Grouped (behind : List Item) : Expr → Prop
  | .binary op left right _ =>
    left.Grouped (.operator op :: (right.reading ++ behind)) ∧ right.Grouped behind ∧
      (∀ other ∈ left.operator?, op.precedence ≤ other.precedence) ∧
      ∀ other ∈ right.operator?, op.precedence < other.precedence
  -- the operand is the longest run of operands behind the sign with only powers between them
  | .prefixed _ operand _ =>
    operand.Grouped behind ∧ operand.reading = (operand.reading ++ behind).takeWhile fun i => !i.isWeak
  | .transposed _ operand _ => operand.isTransposedAtom = true
  | _ => True

end Expr

namespace Chain

/-! Items. -/

theorem Item.isWeak_operator (op : BinaryOp) :
    (Item.operator op).isWeak = decide (op.precedence ≤ PrefixOp.precedence) := by
  cases op <;> decide

theorem Operand.isWeak_items (u : Operand) : ∀ i ∈ u.items, i.isWeak = false := by
  intro i hi
  rw [items, List.mem_append, List.mem_cons, List.mem_map, List.mem_map] at hi
  rcases hi with ⟨x, -, rfl⟩ | rfl | ⟨x, -, rfl⟩ <;> rfl

/-- Powers do not end a run of operands. -/
theorem isWeak_items {u : Operand} {links : List Link}
    (hlinks : ∀ l ∈ links, PrefixOp.precedence < l.precedence) :
    ∀ i ∈ (Chain.mk u links).items, i.isWeak = false := by
  intro i hi
  rw [items, List.mem_append, List.mem_flatMap] at hi
  rcases hi with hi | ⟨l, hl, hi⟩
  · exact u.isWeak_items i hi
  · rw [Link.items, List.mem_cons] at hi
    rcases hi with rfl | hi
    · rw [Item.isWeak_operator, decide_eq_false_iff_not]
      exact Nat.not_le_of_lt (hlinks l hl)
    · exact l.operand.isWeak_items i hi

/-- A run of powers ends before a weaker operator. -/
theorem takeWhile_items {run : List Item} (hrun : ∀ i ∈ run, i.isWeak = false) {links : List Link}
    (hlinks : ∀ l ∈ links.head?, l.precedence ≤ PrefixOp.precedence) :
    (run ++ links.flatMap Link.items).takeWhile (fun i => !i.isWeak) = run := by
  rw [List.takeWhile_append_of_pos (by simpa using hrun)]
  cases links with
  | nil => simp
  | cons l links =>
    have hweak : (Item.operator l.operator.op).isWeak = true := by
      rw [Item.isWeak_operator, decide_eq_true_iff]
      exact hlinks l rfl
    simp [Link.items, hweak]

/-! Operands. -/

theorem Atom.isTransposedAtom (a : Atom) : a.toExpr.isTransposedAtom = true := by
  unfold Atom.toExpr
  split_ifs <;> rfl

theorem Atom.reading (a : Atom) : a.toExpr.reading = [.atom a.toExpr] := by
  unfold Atom.toExpr
  split_ifs <;> rfl

theorem Spelling.transpose_length_pos (x : Spelling SpellsTranspose) : 0 < x.tokens.length := by
  obtain ⟨op, tokens, hspells⟩ := x
  cases hspells <;> exact Nat.zero_lt_succ _

theorem Spelling.binary_length_pos (x : Spelling SpellsBinary) : 0 < x.tokens.length := by
  obtain ⟨op, tokens, hspells⟩ := x
  cases hspells <;> exact Nat.zero_lt_succ _

/-- What an operand starts with does not go on with an operator before it. -/
theorem Operand.exists_head (u : Operand) : ∃ t ts, u.tokens = t :: ts ∧
    ∀ second, t.kind = .sign second → ∀ first, BinaryOp.ofSigns? first second = none := by
  obtain ⟨signs, atom, transposes⟩ := u
  cases signs with
  | nil =>
    refine ⟨_, _, rfl, fun second hsecond => ?_⟩
    rcases atom.isAtom with hkind | hkind <;> rw [hkind] at hsecond <;> contradiction
  | cons x signs =>
    obtain ⟨op, tokens, hspells⟩ := x
    cases hspells with
    | sign hkind hop =>
      refine ⟨_, _, rfl, fun second hsecond first => ?_⟩
      rw [hkind] at hsecond
      cases hsecond
      rename_i sign
      cases sign <;> first | contradiction | (cases first <;> rfl)

end Chain

namespace Parser

open Chain

/-! Tokens that are consumed. -/

/-- The parser has consumed these tokens and done nothing else. -/
structure Consumes (ts : List Token) (s s' : State) : Prop where
  rest_eq : s.rest = ts ++ s'.rest
  same : Same s s'
  words : s'.words = s.words

/-- These tokens are ahead, then the end of a statement, and no literal is open around them. -/
structure State.Before (s : State) (ts : List Token) : Prop where
  ends : ∃ behind, s.rest = ts ++ behind ∧
    (endsStatement (behind.headD s.code.eof).kind || closesBlock (behind.headD s.code.eof).kind) = true
  outside : s.groups.head?.any Group.isMatrix = false

variable {s s' : State} {ts us : List Token} {t u : Token}

theorem Consumes.refl (s : State) : Consumes [] s s := ⟨rfl, .refl s, rfl⟩

theorem Consumes.trans {s'' : State} (h : Consumes ts s s') (h' : Consumes us s' s'') :
    Consumes (ts ++ us) s s'' := by
  refine ⟨?_, h.same.trans h'.same, h'.words.trans h.words⟩
  rw [h.rest_eq, h'.rest_eq, List.append_assoc]

theorem Consumes.length_eq (h : Consumes ts s s') : s.rest.length = ts.length + s'.rest.length := by
  rw [h.rest_eq, List.length_append]

theorem State.Before.after (h : s.Before (ts ++ us)) (hconsumes : Consumes ts s s') : s'.Before us := by
  obtain ⟨⟨behind, hrest, hends⟩, houtside⟩ := h
  refine ⟨⟨behind, ?_, ?_⟩, ?_⟩
  · have heq := hrest.symm.trans hconsumes.rest_eq
    rw [List.append_assoc, List.append_cancel_left_eq] at heq
    exact heq.symm
  · rwa [hconsumes.same.code]
  · rwa [hconsumes.same.groups]

theorem State.Before.behind (h : s.Before (t :: us)) (hconsumes : Consumes [t] s s') : s'.Before us :=
  State.Before.after (h : s.Before ([t] ++ us)) hconsumes

theorem State.Before.current_eq (h : s.Before (t :: ts)) : s.current = t := by
  obtain ⟨behind, hrest, -⟩ := h.ends
  rw [State.current, hrest]
  rfl

theorem State.Before.ahead_one (h : s.Before (t :: u :: ts)) : s.ahead 1 = u := by
  obtain ⟨behind, hrest, -⟩ := h.ends
  rw [State.ahead, hrest]
  rfl

theorem bind_of_eq {α β : Type} {p : Parser α} {f : α → Parser β} {a : α} (h : p s = (a, s')) :
    (p >>= f) s = f a s' := by
  rw [bind_apply, h]

theorem State.Before.advance (h : s.Before (t :: ts)) :
    ∃ s', Parser.advance s = (t, s') ∧ Consumes [t] s s' := by
  have hcurrent := h.current_eq
  obtain ⟨behind, hrest, -⟩ := h.ends
  have hne : s.rest ≠ [] := by simp [hrest]
  refine ⟨s.skip 1 (List.length_pos_iff.mpr hne), ?_, ?_, ⟨rfl, rfl, rfl, rfl⟩, rfl⟩
  · rw [advance_eq hne, hcurrent]
  · simp [State.skip, hrest]

theorem State.Before.advanceBy (h : s.Before (ts ++ us)) :
    ∃ s', Parser.advanceBy ts.length s = ((), s') ∧ Consumes ts s s' := by
  induction ts generalizing s with
  | nil => exact ⟨s, rfl, .refl s⟩
  | cons t ts ih =>
    obtain ⟨s₁, hadvance, hfirst⟩ := State.Before.advance h
    obtain ⟨s₂, hmore, hconsumes⟩ := ih (h.behind hfirst)
    exact ⟨s₂, (bind_of_eq hadvance).trans hmore, hfirst.trans hconsumes⟩

theorem State.Before.current_ends (h : s.Before []) :
    (endsStatement s.current.kind || closesBlock s.current.kind) = true := by
  obtain ⟨behind, hrest, hends⟩ := h.ends
  rw [State.current, hrest]
  exact hends

/-! Behind an operand. -/

/-- Behind an operand comes an operator or the end of the statement, and neither goes on with it. -/
theorem State.Before.endsOperand {links : List Link} (h : s.Before (links.flatMap Link.tokens)) :
    endsOperand s.current.kind (s.ahead 1).kind = true := by
  cases links with
  | nil =>
    have hends := h.current_ends
    cases hkind : s.current.kind with
    | newline | eof | keyword word => rfl
    | sign sign =>
      rw [hkind] at hends
      cases sign <;> first | rfl | contradiction
    | _ =>
      rw [hkind] at hends
      contradiction
  | cons l links =>
    rw [List.flatMap_cons, Link.tokens] at h
    obtain ⟨⟨op, tokens, hspells⟩, operand⟩ := l
    cases hspells with
    | single hkind hop =>
      rename_i sign
      rw [h.current_eq, hkind]
      cases sign <;> first | rfl | contradiction
    | double hfirst hsecond hadjacent hop =>
      rename_i first second
      have hname : argumentGroup? (.sign first) = none := by
        cases first <;> first | rfl | (cases second <;> contradiction)
      rw [h.current_eq, hfirst, h.ahead_one, hsecond]
      simp [Parser.endsOperand, endsName, hname, Token.Kind.isName]

/-- Behind an atom there may be transposes before that. -/
theorem State.Before.endsName {transposes : List (Spelling SpellsTranspose)} {links : List Link}
    (h : s.Before (transposes.flatMap Spelling.tokens ++ links.flatMap Link.tokens)) :
    endsName s.current.kind (s.ahead 1).kind = true := by
  cases transposes with
  | nil => exact endsName_of_endsOperand h.endsOperand
  | cons x transposes =>
    obtain ⟨op, tokens, hspells⟩ := x
    cases hspells with
    | conjugate hkind =>
      rw [h.current_eq, hkind]
      rfl
    | plain hpoint hquote hadjacent =>
      rw [h.current_eq, hpoint, h.ahead_one, hquote]
      rfl

section

variable {sub : SubParser} {n : Nat} {links : List Link}

theorem parsePrimary_atom (a : Atom) {transposes : List (Spelling SpellsTranspose)}
    (h : s.Before (a.token :: (transposes.flatMap Spelling.tokens ++ links.flatMap Link.tokens)))
    (gas : Nat) : ∃ s', parsePrimary (gas + 1) sub s = (some a.toExpr, s') ∧ Consumes [a.token] s s' := by
  obtain ⟨s', hadvance, hconsumes⟩ := h.advance
  have hends := (h.behind hconsumes).endsName
  refine ⟨s', ?_, hconsumes⟩
  rw [parsePrimary, current_bind, h.current_eq]
  rcases a.isAtom with hkind | hkind
  · have hatom : a.toExpr = .number a.token.text a.token.span := if_pos hkind
    rw [hatom, hkind]
    exact bind_of_eq hadvance
  · have hatom : a.toExpr = .name ⟨a.token.text, [], a.token.span, none, false, false⟩ :=
      if_neg (by rw [hkind]; decide)
    have hname : parseName (gas + 1) sub s =
        (⟨a.token.text, [], a.token.span, none, a.token.kind == .native, false⟩, s') :=
      (bind_of_eq hadvance).trans (parseNameFrom_stop hends _ gas _)
    rw [hkind] at hname
    rw [hatom, hkind]
    exact bind_of_eq hname

theorem parseTransposes_round (x : Spelling SpellsTranspose) (h : s.Before (x.tokens ++ ts)) (gas : Nat)
    (operand : Expr) : ∃ span s', parseTransposes (gas + 1) operand s =
      parseTransposes gas (.transposed x.op operand span) s' ∧ Consumes x.tokens s s' := by
  have hround : parseTransposes (gas + 1) operand s = (if s.current.kind == .transpose then do
      let _ ← advance
      parseTransposes gas (.transposed .conjugate operand (operand.span.merge s.current.span))
    else if isPlainTranspose s.current (s.ahead 1) then do
      let _ ← advance
      let _ ← advance
      parseTransposes gas (.transposed .plain operand (operand.span.merge (s.ahead 1).span))
    else pure operand : Parser Expr) s := rfl
  obtain ⟨op, tokens, hspells⟩ := x
  cases hspells with
  | conjugate hkind =>
    obtain ⟨s₁, hadvance, hconsumes⟩ := h.advance
    rw [if_pos (by rw [h.current_eq, hkind]; rfl), bind_of_eq hadvance] at hround
    exact ⟨_, s₁, hround, hconsumes⟩
  | plain hpoint hquote hadjacent =>
    rename_i point quote
    have hplain : isPlainTranspose point quote = true := by
      simp [isPlainTranspose, Token.is, hpoint, hquote, hadjacent]
    obtain ⟨s₁, hadvance₁, hfirst⟩ := h.advance
    obtain ⟨s₂, hadvance₂, hsecond⟩ := State.Before.advance (h.behind hfirst)
    rw [if_neg (by rw [h.current_eq, hpoint]; decide), h.current_eq, h.ahead_one, if_pos hplain,
      bind_of_eq hadvance₁, bind_of_eq hadvance₂] at hround
    exact ⟨_, s₂, hround, hfirst.trans hsecond⟩

/-- The transposes behind an operand are put on it, one after another. -/
theorem parseTransposes_chain (transposes : List (Spelling SpellsTranspose))
    (h : s.Before (transposes.flatMap Spelling.tokens ++ links.flatMap Link.tokens)) {gas : Nat}
    (hgas : s.rest.length < gas) {operand : Expr} (hatom : operand.isTransposedAtom = true) :
    ∃ e s', parseTransposes gas operand s = (e, s') ∧ Consumes (transposes.flatMap Spelling.tokens) s s' ∧
      e.isTransposedAtom = true ∧
      e.reading = operand.reading ++ transposes.map fun x => Item.transpose x.op := by
  induction transposes generalizing s gas operand with
  | nil =>
    obtain ⟨gas, rfl⟩ := Nat.exists_eq_succ_of_ne_zero (Nat.ne_of_gt (Nat.zero_lt_of_lt hgas))
    have hstop := parseTransposes_stop h.endsOperand gas operand
    exact ⟨operand, s, hstop, .refl s, hatom, (List.append_nil _).symm⟩
  | cons x transposes ih =>
    obtain ⟨gas, rfl⟩ := Nat.exists_eq_succ_of_ne_zero (Nat.ne_of_gt (Nat.zero_lt_of_lt hgas))
    rw [List.flatMap_cons, List.append_assoc] at h
    obtain ⟨span, s₁, hround, hfirst⟩ := parseTransposes_round x h gas operand
    have hgas₁ : s₁.rest.length < gas := by
      have hpos := x.transpose_length_pos
      have hlength := hfirst.length_eq
      omega
    have hatom₁ : (Expr.transposed x.op operand span).isTransposedAtom = true := hatom
    obtain ⟨e, s₂, hrun, hmore, hatom', hreading⟩ := ih (h.after hfirst) hgas₁ hatom₁
    refine ⟨e, s₂, hround.trans hrun, hfirst.trans hmore, hatom', ?_⟩
    rw [hreading, Expr.reading, List.append_assoc]
    rfl

end

/-! Trees. -/

/-- The operand `u` and the links `front` have become the expression `e`, and `back` is still to come. -/
structure Grown (least : Nat) (u : Operand) (front back : List Link) (e : Expr) : Prop where
  reading_eq : e.reading = (Chain.mk u front).items
  grouped : e.Grouped (back.flatMap Link.items)
  operator : ∀ op ∈ e.operator?, least < op.precedence ∧ ∀ l ∈ back.head?, l.precedence ≤ op.precedence
  front_lt : ∀ l ∈ front, min least PrefixOp.precedence < l.precedence

/-- The expression is complete: what comes next is not stronger than `least`. -/
structure Climbed (least : Nat) (u : Operand) (front back : List Link) (e : Expr) : Prop
    extends Grown least u front back e where
  back_le : ∀ l ∈ back.head?, l.precedence ≤ least

theorem Grown.ofAtom {e : Expr} (hatom : e.isTransposedAtom = true) {u : Operand}
    (hreading : e.reading = u.items) (least : Nat) (links : List Link) : Grown least u [] links e := by
  refine ⟨?_, ?_, ?_, by simp⟩
  · simp [hreading, Chain.items]
  · cases e with
    | name | number => trivial
    | transposed op operand span => exact hatom
    | _ => contradiction
  · cases e with
    | binary => contradiction
    | _ => simp [Expr.operator?]

/-- A sign before an operand, which goes over the powers behind it. -/
theorem Grown.ofSign (x : Spelling SpellsPrefix) {u : Operand} {front back : List Link} {operand : Expr}
    (h : Climbed PrefixOp.precedence u front back operand) (span : Span) (least : Nat) :
    Grown least { u with signs := x :: u.signs } front back (.prefixed x.op operand span) := by
  have hfront : ∀ l ∈ front, PrefixOp.precedence < l.precedence := by
    intro l hl
    simpa using h.front_lt l hl
  have hrun : ∀ i ∈ operand.reading, i.isWeak = false := by
    rw [h.reading_eq]
    exact isWeak_items hfront
  refine ⟨?_, ⟨h.grouped, (takeWhile_items hrun h.back_le).symm⟩, by simp [Expr.operator?], ?_⟩
  · rw [Expr.reading, h.reading_eq]
    rfl
  · intro l hl
    exact (min_le_right _ _).trans_lt (hfront l hl)

/-- An operator takes what was read as its left operand, and the stronger links behind it as its right
operand. -/
theorem Grown.link {least : Nat} {u : Operand} {front more back : List Link} {l : Link} {left right : Expr}
    (hleft : Grown least u front (l :: (more ++ back)) left) (hl : least < l.precedence)
    (hright : Climbed l.precedence l.operand more back right) (span : Span) :
    Grown least u (front ++ l :: more) back (.binary l.operator.op left right span) := by
  have hitems : (l :: (more ++ back)).flatMap Link.items =
      .operator l.operator.op :: (right.reading ++ back.flatMap Link.items) := by
    simp [hright.reading_eq, Chain.items, Link.items]
  refine ⟨?_, ⟨?_, hright.grouped, ?_, ?_⟩, ?_, ?_⟩
  · simp [Expr.reading, hleft.reading_eq, hright.reading_eq, Chain.items, Link.items]
  · rw [← hitems]
    exact hleft.grouped
  · intro other hother
    exact (hleft.operator other hother).2 l rfl
  · intro other hother
    exact (hright.operator other hother).1
  · rintro op ⟨⟩
    exact ⟨hl, hright.back_le⟩
  · intro k hk
    have hmin : min least PrefixOp.precedence ≤ min l.precedence PrefixOp.precedence := by
      omega
    rw [List.mem_append, List.mem_cons] at hk
    rcases hk with hk | rfl | hk
    · exact hleft.front_lt k hk
    · exact (min_le_left _ _).trans_lt hl
    · exact hmin.trans_lt (hright.front_lt k hk)

/-! Operators. -/

theorem operatorAt_link (l : Link) (h : s.Before (l.tokens ++ ts)) :
    operatorAt s.current (s.ahead 1) = some (l.operator.op, l.operator.tokens.length) := by
  obtain ⟨⟨op, tokens, hspells⟩, operand⟩ := l
  cases hspells with
  | single hkind hop =>
    rename_i t sign
    obtain ⟨u, us, hoperand, hsecond⟩ := operand.exists_head
    rw [Link.tokens, hoperand] at h
    have hdouble : doubleOperatorAt sign t u = none := by
      unfold doubleOperatorAt
      split
      · split_ifs
        · exact hsecond _ (by assumption) _
        · rfl
      · rfl
    rw [h.current_eq, h.ahead_one, operatorAt, hkind]
    simp [hdouble, hop]
  | double hfirst hsecond hadjacent hop =>
    rw [h.current_eq, h.ahead_one, operatorAt, hfirst]
    simp [doubleOperatorAt, hsecond, hadjacent, hop]

theorem operatorAt_ends (h : s.Before []) : operatorAt s.current (s.ahead 1) = none := by
  have hends := h.current_ends
  cases hkind : s.current.kind with
  | sign sign =>
    apply operatorAt_of_isCloser
    rw [hkind] at hends ⊢
    cases sign <;> first | rfl | contradiction
  | _ => simp [operatorAt, hkind]

section

variable {sub : SubParser} {n : Nat}

/-- Chains of fewer than `n` tokens are read up to the first operator that is not stronger than the
bound. -/
def Climbs (p : SubParser) (n : Nat) : Prop :=
  ∀ {s : State} {u : Operand} {links : List Link} (least : Nat), s.Before (Chain.mk u links).tokens →
    s.rest.length < n → ∃ e s' front back, links = front ++ back ∧ p least s = (some e, s') ∧
      Consumes (Chain.mk u front).tokens s s' ∧ Climbed least u front back e

theorem parseUnary_chain (hsub : Climbs sub n) {u : Operand} {links : List Link}
    (h : s.Before (Chain.mk u links).tokens) (hlength : s.rest.length ≤ n) (least : Nat) :
    ∃ e s' front back, links = front ++ back ∧ parseUnary (n + 1) sub s = (some e, s') ∧
      Consumes (Chain.mk u front).tokens s s' ∧ Grown least u front back e := by
  obtain ⟨signs, atom, transposes⟩ := u
  rw [parseUnary, current_bind]
  cases signs with
  | nil =>
    have htokens : (Chain.mk ⟨[], atom, transposes⟩ links).tokens =
        atom.token :: (transposes.flatMap Spelling.tokens ++ links.flatMap Link.tokens) := rfl
    rw [htokens] at h
    have hprefix : prefixAt atom.token = none := by
      rcases atom.isAtom with hkind | hkind <;> rw [prefixAt, hkind]
    obtain ⟨s₁, hprimary, hatom⟩ : ∃ s', parsePrimary (n + 1) sub s = (some atom.toExpr, s') ∧
        Consumes [atom.token] s s' := parsePrimary_atom atom h n
    have hlength₁ := hatom.length_eq
    have hgas₁ : s₁.rest.length < n + 1 := by omega
    obtain ⟨e, s₂, htransposes, hmore, hisAtom, hreading⟩ :=
      parseTransposes_chain transposes (h.behind hatom) hgas₁ atom.isTransposedAtom
    refine ⟨e, s₂, [], links, rfl, ?_, ?_, .ofAtom hisAtom ?_ least links⟩
    · rw [h.current_eq, hprefix]
      exact (bind_of_eq hprimary).trans (bind_of_eq htransposes)
    · simpa [Chain.tokens, Operand.tokens] using hatom.trans hmore
    · simpa [Operand.items, atom.reading] using hreading
  | cons x signs =>
    obtain ⟨op, tokens, hspells⟩ := x
    cases hspells with
    | sign hkind hop =>
      rename_i t sign
      have htokens : (Chain.mk ⟨⟨op, [t], .sign hkind hop⟩ :: signs, atom, transposes⟩ links).tokens =
          t :: (Chain.mk ⟨signs, atom, transposes⟩ links).tokens := rfl
      rw [htokens] at h
      have hprefix : prefixAt t = some op := by
        rw [prefixAt, hkind]
        exact hop
      obtain ⟨s₁, hadvance, hfirst⟩ := h.advance
      have hlength₁ := hfirst.length_eq
      obtain ⟨operand, s₂, front, back, rfl, hrun, hmore, hclimbed⟩ :=
        hsub PrefixOp.precedence (h.behind hfirst) (by simp at hlength₁; omega)
      refine ⟨.prefixed op operand (t.span.merge operand.span), s₂, front, back, rfl, ?_, hfirst.trans hmore,
        .ofSign ⟨op, [t], .sign hkind hop⟩ hclimbed _ least⟩
      rw [h.current_eq, hprefix]
      exact (bind_of_eq hadvance).trans (bind_of_eq hrun)

/-- One round of the loop: the operator takes its right operand. -/
theorem parseOperators_round (hsub : Climbs sub n) {u : Operand} {front back : List Link} {l : Link}
    {least : Nat} (h : s.Before ((l :: back).flatMap Link.tokens)) (hlength : s.rest.length ≤ n)
    (hl : least < l.precedence) {left : Expr} (hleft : Grown least u front (l :: back) left) (gas : Nat) :
    ∃ e s' more behind, back = more ++ behind ∧
      parseOperators sub least (gas + 1) left s = parseOperators sub least gas e s' ∧
      Consumes ((l :: more).flatMap Link.tokens) s s' ∧ Grown least u (front ++ l :: more) behind e := by
  rw [List.flatMap_cons] at h
  have hpeek : peekOperator s = (some (l.operator.op, l.operator.tokens.length), s) :=
    congrArg (·, s) (operatorAt_link l h)
  have hseparator : atElementSeparator s = (false, s) := by
    change (s.groups.head?.any Group.isMatrix && (s.current.is .plus || s.current.is .minus) &&
      !s.previous.adjacent s.current && s.current.adjacent (s.ahead 1), s) = (false, s)
    rw [h.outside]
    rfl
  rw [Link.tokens, List.append_assoc] at h
  obtain ⟨s₁, hadvance, hoperator⟩ := h.advanceBy
  have hlength₁ := hoperator.length_eq
  have hpos := l.operator.binary_length_pos
  obtain ⟨right, s₂, more, behind, rfl, hrun, hright, hclimbed⟩ :=
    hsub l.precedence (u := l.operand) (h.after hoperator) (by omega)
  refine ⟨.binary l.operator.op left right (left.span.merge right.span), s₂, more, behind, rfl, ?_, ?_,
    hleft.link hl hclimbed _⟩
  · have hnot : ¬l.operator.op.precedence ≤ least := Nat.not_le_of_lt hl
    rw [parseOperators, bind_of_eq hpeek]
    dsimp only
    rw [if_neg hnot, bind_of_eq hseparator, if_neg Bool.false_ne_true, current_bind,
      bind_of_eq hadvance]
    exact bind_of_eq hrun
  · simpa [Chain.tokens, Link.tokens] using hoperator.trans hright

/-- One round of the loop after another: each operator that is stronger than `least` takes its right
operand. -/
theorem parseOperators_chain (hsub : Climbs sub n) {u : Operand} {front back : List Link} {least : Nat}
    (h : s.Before (back.flatMap Link.tokens)) (hlength : s.rest.length ≤ n) {gas : Nat}
    (hgas : s.rest.length < gas) {left : Expr} (hleft : Grown least u front back left) :
    ∃ e s' more behind, back = more ++ behind ∧ parseOperators sub least gas left s = (e, s') ∧
      Consumes (more.flatMap Link.tokens) s s' ∧ Climbed least u (front ++ more) behind e := by
  induction gas generalizing s front back left with
  | zero => contradiction
  | succ gas ih =>
    cases back with
    | nil =>
      have hstop : parseOperators sub least (gas + 1) left s = (left, s) :=
        parseOperators_stop (by simp [operatorAt_ends h]) gas left
      refine ⟨left, s, [], [], rfl, hstop, .refl s, ?_, by simp⟩
      rwa [List.append_nil]
    | cons l back =>
      have hoperator := operatorAt_link l h
      by_cases hl : l.precedence ≤ least
      · have hstop : parseOperators sub least (gas + 1) left s = (left, s) :=
          parseOperators_stop (by rw [hoperator]; rintro op width ⟨⟩; exact hl) gas left
        refine ⟨left, s, [], l :: back, rfl, hstop, .refl s, ?_, ?_⟩
        · rwa [List.append_nil]
        · rintro k ⟨⟩
          exact hl
      · obtain ⟨e₁, s₁, more, behind, rfl, hround, hfirst, hgrown⟩ :=
          parseOperators_round hsub h hlength (Nat.lt_of_not_le hl) hleft gas
        have hshorter : s₁.rest.length < s.rest.length := by
          have hpos := l.operator.binary_length_pos
          have hconsumed := hfirst.length_eq
          simp [Link.tokens] at hconsumed
          omega
        have hbefore : s₁.Before (behind.flatMap Link.tokens) := by
          rw [← List.cons_append, List.flatMap_append] at h
          exact h.after hfirst
        obtain ⟨e, s₂, others, rest, rfl, hrun, hmore, hclimbed⟩ :=
          ih hbefore (by omega) (by omega) hgrown
        refine ⟨e, s₂, l :: (more ++ others), rest, by simp, hround.trans hrun, ?_, ?_⟩
        · simpa using hfirst.trans hmore
        · simpa using hclimbed

end

theorem parseExpression_climbs (gas : Nat) : Climbs (parseExpression gas) gas := by
  induction gas with
  | zero =>
    intro s u links least _ hlength
    contradiction
  | succ gas ih =>
    intro s u links least h hlength
    have hle : s.rest.length ≤ gas := Nat.le_of_lt_succ hlength
    obtain ⟨left, s₁, front, back, rfl, hunary, hfirst, hgrown⟩ := parseUnary_chain ih h hle least
    have htokens : (Chain.mk u (front ++ back)).tokens =
        (Chain.mk u front).tokens ++ back.flatMap Link.tokens := by
      simp [Chain.tokens]
    rw [htokens] at h
    have hlength₁ := hfirst.length_eq
    have hgas₁ : s₁.rest.length < gas + 1 := by omega
    obtain ⟨e, s₂, more, behind, rfl, hrun, hmore, hclimbed⟩ :=
      parseOperators_chain ih (h.after hfirst) (by omega) hgas₁ hgrown
    refine ⟨e, s₂, front ++ more, behind, by simp, ?_, ?_, hclimbed⟩
    · exact (bind_of_eq hunary).trans (bind_of_eq hrun)
    · simpa [Chain.tokens] using hfirst.trans hmore

/-- A chain that the end of a statement follows, outside of literals, is consumed as a whole and
nothing is reported. The tree reads as the chain does, and its operators are grouped as they should be. -/
theorem chain_parsed (c : Chain) (s : State) (behind : List Token) (hrest : s.rest = c.tokens ++ behind)
    (hends : (endsStatement (behind.headD s.code.eof).kind ||
      closesBlock (behind.headD s.code.eof).kind) = true)
    (houtside : s.groups.head?.any Group.isMatrix = false) (gas : Nat) (hgas : s.rest.length < gas) :
    ∃ e, (parseExpression gas 0 s).1 = some e ∧ Consumes c.tokens s (parseExpression gas 0 s).2 ∧
      e.reading = c.items ∧ e.Grouped [] := by
  have hbefore : s.Before c.tokens := ⟨⟨behind, hrest, hends⟩, houtside⟩
  obtain ⟨e, s', front, back, hlinks, hrun, hconsumes, hclimbed⟩ :=
    parseExpression_climbs gas 0 hbefore hgas
  have hback : back = [] := by
    cases back with
    | nil => rfl
    | cons l back =>
      have hle := hclimbed.back_le l rfl
      have hpos := l.operator.op.precedence_pos
      exact absurd hpos (Nat.not_lt_of_le hle)
  subst hback
  have hfront : c = ⟨c.first, front⟩ := by
    rw [List.append_nil] at hlinks
    rw [← hlinks]
  rw [hrun, hfront]
  exact ⟨e, rfl, hconsumes, hclimbed.reading_eq, hclimbed.grouped⟩

/-- The chain `-a ^ -b' .^ 2 <= ~x`. -/
def signedPowers : Chain where
  first := ⟨[⟨.minus, [⟨.sign .minus, "-", ⟨⟨0, 0⟩, ⟨0, 1⟩⟩⟩], .sign rfl rfl⟩],
    ⟨⟨.identifier, "a", ⟨⟨0, 1⟩, ⟨0, 2⟩⟩⟩, .inr rfl⟩, []⟩
  links := [
    ⟨⟨.power, [⟨.sign .caret, "^", ⟨⟨0, 3⟩, ⟨0, 4⟩⟩⟩], .single rfl rfl⟩,
      ⟨[⟨.minus, [⟨.sign .minus, "-", ⟨⟨0, 5⟩, ⟨0, 6⟩⟩⟩], .sign rfl rfl⟩],
        ⟨⟨.identifier, "b", ⟨⟨0, 6⟩, ⟨0, 7⟩⟩⟩, .inr rfl⟩,
        [⟨.conjugate, [⟨.transpose, "'", ⟨⟨0, 7⟩, ⟨0, 8⟩⟩⟩], .conjugate rfl⟩]⟩⟩,
    ⟨⟨.elementPower, [⟨.sign .period, ".", ⟨⟨0, 9⟩, ⟨0, 10⟩⟩⟩, ⟨.sign .caret, "^", ⟨⟨0, 10⟩, ⟨0, 11⟩⟩⟩],
        .double rfl rfl rfl rfl⟩,
      ⟨[], ⟨⟨.number, "2", ⟨⟨0, 12⟩, ⟨0, 13⟩⟩⟩, .inl rfl⟩, []⟩⟩,
    ⟨⟨.lessEqual, [⟨.sign .less, "<", ⟨⟨0, 14⟩, ⟨0, 15⟩⟩⟩, ⟨.sign .equals, "=", ⟨⟨0, 15⟩, ⟨0, 16⟩⟩⟩],
        .double rfl rfl rfl rfl⟩,
      ⟨[⟨.tilde, [⟨.sign .tilde, "~", ⟨⟨0, 17⟩, ⟨0, 18⟩⟩⟩], .sign rfl rfl⟩],
        ⟨⟨.identifier, "x", ⟨⟨0, 18⟩, ⟨0, 19⟩⟩⟩, .inr rfl⟩, []⟩⟩]

/-- The chain and a semicolon are ahead. -/
def signedPowersState : State :=
  .ofCode ⟨signedPowers.tokens ++ [⟨.sign .semicolon, ";", ⟨⟨0, 19⟩, ⟨0, 20⟩⟩⟩],
    ⟨.eof, "", ⟨⟨0, 20⟩, ⟨0, 20⟩⟩⟩, []⟩

theorem chain_parsed_signedPowers :
    signedPowersState.rest = signedPowers.tokens ++ [⟨.sign .semicolon, ";", ⟨⟨0, 19⟩, ⟨0, 20⟩⟩⟩] ∧
    ∃ e, (parseExpression 15 0 signedPowersState).1 = some e ∧
      Consumes signedPowers.tokens signedPowersState (parseExpression 15 0 signedPowersState).2 ∧
      e.reading = signedPowers.items ∧ e.Grouped [] :=
  ⟨rfl, chain_parsed signedPowers signedPowersState _ rfl rfl rfl 15 (by decide)⟩

end Parser

end MatrixScript
