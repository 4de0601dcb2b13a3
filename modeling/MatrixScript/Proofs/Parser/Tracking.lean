import MatrixScript.Proofs.Parser.Clean
import MatrixScript.Proofs.Symbol.Occurrences

/-! What the parser of expressions keeps as long as it finds no error.

Main statement: a fact about the parser's state and the names used so far is kept by whole expressions if each
token keeps it, where it may depend on the brackets that are open. -/
namespace MatrixScript

theorem exprOccurrences_reverse_toList (e : Option Expr) (es : List Expr) :
    exprOccurrences (e.toList ++ es).reverse = exprOccurrences es.reverse ++ optionalOccurrences e := by
  cases e with
  | none => exact (List.append_nil _).symm
  | some e =>
    rw [Option.toList_some, List.singleton_append, List.reverse_cons, exprOccurrences_append,
      exprOccurrences_singleton]
    rfl

namespace Parser

/-- A token that is no name, opens and closes nothing and is no equals sign. -/
def isPlain (kind : Token.Kind) : Bool :=
  kind.isNeutral && !kind.isName && kind != .sign .equals

theorem isPlain_of_isCommaOrNot {kind : Token.Kind} (h : isCommaOrNot kind = true) : isPlain kind = true := by
  cases kind with
  | sign sign => cases sign <;> first | rfl | contradiction
  | _ => contradiction

/-- A fact about the parser that goes along with what is open in the tokens consumed so far, and with the
names `os` that are used in them. `groups` are the brackets that the parser itself has open. -/
structure Tracking where
  Context : Type
  push : Group → Context → Context
  /-- Where any token of an expression may follow, and not only a part of a name. -/
  Fits : List Group → Context → Prop
  Holds : List Group → Context → List Occurrence → State → Prop
  /-- Between the parameters of an anonymous function. -/
  InParams : List Group → Context → List Occurrence → State → Prop
  fits_push : ∀ {groups group c}, Fits groups (push group c)
  groups_eq : ∀ {groups c os s}, Holds groups c os s → s.groups = groups
  regroup : ∀ {groups groups' c os s}, Holds groups c os s → Holds groups' c os { s with groups := groups' }
  uses : ∀ {groups c os os' s}, Holds groups c os s → os ⊆ os' → Holds groups c os' s
  noteString : ∀ {groups c os s}, Holds groups c os s → s.current.kind = .string →
    isClosedString s.current.text = true → Holds groups c os { s with strings := s.pos :: s.strings }
  passName : ∀ {groups c os s}, Holds groups c os s → s.current.isName = true →
    Holds groups c (os ++ [⟨s.current.text, s.current.span, .use⟩]) (advance s).2
  passRoot : ∀ {groups c os s}, Holds groups c os s → s.current.isName = true →
    Holds groups c (os ++ [⟨s.current.text, ⟨s.current.span.start,
      s.current.span.start.right s.current.text.length⟩, .use⟩]) (advance s).2
  passField : ∀ {groups c os s}, Holds groups c os s → s.current.kind = .sign .period →
    (advance s).2.current.isName = true → Holds groups c os (advance (advance s).2).2
  pass : ∀ {groups c os s}, Holds groups c os s → Fits groups c → isPlain s.current.kind = true →
    Holds groups c os (advance s).2
  passEquals : ∀ {groups group c os s}, Holds groups (push group c) os s → s.current.kind = .sign .equals →
    Holds groups (push group c) os (advance s).2
  openBracket : ∀ {groups c os s sign group}, Holds groups c os s → s.current.kind = .sign sign →
    Group.ofOpening? sign = some group → Holds groups (push group c) os (advance s).2
  closeBracket : ∀ {groups group c os s}, Holds groups (push group c) os s →
    s.current.kind = .sign group.closing → Holds groups c os (advance s).2
  openParams : ∀ {groups c os s}, Holds groups c os s → Fits groups c → s.current.kind = .sign .atSign →
    (advance s).2.current.kind = .sign .openParen → InParams groups c os (advance (advance s).2).2
  passParam : ∀ {groups c os s}, InParams groups c os s →
    s.current.isName = true ∨ isCommaOrNot s.current.kind = true → InParams groups c os (advance s).2
  closeParams : ∀ {groups c os s}, InParams groups c os s → s.current.kind = .sign .closeParen →
    Holds groups c os (advance s).2
  passEnd : ∀ {groups c os s}, Holds groups c os s → Fits groups c → groups ≠ [] →
    s.current.kind = .keyword .endAny → Holds groups c os (advance s).2
  passOperator : ∀ {groups c os s op width}, Holds groups c os s → Fits groups c →
    operatorAt s.current (s.ahead 1) = some (op, width) → Holds groups c os (advanceBy width s).2

theorem severity_ofToken (t : Token) : (Problem.ofToken t).severity = .error := by
  unfold Problem.ofToken
  split <;> rfl

theorem ofOpening?_of_argumentGroup? {kind : Token.Kind} {group : Group}
    (h : argumentGroup? kind = some group) :
    ∃ sign, kind = .sign sign ∧ Group.ofOpening? sign = some group := by
  unfold argumentGroup? at h
  split at h
  · exact ⟨_, rfl, h⟩
  · exact ⟨_, rfl, h⟩
  · contradiction

/-- The leading name and the arguments so far. A field does not show here. -/
def rootOccurrences (use : NameUse Expr) : List Occurrence :=
  ⟨use.root, use.rootSpan, .use⟩ :: exprOccurrences (use.args.getD [])

theorem rootOccurrences_subset (use : NameUse Expr) : rootOccurrences use ⊆ useOccurrences use := by
  rw [useOccurrences_eq, rootOccurrences, NameUse.ownOccurrences, List.cons_append]
  exact List.cons_subset_cons _ (List.subset_append_right _ _)

namespace Tracking

variable (T : Tracking)

/-- The fact is kept by a run, and the names in its answer are used. -/
def Keeps {α : Type} (groups : List Group) (c : T.Context) (os : List Occurrence) (O : α → List Occurrence)
    (s : State) (x : α × State) : Prop :=
  CleanRun (T.Holds groups c os s) s (fun a s' => T.Holds groups c (os ++ O a) s') x

/-- The fact is kept behind an expression. Where there is no expression, no token is taken. -/
def Behind (groups : List Group) (c : T.Context) (os : List Occurrence) (s : State) (e : Option Expr)
    (s' : State) : Prop :=
  T.Holds groups c (os ++ optionalOccurrences e) s' ∧ (e = none → s'.pos = s.pos)

/-- The parser for the expressions inside others keeps the fact. -/
def Sub (sub : SubParser) : Prop :=
  ∀ (groups : List Group) (c : T.Context) (os : List Occurrence) (least : Nat) (s : State),
    T.Fits groups c → CleanRun (T.Holds groups c os s) s (T.Behind groups c os s) (sub least s)

variable {T} {groups : List Group} {c : T.Context} {os more : List Occurrence} {s : State} {sub : SubParser}

theorem Behind.some {s' : State} {e : Expr} (h : T.Holds groups c (os ++ e.occurrences) s') :
    T.Behind groups c os s (some e) s' :=
  ⟨h, nofun⟩

theorem passSign (h : T.Holds groups c os s) (hfits : T.Fits groups c) {sign : Sign}
    (hkind : s.current.kind = .sign sign) (hplain : isPlain (.sign sign) = true) :
    T.Holds groups c os (advance s).2 :=
  T.pass h hfits (hkind ▸ hplain)

theorem behind (h : T.Holds groups c os s) : T.Holds groups c (os ++ more) s :=
  T.uses h (List.subset_append_left _ _)

theorem usesBehind {more' : List Occurrence} (h : T.Holds groups c (os ++ more) s) (hmore : more ⊆ more') :
    T.Holds groups c (os ++ more') s :=
  T.uses h (List.append_subset.mpr
    ⟨List.subset_append_left _ _, List.subset_append_of_subset_right _ hmore⟩)

/-- What is read inside a bracket of the parser. -/
theorem insideAnd {α : Type} {c' : T.Context} {group : Group} {p : Parser α} {O : α → List Occurrence}
    {F : α → Prop} (hp : ∀ s', CleanRun (T.Holds (group :: groups) c os s') s'
      (fun a s'' => T.Holds (group :: groups) c' (O a) s'' ∧ F a) (p s')) :
    CleanRun (T.Holds groups c os s) s (fun a s' => T.Holds groups c' (O a) s' ∧ F a)
      (Parser.inside group p s) := by
  have hrun := hp { s with groups := group :: s.groups }
  have hleads : Leads s (fun _ => True) (Parser.inside group p s) := .inside ⟨hrun.1, trivial⟩
  refine ⟨hleads.1, fun hclean h => ?_⟩
  have hopened : T.Holds (group :: groups) c os { s with groups := group :: s.groups } := by
    rw [T.groups_eq h]
    exact T.regroup h
  have hbefore := (Extends.closeGroup (p { s with groups := group :: s.groups }).2).clean hclean
  obtain ⟨hholds, hF⟩ := hrun.2 hbefore hopened
  change T.Holds groups c' _ (closeGroup (p { s with groups := group :: s.groups }).2).2 ∧ _
  rw [closeGroup_eq (T.groups_eq hholds)]
  exact ⟨T.regroup hholds, hF⟩

theorem inside {α : Type} {c' : T.Context} {group : Group} {p : Parser α} {O : α → List Occurrence}
    (hp : ∀ s', CleanRun (T.Holds (group :: groups) c os s') s'
      (fun a s'' => T.Holds (group :: groups) c' (O a) s'') (p s')) :
    CleanRun (T.Holds groups c os s) s (fun a s' => T.Holds groups c' (O a) s') (Parser.inside group p s) :=
  (insideAnd fun s' => (hp s').mono fun _ _ _ h => ⟨h, trivial⟩).mono fun _ _ _ h => h.1

/-! Names and their arguments. -/

theorem parseNamedValue (hsub : T.Sub sub) {group : Group}
    (hnamed : isNamedValue s.current (s.ahead 1) (s.ahead 2) = true) :
    T.Keeps groups (T.push group c) os namedOccurrences s (parseNamedValue sub s) := by
  unfold isNamedValue at hnamed
  simp only [Bool.and_eq_true] at hnamed
  have hequals : (advance s).2.current.kind = .sign .equals := by
    rw [advance_current]
    exact beq_iff_eq.mp hnamed.1.2
  refine .next (.pre (fun h => T.passName h hnamed.1.1) ?_)
  refine .next (.pre (fun h => T.passEquals h hequals) ?_)
  refine .bind (hsub groups _ _ 0 _ T.fits_push) fun value s₂ => ?_
  refine .bind (.expectValue rfl _ s₂) fun _ s₃ => .pure ?_
  rintro ⟨h, -, rfl⟩
  rw [namedOccurrences_eq, List.append_cons]
  exact h.1

theorem parseArgument (hsub : T.Sub sub) (group : Group) (stop : Position) :
    T.Keeps groups (T.push group c) os (fun a => optionalOccurrences a.1) s
      (parseArgument sub group stop s) := by
  refine .read rfl (.read rfl (.read rfl (.ite (fun hnamed => ?_) (fun _ => ?_))))
  · exact .bind (parseNamedValue hsub hnamed) fun _ _ => .pure id
  · refine .read rfl (.bind (hsub groups _ os 0 s T.fits_push) fun arg s₁ => ?_)
    cases arg with
    | some arg => exact .pure fun h => h.1
    | none =>
      refine .read rfl (.ite (fun hmoved => ?_) (fun _ => .ite (fun _ => ?_) (fun _ => ?_)))
      · refine .dead (fun h => ?_) (.bind (.skipUntil _ s₁) fun _ _ _ _ => .pure trivial)
        simp [h.2 rfl] at hmoved
      · exact .failHere rfl fun _ => .pure trivial
      · refine .next (.fail rfl _ fun s₂ => ?_)
        exact .bind (.skipUntil _ s₂) fun _ _ _ _ => .pure trivial

theorem parseArgumentsFrom (hsub : T.Sub sub) (group : Group) (openSpan : Span) (gas : Nat)
    (args : List Expr) (stop : Position) :
    CleanRun (T.Holds groups (T.push group c) (os ++ exprOccurrences args.reverse) s) s
      (fun a s' => T.Holds groups c (os ++ exprOccurrences a.1) s')
      (parseArgumentsFrom sub group openSpan gas args stop s) := by
  induction gas generalizing s args stop with
  | zero => exact .outOfGas
  | succ gas ih =>
    refine .ite (fun hclosing => ?_) (fun _ => .ite (fun _ => ?_) (fun _ => ?_))
    · exact .next (.pre (fun h => T.closeBracket h (beq_iff_eq.mp hclosing)) (.pure id))
    · exact .fail rfl _ fun _ => .pure trivial
    · refine .bind (parseArgument hsub group stop) fun arg s₁ => ?_
      rw [List.append_assoc, ← exprOccurrences_reverse_toList]
      refine .accept (fun hcomma => ?_) (fun _ => .ite (fun _ => ih _ _) (fun _ => ?_))
      · exact .pre (fun h => passSign h T.fits_push (beq_iff_eq.mp hcomma) rfl) (ih _ _)
      · refine .failHere rfl fun s₂ => .bind (.skipUntil _ s₂) fun _ s₃ _ _ => ?_
        exact .bind (.accepts _ s₃) fun _ _ _ _ => (ih _ _).leads

theorem parseArguments (hsub : T.Sub sub) (gas : Nat) {group : Group}
    (hgroup : argumentGroup? s.current.kind = some group) :
    T.Keeps groups c os (fun a => exprOccurrences a.1) s (parseArguments gas sub group s) := by
  obtain ⟨sign, hkind, hopen⟩ := ofOpening?_of_argumentGroup? hgroup
  refine .next (.pre (fun h => T.openBracket h hkind hopen) (inside fun s' => ?_))
  exact .pre behind (parseArgumentsFrom hsub group _ gas [] _)

theorem parseNameFrom (os : List Occurrence) (hsub : T.Sub sub) (listGas gas : Nat) (use : NameUse Expr) :
    CleanRun (T.Holds groups c (os ++ rootOccurrences use) s) s
      (fun use' s' => T.Holds groups c (os ++ rootOccurrences use') s')
      (parseNameFrom listGas sub gas use s) := by
  induction gas generalizing s use with
  | zero => exact .outOfGas
  | succ gas ih =>
    refine .read rfl (.read rfl (.read rfl (.ite (fun hfield => ?_) (fun _ => ?_))))
    · change isField s.previous s.current (s.ahead 1) = true at hfield
      unfold isField at hfield
      simp only [Bool.and_eq_true] at hfield
      have hpoint : s.current.kind = .sign .period := beq_iff_eq.mp hfield.1.1.1
      have hname : (advance s).2.current.isName = true := by
        rw [advance_current]
        exact hfield.1.2
      exact .next (.next (.pre (fun h => T.passField h hpoint hname) (ih _)))
    · cases hgroup : argumentGroup? s.current.kind with
      | none => exact .pure id
      | some group =>
        refine .read rfl (.ite (fun _ => .pure id) (fun _ => ?_))
        refine .bind (parseArguments hsub listGas hgroup) fun args s₁ => .pre (fun h => ?_) (ih _)
        rw [rootOccurrences, Option.getD_some, exprOccurrences_append, ← List.cons_append,
          ← List.append_assoc]
        exact h

theorem parseName (hsub : T.Sub sub) (gas : Nat) (hname : s.current.isName = true) :
    T.Keeps groups c os rootOccurrences s (parseName gas sub s) :=
  .next (.pre (fun h => T.passRoot h hname) (parseNameFrom os hsub gas gas _))

/-! Brackets. -/

theorem parseGrouping (hsub : T.Sub sub) (hkind : s.current.kind = .sign .openParen) :
    CleanRun (T.Holds groups c os s) s (T.Behind groups c os s) (parseGrouping sub s) := by
  have hinner (s' : State) : T.Keeps (.paren :: groups) (T.push .paren c) os optionalOccurrences s' (sub 0 s') :=
    (hsub _ _ os 0 s' T.fits_push).mono fun _ _ _ h => h.1
  refine .next (.pre (fun h => T.openBracket h hkind rfl) (.bind (inside hinner) fun inner s₂ => ?_))
  cases inner with
  | none => exact .failExpected _ fun _ => .pure trivial
  | some inner =>
    refine .bind (.expectSign rfl _ s₂) fun _ s₃ => .pure ?_
    rintro ⟨h, hclosing, rfl⟩
    exact .some (T.closeBracket h hclosing)

theorem parseMatrixFrom (hsub : T.Sub sub) (kind : MatrixKind) (openSpan : Span) (gas : Nat)
    (m : MatrixRows) :
    CleanRun (T.Holds groups (T.push (Group.ofMatrix kind) c) (os ++ exprOccurrences m.toRows.flatten) s) s
      (fun m' s' => T.Holds groups c (os ++ exprOccurrences m'.toRows.flatten) s')
      (parseMatrixFrom sub kind openSpan gas m s) := by
  induction gas generalizing s m with
  | zero => exact .outOfGas
  | succ gas ih =>
    refine .ite (fun hclosing => ?_) (fun _ => .read rfl (.ite (fun _ => ?_) (fun _ => ?_)))
    · exact .next (.pre (fun h => T.closeBracket h (beq_iff_eq.mp hclosing)) (.pure id))
    · exact .fail rfl _ fun _ => .pure trivial
    refine .accept (fun hend => ?_) (fun _ => .ite (fun hcomma => ?_) (fun _ => ?_))
    · have hplain : isPlain s.current.kind = true := by
        rw [Bool.or_eq_true, beq_iff_eq, beq_iff_eq] at hend
        rcases hend with hkind | hkind <;> rw [hkind] <;> rfl
      refine .pre (fun h => ?_) (ih m.endRow)
      rw [MatrixRows.flatten_endRow]
      exact T.pass h T.fits_push hplain
    · refine .next (.pre (fun h => passSign h T.fits_push (beq_iff_eq.mp hcomma) rfl) ?_)
      exact .ite (fun _ => .fail rfl _ fun _ => (ih _).leads) (fun _ => ih { m with expectsElement := true })
    · refine .read rfl (.bind (hsub groups _ _ 0 s T.fits_push) fun element s₁ => ?_)
      cases element with
      | some element =>
        refine .pre (fun h => ?_) (ih (m.push element))
        rw [MatrixRows.flatten_push, exprOccurrences_append, exprOccurrences_singleton, ← List.append_assoc]
        exact h.1
      | none =>
        refine .read rfl (.ite (fun _ => ?_) (fun hmoved => ?_))
        · exact .next (.fail rfl _ fun _ => (ih _).leads)
        · refine .dead (fun h => hmoved ?_) (ih m).leads
          simp [h.2 rfl]

theorem parseMatrix (hsub : T.Sub sub) (gas : Nat) (kind : MatrixKind) {sign : Sign}
    (hkind : s.current.kind = .sign sign)
    (hopen : Group.ofOpening? sign = some (Group.ofMatrix kind)) :
    T.Keeps groups c os Expr.occurrences s (parseMatrix gas sub kind s) := by
  refine .next (.pre (fun h => T.openBracket h hkind hopen) ?_)
  refine .bind (inside fun _ => .pre behind (parseMatrixFrom hsub kind _ gas _)) fun m s₂ => .pure fun h => ?_
  rw [Expr.occurrences, rowOccurrences_eq]
  exact h

/-! Function handles and marks. -/

theorem parseAnonymousParams (openSpan : Span) (gas : Nat) (params : List String) :
    CleanRun (T.InParams groups c os s) s (fun _ s' => T.Holds groups c os s')
      (parseAnonymousParams openSpan gas params s) := by
  induction gas generalizing s params with
  | zero => exact .outOfGas
  | succ gas ih =>
    refine .accept (fun hclosing => ?_) (fun _ => .ite (fun _ => ?_) (fun _ => .next ?_))
    · exact .pre (fun h => T.closeParams h (beq_iff_eq.mp hclosing)) (.pure id)
    · exact .fail rfl _ fun _ => .pure trivial
    · refine .ite (fun hname => ?_) (fun _ => .ite (fun _ => ?_) (fun hcomma => ?_))
      · exact .pre (fun h => T.passParam h (.inl hname)) (ih _)
      · exact .fail rfl _ fun _ => (ih _).leads
      · exact .pre (fun h => T.passParam h (.inr (by simpa using hcomma))) (ih _)

theorem parseAt (hsub : T.Sub sub) (gas : Nat) (hfits : T.Fits groups c)
    (hkind : s.current.kind = .sign .atSign) :
    CleanRun (T.Holds groups c os s) s (T.Behind groups c os s) (parseAt gas sub s) := by
  refine .next (.ite (fun hopen => ?_) (fun _ => ?_))
  · refine .next (.pre (fun h => T.openParams h hfits hkind (beq_iff_eq.mp hopen)) ?_)
    refine .bind (parseAnonymousParams _ gas []) fun params s₃ => ?_
    refine .bind (hsub groups c os 0 s₃ hfits) fun body s₄ => ?_
    cases body with
    | none => exact .read rfl (.failExpected _ fun _ => .read rfl (.pure trivial))
    | some body =>
      exact .read rfl (.pure fun h => .some (usesBehind h.1 (List.subset_append_right _ _)))
  · refine .pre (fun h => passSign h hfits hkind rfl) (.read rfl (.ite (fun hname => ?_) (fun _ => ?_)))
    · exact .next (.pre (fun h => T.passName h hname) (.pure fun h => .some h))
    · exact .fail rfl _ fun _ => .pure trivial

/-- Inside a bracket, `end` and a colon are values. -/
theorem parseMark (mark : Mark) (hfits : T.Fits groups c)
    (hkind : s.current.kind = .keyword .endAny ∨ s.current.kind = .sign .colon) :
    CleanRun (T.Holds groups c os s) s (T.Behind groups c os s) (parseMark mark s) := by
  refine .read rfl (.ite (fun hinside => .next ?_) (fun _ => .pure fun h => ⟨behind h, fun _ => rfl⟩))
  refine .pure fun h => .some (behind ?_)
  rcases hkind with hkind | hkind
  · have hgroups : groups ≠ [] := by
      rintro rfl
      simp [T.groups_eq h] at hinside
    exact T.passEnd h hfits hgroups hkind
  · exact passSign h hfits hkind rfl

/-! Whole expressions. -/

theorem parsePrimary (hsub : T.Sub sub) (gas : Nat) (hfits : T.Fits groups c) :
    CleanRun (T.Holds groups c os s) s (T.Behind groups c os s) (parsePrimary gas sub s) := by
  have hnone : CleanRun (T.Holds groups c os s) s (T.Behind groups c os s)
      ((pure none : Parser (Option Expr)) s) := .pure fun h => ⟨behind h, fun _ => rfl⟩
  refine .read rfl ?_
  cases hkind : s.current.kind with
  | number =>
    refine .next (.pure fun h => .some (behind (T.pass h hfits ?_)))
    rw [hkind]
    rfl
  | string =>
    refine .nextString (.next (.ite (fun _ => .fail rfl _ fun _ => .pure trivial) (fun hclosed => ?_)))
    refine .pure fun h => .some (behind (T.pass (T.noteString h hkind (by simpa using hclosed)) hfits ?_))
    change isPlain s.current.kind = true
    rw [hkind]
    rfl
  | identifier | native =>
    have hname : s.current.isName = true := by rw [Token.isName, hkind]; rfl
    refine .bind (parseName hsub gas hname) fun use _ => .pure fun h => .some ?_
    exact usesBehind h (rootOccurrences_subset use)
  | sign sign =>
    cases sign with
    | openParen => exact parseGrouping hsub hkind
    | openBracket =>
      exact .bind (parseMatrix hsub gas .vector hkind rfl) fun _ _ => .pure .some
    | openBrace => exact .bind (parseMatrix hsub gas .cell hkind rfl) fun _ _ => .pure .some
    | atSign => exact parseAt hsub gas hfits hkind
    | colon => exact parseMark .whole hfits (.inr hkind)
    | _ => exact hnone
  | keyword word =>
    cases word with
    | endAny => exact parseMark .last hfits (.inl hkind)
    | _ => exact hnone
  | _ => exact hnone

theorem parseTransposes (gas : Nat) (operand : Expr) (hfits : T.Fits groups c) :
    CleanRun (T.Holds groups c (os ++ operand.occurrences) s) s
      (fun e s' => T.Holds groups c (os ++ e.occurrences) s') (parseTransposes gas operand s) := by
  induction gas generalizing s operand with
  | zero => exact .outOfGas
  | succ gas ih =>
    refine .read rfl (.read rfl (.ite (fun hquote => ?_) (fun _ => .ite (fun hplain => ?_) (fun _ => ?_))))
    · refine .next (.pre (fun h => T.pass h hfits ?_) (ih (.transposed .conjugate operand _)))
      rw [beq_iff_eq.mp hquote]
      rfl
    · change isPlainTranspose s.current (s.ahead 1) = true at hplain
      unfold isPlainTranspose at hplain
      simp only [Bool.and_eq_true] at hplain
      refine .next (.pre (fun h => passSign h hfits (beq_iff_eq.mp hplain.1.1) rfl) ?_)
      refine .next (.pre (fun h => T.pass h hfits ?_) (ih (.transposed .plain operand _)))
      rw [advance_current, beq_iff_eq.mp hplain.1.2]
      rfl
    · exact .pure id

theorem passPrefix {op : PrefixOp} (hfits : T.Fits groups c) (hop : prefixAt s.current = some op)
    (h : T.Holds groups c os s) : T.Holds groups c os (advance s).2 := by
  unfold prefixAt at hop
  split at hop
  · rename_i sign hkind
    have hplain : isPlain (.sign sign) = true := by
      cases sign <;> first | rfl | contradiction
    exact passSign h hfits hkind hplain
  · contradiction

theorem parseUnary (hsub : T.Sub sub) (gas : Nat) (hfits : T.Fits groups c) :
    CleanRun (T.Holds groups c os s) s (T.Behind groups c os s) (parseUnary gas sub s) := by
  refine .read rfl ?_
  cases hop : prefixAt s.current with
  | some op =>
    refine .next (.pre (passPrefix hfits hop) ?_)
    refine .bind (hsub groups c os _ _ hfits) fun operand s₂ => ?_
    cases operand with
    | none => exact .failExpected _ fun _ => .pure trivial
    | some operand => exact .pure fun h => .some h.1
  | none =>
    refine .bind (parsePrimary hsub gas hfits) fun operand s₁ => ?_
    cases operand with
    | none => exact .pure id
    | some operand =>
      refine .pre (fun h => h.1) (.bind (parseTransposes gas operand hfits) fun _ _ => .pure ?_)
      exact .some

theorem advanceBy {op : BinaryOp} {width : Nat} (hfits : T.Fits groups c)
    (hop : operatorAt s.current (s.ahead 1) = some (op, width)) :
    CleanRun (T.Holds groups c os s) s (fun _ s' => T.Holds groups c os s') (advanceBy width s) := by
  have hleads (n : Nat) (s : State) : Leads s (fun _ => True) (Parser.advanceBy n s) := by
    induction n generalizing s with
    | zero => exact .pure trivial
    | succ n ih => exact .bind (.advance s) fun _ _ _ _ => ih _
  exact ⟨(hleads width s).1, fun _ h => T.passOperator h hfits hop⟩

theorem parseOperators (hsub : T.Sub sub) (least gas : Nat) (left : Expr) (hfits : T.Fits groups c) :
    CleanRun (T.Holds groups c (os ++ left.occurrences) s) s
      (fun e s' => T.Holds groups c (os ++ e.occurrences) s') (parseOperators sub least gas left s) := by
  induction gas generalizing s left with
  | zero => exact .outOfGas
  | succ gas ih =>
    refine .read rfl ?_
    cases hop : operatorAt s.current (s.ahead 1) with
    | none => exact .pure id
    | some found =>
      obtain ⟨op, width⟩ := found
      refine .ite (fun _ => .pure id) (fun _ => .read rfl (.ite (fun _ => .pure id) (fun _ => ?_)))
      refine .read rfl (.bind (advanceBy hfits hop) fun _ s₁ => ?_)
      refine .bind (hsub groups c _ _ s₁ hfits) fun right s₂ => ?_
      cases right with
      | none => exact .failExpected _ fun _ => .pure trivial
      | some right =>
        refine .pre (fun h => ?_) (ih (.binary op left right _))
        rw [Expr.occurrences, ← List.append_assoc]
        exact h.1

/-- The parser of expressions keeps what each token keeps. -/
theorem parseExpression (T : Tracking) (gas : Nat) : T.Sub (parseExpression gas) := by
  induction gas with
  | zero => exact fun _ _ _ _ _ _ => .outOfGas
  | succ gas ih =>
    intro groups c os least s hfits
    refine .bind (parseUnary ih (gas + 1) hfits) fun left s₁ => ?_
    cases left with
    | none => exact .pure id
    | some left =>
      refine .pre (fun h => h.1) (.bind (parseOperators ih least (gas + 1) left hfits) ?_)
      exact fun _ _ => .pure .some

/-- The end of a statement. -/
theorem finishStatement (os : List Occurrence) (hfits : T.Fits groups c) :
    CleanRun (T.Holds groups c os s) s (fun _ s' => T.Holds groups c os s') (finishStatement s) := by
  refine .accept (fun hsign => ?_) (fun _ => .accept (fun hsign => ?_) (fun _ => ?_))
  · exact .pure fun h => passSign h hfits (beq_iff_eq.mp hsign) rfl
  · exact .pure fun h => passSign h hfits (beq_iff_eq.mp hsign) rfl
  · refine .ite (fun _ => .pure id) (fun _ => .read rfl ?_)
    refine .failHere (severity_ofToken _) fun s₁ => .bind (.synchronize s₁) fun _ s₂ _ _ => ?_
    exact .accepts _ s₂

end Tracking

end Parser

end MatrixScript
