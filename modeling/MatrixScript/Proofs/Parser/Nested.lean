import MatrixScript.Proofs.Parser.Header

/-! Expressions without errors are properly nested. -/
namespace MatrixScript.Parser

variable {o : Origin} {t : Tally} {groups : List Group} {stack : List Enclosure} {s : State}

/-- Where the parser is inside a bracket, a bracket is what was opened last. -/
def Fits (groups : List Group) (stack : List Enclosure) : Prop :=
  groups ≠ [] → ∃ group rest, stack = .bracket group :: rest

theorem Fits.bracket (group : Group) : Fits groups (.bracket group :: stack) :=
  fun _ => ⟨group, stack, rfl⟩

theorem At.regroup (h : At o t groups stack s) (groups' : List Group) :
    At o t groups' stack { s with groups := groups' } :=
  ⟨h.code_eq, rfl, h.start_le, h.words_lt, h.plain, h.commands, h.scan_eq, h.tally_eq⟩

theorem isNeutral_of_ofSign? {sign : Sign} {op : BinaryOp} (h : BinaryOp.ofSign? sign = some op) :
    (Token.Kind.sign sign).isNeutral = true := by
  cases sign <;> first | rfl | contradiction

theorem isNeutral_of_ofSigns? {first second : Sign} {op : BinaryOp}
    (h : BinaryOp.ofSigns? first second = some op) :
    (Token.Kind.sign first).isNeutral = true ∧ (Token.Kind.sign second).isNeutral = true := by
  unfold BinaryOp.ofSigns? at h
  split at h <;> first | contradiction | exact ⟨rfl, rfl⟩

theorem At.passOperator (h : At o t groups stack s) {op : BinaryOp} {width : Nat}
    (hop : operatorAt s.current (s.ahead 1) = some (op, width)) :
    At o t groups stack (advanceBy width s).2 := by
  obtain ⟨first, hfirst, ⟨rfl, hsign⟩ | ⟨rfl, second, hsecond, hsigns⟩⟩ := operatorAt_eq_some hop
  · exact h.passSign hfirst (isNeutral_of_ofSign? hsign)
  · obtain ⟨hneutral, hneutral'⟩ := isNeutral_of_ofSigns? hsigns
    rw [← advance_current] at hsecond
    exact (h.passSign hfirst hneutral).passSign hsecond hneutral'

theorem isNeutral_of_isPlain {kind : Token.Kind} (h : isPlain kind = true) : kind.isNeutral = true := by
  unfold isPlain at h
  simp only [Bool.and_eq_true] at h
  exact h.1.1

/-- Outside of all brackets every stack fits. -/
theorem Fits.nil (stack : List Enclosure) : Fits [] stack :=
  fun h => absurd rfl h

/-- The tokens from the origin on are properly nested. -/
def nesting (o : Origin) (t : Tally) : HeaderTracking where
  Context := List Enclosure
  push group stack := .bracket group :: stack
  Fits := Fits
  Holds groups stack _ := At o t groups stack
  InParams groups stack _ := At o t groups (.bracket .paren :: stack)
  fits_push := .bracket _
  groups_eq h := h.groups_eq
  regroup h := h.regroup _
  uses h _ := h
  noteString h _ _ := ⟨h.code_eq, h.groups_eq, h.start_le, h.words_lt, h.plain, h.commands, h.scan_eq, h.tally_eq⟩
  passName h hname := h.pass (Token.isNeutral_of_isName hname)
  passRoot h hname := h.pass (Token.isNeutral_of_isName hname)
  passField h hkind hname := (h.passSign hkind rfl).pass (Token.isNeutral_of_isName hname)
  pass h _ hplain := h.pass (isNeutral_of_isPlain hplain)
  passEquals h hkind := h.passSign hkind rfl
  openBracket h hkind hopen := h.openBracket hkind hopen
  closeBracket h hkind := h.closeBracket hkind
  openParams h _ hkind hopen := (h.passSign hkind rfl).openBracket hopen rfl
  passParam h hparam := h.pass (hparam.elim Token.isNeutral_of_isName
    fun hkind => isNeutral_of_isPlain (isPlain_of_isCommaOrNot hkind))
  closeParams h hkind := h.closeBracket hkind
  passEnd h hfits hgroups hkind := by
    obtain ⟨group, rest, rfl⟩ := hfits hgroups
    exact h.word hkind nofun rfl
  passOperator h _ hop := h.passOperator hop
  fits_nil := .nil _
  assign h hkind := h.passSign hkind rfl
  passFunctionName h hname := h.pass (Token.isNeutral_of_isName hname)

/-- An expression in properly nested tokens; without one no token is taken. -/
def Nested (o : Origin) (t : Tally) (groups : List Group) (stack : List Enclosure) (s : State) (e : Option Expr)
    (s' : State) : Prop :=
  At o t groups stack s' ∧ (e = none → s'.pos = s.pos)

/-- Which names are used makes no difference to the nesting. -/
theorem nests {α : Type} {O : α → List Occurrence} {x : α × State}
    (h : CleanRun ((nesting o t).Holds groups stack [] s) s
      (fun a s' => (nesting o t).Holds groups stack (O a) s') x) :
    CleanRun (At o t groups stack s) s (fun _ s' => At o t groups stack s') x :=
  h

/-- Expressions without errors are properly nested. -/
theorem parseExpression_nests (gas : Nat) (o : Origin) (t : Tally) (groups : List Group) (stack : List Enclosure)
    (least : Nat) (s : State) (hfits : Fits groups stack) :
    CleanRun (At o t groups stack s) s (Nested o t groups stack s) (parseExpression gas least s) :=
  (nesting o t).parseExpression gas groups stack [] least s hfits

theorem parseName_nests (exprGas gas : Nat) (hname : s.current.isName = true) :
    CleanRun (At o t groups stack s) s (fun _ s' => At o t groups stack s')
      (parseName gas (parseExpression exprGas) s) :=
  nests (Tracking.parseName ((nesting o t).parseExpression exprGas) gas hname)

end MatrixScript.Parser
