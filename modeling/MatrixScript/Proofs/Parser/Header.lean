import MatrixScript.Proofs.Parser.Tracking

/-! What the parser keeps in the headers of statements and functions as long as it finds no error. -/
namespace MatrixScript.Parser

theorem flatMap_reverse_cons {α : Type} (names : α → List Occurrence) (a : α) (as : List α) :
    (a :: as).reverse.flatMap names = as.reverse.flatMap names ++ names a := by
  rw [List.reverse_cons, List.flatMap_append, List.flatMap_singleton]

theorem isPlain_of_isCommaOrSemicolon {kind : Token.Kind} (h : isCommaOrSemicolon kind = true) :
    isPlain kind = true := by
  unfold isCommaOrSemicolon at h
  split at h <;> first | rfl | contradiction

theorem isPlain_of_isSeparator {kind : Token.Kind} (h : isSeparator kind = true) : isPlain kind = true := by
  unfold isSeparator at h
  split at h <;> first | rfl | contradiction

/-- The names in the header of a loop. -/
def loopOccurrences (header : Option Variable × Option Expr) : List Occurrence :=
  header.1.toList.flatMap Variable.occurrences ++ optionalOccurrences header.2

/-- Outside of all brackets any token of an expression may follow, and values are assigned. -/
structure HeaderTracking extends Tracking where
  fits_nil : ∀ {c}, Fits [] c
  assign : ∀ {groups c os s}, Holds groups c os s → s.current.kind = .sign .equals →
    Holds groups c os (advance s).2
  /-- The name of a function does not occur if it is empty. -/
  passFunctionName : ∀ {groups c os s}, Holds groups c os s → s.current.isName = true →
    Holds groups c (os ++ if s.current.text.isEmpty then [] else
      Variable.occurrences ⟨s.current.text, s.current.span⟩) (advance s).2

namespace HeaderTracking

open Tracking

variable {T : HeaderTracking} {groups : List Group} {c : T.Context} {os : List Occurrence} {s : State} {gas : Nat}

/-- A variable that is introduced where it stands. -/
theorem introduce (h : T.Holds groups c os s) (hname : s.current.isName = true) :
    T.Holds groups c (os ++ Variable.occurrences ⟨s.current.text, s.current.span⟩) (advance s).2 :=
  T.uses (T.passName h hname) (by simp [Variable.occurrences])

theorem passPlain (h : T.Holds [] c os s) {sign : Sign} (hkind : s.current.kind = .sign sign)
    (hplain : isPlain (.sign sign) = true) : T.Holds [] c os (advance s).2 :=
  passSign h T.fits_nil hkind hplain

/-- A comma or semicolon may be consumed. -/
theorem separator :
    CleanRun (T.Holds [] c os s) s (fun _ s' => T.Holds [] c os s') (Parser.accept isCommaOrSemicolon s) := by
  refine .ite (fun hp => .next (.pure fun h => ?_)) (fun _ => .pure id)
  exact T.pass h T.fits_nil (isPlain_of_isCommaOrSemicolon hp)

/-- Between statements stand only separators. -/
theorem skipSeparators :
    CleanRun (T.Holds [] c os s) s (fun _ s' => T.Holds [] c os s')
      (skipUntil (fun kind => !isSeparator kind) s) := by
  refine ⟨(Leads.skipUntil _ s).1, fun _ h => skipUntil_keeps (fun _ h hkind => ?_) h⟩
  exact T.pass h T.fits_nil (isPlain_of_isSeparator (by simpa using hkind))

/-! Assignments and conditions. -/

theorem parseAssigned (equals : Token) :
    T.Keeps [] c os (fun a => optionalOccurrences a.1) s (parseAssigned gas equals s) := by
  refine .bind (T.parseExpression gas [] c os 0 s T.fits_nil) fun value s₁ => ?_
  cases value with
  | some value => exact .pure fun h => h.1
  | none =>
    refine .failExpected _ fun s₂ => .bind (.synchronize s₂) fun _ _ _ _ => ?_
    exact .pure trivial

theorem parseTargets (os : List Occurrence) (nameGas gas : Nat) (targets : List Target) :
    CleanRun (T.Holds [] c (os ++ targets.reverse.flatMap Target.occurrences) s) s
      (fun all s' => T.Holds [] c (os ++ all.flatMap Target.occurrences) s')
      (parseTargets nameGas gas targets s) := by
  induction gas generalizing s targets with
  | zero => exact .outOfGas
  | succ gas ih =>
    have hpass (hplain : isPlain s.current.kind = true) :
        CleanRun (T.Holds [] c (os ++ targets.reverse.flatMap Target.occurrences) s) s
          (fun all s' => T.Holds [] c (os ++ all.flatMap Target.occurrences) s')
          ((advance >>= fun _ => Parser.parseTargets nameGas gas targets) s) :=
      .next (.pre (fun h => T.pass h T.fits_nil hplain) (ih _))
    have hbad : CleanRun (T.Holds [] c (os ++ targets.reverse.flatMap Target.occurrences) s) s
        (fun all s' => T.Holds [] c (os ++ all.flatMap Target.occurrences) s')
        ((advance >>= fun _ => report (.inTargets s.current.text) s.current.span >>= fun _ =>
          Parser.parseTargets nameGas gas targets) s) :=
      .next (.fail rfl _ fun _ => (ih _).leads)
    refine .ite (fun _ => .pure id) (fun _ => .read rfl ?_)
    cases hkind : s.current.kind with
    | identifier | native =>
      have hname : s.current.isName = true := by rw [Token.isName, hkind]; rfl
      refine .bind (Tracking.parseName (T.parseExpression nameGas) nameGas hname) fun use s₁ => ?_
      refine .pre (fun h => ?_) (ih (.name use :: targets))
      rw [flatMap_reverse_cons, ← List.append_assoc]
      exact usesBehind h (List.subset_cons_of_subset _ (rootOccurrences_subset use))
    | sign sign =>
      cases sign with
      | tilde | bang =>
        refine .next (.pre (fun h => ?_) (ih (.ignored s.current.span :: targets)))
        rw [flatMap_reverse_cons, ← List.append_assoc]
        exact behind (passPlain h hkind rfl)
      | comma => exact hpass (by rw [hkind]; rfl)
      | _ => exact hbad
    | newline => exact hpass (by rw [hkind]; rfl)
    | _ => exact hbad

theorem parseCondition (word : Keyword) (keyword : Token) :
    T.Keeps [] c os optionalOccurrences s (parseCondition gas word keyword s) := by
  refine .ite (fun _ => ?_) (fun _ => ?_)
  · exact .fail rfl _ fun s₁ => .bind (.accepts _ s₁) fun _ _ _ _ => .pure trivial
  · refine .bind (T.parseExpression gas [] c os 0 s T.fits_nil) fun condition s₁ => ?_
    refine .ite (fun _ => ?_) (fun _ => .pre (fun h => h.1) (.bind separator fun _ _ => .pure id))
    refine .failHere rfl fun s₂ => .bind (.synchronize s₂) fun _ s₃ _ _ => ?_
    exact .bind (.accepts _ s₃) fun _ _ _ _ => .pure trivial

theorem parseGuard (keyword : Token) : T.Keeps [] c os optionalOccurrences s (parseGuard gas keyword s) := by
  refine .bind (T.parseExpression gas [] c os 0 s T.fits_nil) fun guard s₁ => ?_
  refine .ite (fun _ => ?_) (fun _ => .pre (fun h => h.1) (.bind separator fun _ _ => .pure id))
  refine .fail rfl _ fun s₂ => .bind (.synchronize s₂) fun _ s₃ _ _ => ?_
  exact .bind (.accepts _ s₃) fun _ _ _ _ => .pure trivial

/-! Loops. -/

/-- A header without errors has both of its parts. -/
theorem parseLoopHeader (keyword : Token) (hfits : T.Fits groups c) :
    CleanRun (T.Holds groups c os s) s
      (fun header s' => T.Holds groups c (os ++ loopOccurrences header) s' ∧
        header.1.isSome = true ∧ header.2.isSome = true) (parseLoopHeader gas keyword s) := by
  refine .read rfl (.ite (fun _ => .fail rfl _ fun _ => .pure trivial) (fun hname => ?_))
  refine .next (.pre (fun h => introduce h (by simpa using hname)) ?_)
  refine .ite (fun _ => .failHere rfl fun _ => .pure trivial) (fun hequals => ?_)
  have hkind : (advance s).2.current.kind = .sign .equals := by simpa using hequals
  refine .next (.pre (fun h => T.assign h hkind) ?_)
  refine .bind (T.parseExpression gas groups c _ 0 _ hfits) fun iterable s₃ => ?_
  refine .bind (.expectValue rfl _ s₃) fun _ s₄ => .pure ?_
  rintro ⟨h, hiterable, rfl⟩
  rw [loopOccurrences, ← List.append_assoc]
  exact ⟨T.uses h.1 (by simp), rfl, hiterable⟩

theorem parseForHeader (keyword : Token) :
    T.Keeps [] c os loopOccurrences s (parseForHeader gas keyword s) := by
  have hheader : CleanRun (T.Holds [] c os s) s
      (fun header s' => T.Holds [] c (os ++ loopOccurrences header) s' ∧
        header.1.isSome = true ∧ header.2.isSome = true) (parseLoopHeaderOrGroup gas keyword s) := by
    refine .read rfl (.read rfl (.read rfl (.ite (fun hopen => ?_) (fun _ => ?_))))
    · rw [Bool.and_eq_true, Bool.and_eq_true] at hopen
      have hkind : s.current.kind = .sign .openParen := beq_iff_eq.mp hopen.1.1
      refine .next (.pre (fun h => T.openBracket h hkind rfl) ?_)
      refine .bind (insideAnd fun _ => parseLoopHeader keyword T.fits_push) fun _ s₂ => ?_
      refine .bind (.expectSign rfl _ s₂) fun _ s₃ => .pure ?_
      rintro ⟨h, hclose, rfl⟩
      exact ⟨T.closeBracket h.1 hclose, h.2⟩
    · exact parseLoopHeader keyword T.fits_nil
  refine .bind hheader fun header s₁ => ?_
  refine .ite (fun hmissing => ?_) (fun _ => .pre (fun h => h.1) (.bind separator fun _ _ => .pure id))
  refine .dead (fun h => ?_) (.bind (.synchronize s₁) fun _ s₂ _ _ => ?_)
  · rw [Bool.or_eq_true, Option.isNone_iff_eq_none, Option.isNone_iff_eq_none] at hmissing
    rcases hmissing with hnone | hnone <;> simp [hnone] at h
  · exact .bind (.accepts _ s₂) fun _ _ _ _ => .pure trivial

theorem parseErrorVariable (keyword : Token) :
    T.Keeps [] c os (fun v => v.toList.flatMap Variable.occurrences) s (parseErrorVariable keyword s) := by
  refine .read rfl (.read rfl (.ite (fun hname => .next (.pure fun h => ?_)) (fun _ => .pure behind)))
  simp only [Bool.and_eq_true] at hname
  exact T.uses (introduce h hname.1.1) (by simp)

/-! Functions. -/

theorem parseOutputsFrom (gas : Nat) (outputs : List Output) :
    CleanRun (T.Holds [] c (os ++ outputs.reverse.flatMap Output.occurrences) s) s
      (fun all s' => T.Holds [] c (os ++ all.flatMap Output.occurrences) s')
      (parseOutputsFrom gas outputs s) := by
  induction gas generalizing s outputs with
  | zero => exact .outOfGas
  | succ gas ih =>
    refine .ite (fun _ => .pure id) (fun _ => .next ?_)
    have hbad : CleanRun (T.Holds [] c (os ++ outputs.reverse.flatMap Output.occurrences) s)
        (advance s).2 (fun all s' => T.Holds [] c (os ++ all.flatMap Output.occurrences) s')
        ((report (.inOutputs s.current.text) s.current.span >>= fun _ =>
          Parser.parseOutputsFrom gas outputs) (advance s).2) :=
      .fail rfl _ fun _ => (ih outputs).leads
    cases hkind : s.current.kind with
    | identifier | native =>
      refine .pre (fun h => ?_) (ih (.variable ⟨s.current.text, s.current.span⟩ :: outputs))
      rw [flatMap_reverse_cons, ← List.append_assoc]
      exact introduce h (by rw [Token.isName, hkind]; rfl)
    | sign sign =>
      cases sign with
      | tilde | bang =>
        refine .pre (fun h => ?_) (ih (.ignored s.current.span :: outputs))
        rw [flatMap_reverse_cons, ← List.append_assoc]
        exact behind (passPlain h hkind rfl)
      | comma => exact .pre (fun h => passPlain h hkind rfl) (ih _)
      | _ => exact hbad
    | _ => exact hbad

theorem parseOutputs (hkind : s.current.kind = .sign .openBracket) :
    T.Keeps [] c os (List.flatMap Output.occurrences) s (parseOutputs gas s) := by
  refine .next (.pre (fun h => T.openBracket h hkind rfl) (.bind (.pre behind (parseOutputsFrom gas [])) ?_))
  refine fun outputs s₂ => .bind (.expectSign rfl _ s₂) fun _ s₃ => ?_
  refine .accepted (fun hequals => .pure ?_) (fun _ => .failHere rfl fun _ => .pure trivial)
  rintro ⟨h, hclose, rfl⟩
  exact T.assign (T.closeBracket h hclose) (beq_iff_eq.mp hequals)

theorem parseNamedParam {name : Token} :
    CleanRun (T.Holds [] c (os ++ Variable.occurrences ⟨name.text, name.span⟩) s) s
      (fun param s' => T.Holds [] c (os ++ param.occurrences) s') (parseNamedParam gas name s) := by
  refine .ite (fun hequals => ?_) (fun _ => .pure id)
  refine .next (.pre (fun h => T.assign h (beq_iff_eq.mp hequals)) ?_)
  refine .bind (T.parseExpression gas [] c _ 0 _ T.fits_nil) fun value s₂ => ?_
  refine .bind (.expectValue rfl _ s₂) fun _ s₃ => .pure ?_
  rintro ⟨h, -, rfl⟩
  rw [Param.occurrences, ← List.append_assoc]
  exact h.1

theorem parseParam :
    T.Keeps [] c os (fun param => param.elim [] Param.occurrences) s (parseParam gas s) := by
  refine .next ?_
  have hbad : CleanRun (T.Holds [] c os s) (advance s).2
      (fun param s' => T.Holds [] c (os ++ param.elim [] Param.occurrences) s')
      ((report (.invalidParameter s.current.text) s.current.span >>= fun _ =>
        (pure none : Parser (Option Param))) (advance s).2) :=
    .fail rfl _ fun _ => .pure trivial
  cases hkind : s.current.kind with
  | identifier | native =>
    refine .pre (fun h => introduce h ?_) (.map parseNamedParam fun _ _ h => h)
    rw [Token.isName, hkind]
    rfl
  | sign sign =>
    cases sign with
    | tilde | bang => exact .pure fun h => behind (passPlain h hkind rfl)
    | _ => exact hbad
  | _ => exact hbad

theorem parseParamEnd :
    CleanRun (T.Holds [] c os s) s (fun _ s' => T.Holds [] c os s') (parseParamEnd s) := by
  refine .accept (fun hcomma => ?_) (fun _ => .ite (fun _ => .pure id) (fun _ => .next ?_))
  · exact .pure fun h => passPlain h (beq_iff_eq.mp hcomma) rfl
  · exact .error rfl _ _

theorem parseParamsFrom (exprGas : Nat) (openSpan : Span) (gas : Nat) (params : List Param) :
    CleanRun (T.Holds [] (T.push .paren c) (os ++ params.reverse.flatMap Param.occurrences) s) s
      (fun all s' => T.Holds [] c (os ++ all.flatMap Param.occurrences) s')
      (parseParamsFrom exprGas openSpan gas params s) := by
  induction gas generalizing s params with
  | zero => exact .outOfGas
  | succ gas ih =>
    refine .accept (fun hclose => ?_) (fun _ => .ite (fun _ => ?_) (fun _ => ?_))
    · exact .pure fun h => T.closeBracket h (beq_iff_eq.mp hclose)
    · exact .fail rfl _ fun _ => .pure trivial
    · refine .bind parseParam fun param s₁ => ?_
      cases param with
      | none => exact .pre (fun h => T.uses h (by simp)) (ih _)
      | some param =>
        refine .bind parseParamEnd fun _ s₂ => .pre (fun h => ?_) (ih _)
        rw [flatMap_reverse_cons, ← List.append_assoc]
        exact h

theorem parseParams : T.Keeps [] c os (List.flatMap Param.occurrences) s (parseParams gas s) := by
  refine .ite (fun hopen => .next ?_) (fun _ => .pure behind)
  exact .pre (fun h => behind (T.openBracket h (beq_iff_eq.mp hopen) rfl)) (parseParamsFrom gas _ gas [])

theorem parseHeaderOutputs :
    T.Keeps [] c os (List.flatMap Output.occurrences) s (parseHeaderOutputs gas s) := by
  refine .ite (fun hopen => parseOutputs (beq_iff_eq.mp hopen)) (fun _ => .read rfl (.read rfl ?_))
  refine .ite (fun hname => ?_) (fun _ => .pure behind)
  rw [Bool.and_eq_true] at hname
  have hequals : (advance s).2.current.kind = .sign .equals := by
    rw [advance_current]
    exact beq_iff_eq.mp hname.2
  refine .next (.pre (fun h => introduce h hname.1) ?_)
  exact .next (.pre (fun h => T.assign h hequals) (.pure id))

theorem parseHeader (keyword : Token) :
    T.Keeps [] c os FunctionHeader.occurrences s (parseHeader gas keyword s) := by
  refine .bind parseHeaderOutputs fun outputs s₁ => ?_
  have hname : T.Keeps [] c (os ++ outputs.flatMap Output.occurrences)
      (fun v => if v.name.isEmpty then [] else Variable.occurrences v) s₁ (parseFunctionName keyword s₁) := by
    refine .read rfl (.ite (fun hname => .next ?_) (fun _ => .fail rfl _ fun _ => .pure trivial))
    exact .pure fun h => T.passFunctionName h hname
  refine .bind hname fun name s₂ => .bind parseParams fun params s₃ => .pure fun h => ?_
  rw [FunctionHeader.occurrences, ← List.append_assoc, ← List.append_assoc]
  exact h

theorem finishHeader :
    CleanRun (T.Holds [] c os s) s (fun _ s' => T.Holds [] c os s') (finishHeader s) := by
  refine .read rfl (.ite (fun _ => .read rfl ?_) (fun _ => .pure id))
  exact .failHere (severity_ofToken _) fun s₁ => .synchronize s₁

end HeaderTracking

end MatrixScript.Parser
