import MatrixScript.Document
import MatrixScript.Proofs.Parser.BlockAccounts
import MatrixScript.Proofs.Parser.Layout
import MatrixScript.Proofs.Symbol.Gathering

/-! The names of a document without errors are collected.

Main statement: every name is referred to where it stands, unless it is a field, a word of a command or a
parameter of an anonymous function. What the tree does not keep is not collected either: the initial values
of declarations, and the statements behind an `otherwise` that has another one behind it. -/
namespace MatrixScript

namespace Snapshot

def code (s : Snapshot) : Code := .ofTokens s.tokens

theorem eof_kind (s : Snapshot) : s.code.eof.kind = .eof :=
  Code.eof_kind s.tokens

/-- There is a reference with the name and the place of this token. -/
def Collects (s : Snapshot) (t : Token) : Prop :=
  ∃ r ∈ s.references, r.name = t.text ∧ r.span = t.span

instance (s : Snapshot) (t : Token) : Decidable (s.Collects t) :=
  inferInstanceAs (Decidable (∃ r ∈ s.references, r.name = t.text ∧ r.span = t.span))

/-- A name that nothing refers to by itself. -/
inductive IsPart (s : Snapshot) (place : Nat) : Prop where
  | field (h : s.code.IsField place)
  | word (hmem : place ∈ s.code.commandWords) (h : s.code.HasWord place)
  | param (h : s.code.InParams s.code.commandWords place)

/-- What becomes of a name in the tree of a document, and in its references. -/
structure Accounts (s : Snapshot) : Prop where
  names : ∀ place, (s.code.token place).isName = true → s.code.Accounted
    (s.code.Dropped (stmtNodes s.program.body)) s.code.commandWords s.program.occurrences place
  words : ∀ place ∈ s.code.commandWords, s.code.HasWord place
  references : s.references = s.program.symbols.references

theorem analyze_accounts (limit : Int) (uri text : String) (version : Int) :
    (∀ d ∈ (analyze limit uri text version).diagnostics, d.isError = false) →
      (analyze limit uri text version).Accounts := by
  unfold analyze
  split
  next e he =>
    intro herrors
    exact absurd (herrors _ (List.mem_singleton_self _)) (by simp [Diagnostic.isError])
  next tokens htokens =>
    intro herrors
    have hlaid := ((tokenize_eq_ok_iff limit text tokens).mp htokens).1.laidOut
    have hnone : (parse tokens).errors = [] := List.filter_eq_nil_iff.mpr fun d hd => by
      rw [herrors d hd]
      exact Bool.false_ne_true
    exact ⟨fun place hname => Code.accounted hlaid hnone hname,
      (Code.properlyNested hlaid.eof_kind hlaid.kind_ne hnone).words, rfl⟩

theorem Accounts.collects {s : Snapshot} (h : s.Accounts) {t : Token}
    (hocc : ⟨t.text, t.span, .use⟩ ∈ s.program.occurrences) : s.Collects t := by
  obtain ⟨r, hr, hrecords⟩ := Program.exists_reference_of_occurrence hocc rfl
  exact ⟨r, h.references ▸ hr, hrecords.name_eq, hrecords.span_eq⟩

/-- Every name of a document without errors is collected, or it is only a part of something else, or the
tree does not keep it. -/
theorem names_collected (limit : Int) (uri text : String) (version : Int)
    (herrors : ∀ d ∈ (analyze limit uri text version).diagnostics, d.isError = false) (place : Nat)
    (hname : ((analyze limit uri text version).code.token place).isName = true) :
    (analyze limit uri text version).Collects ((analyze limit uri text version).code.token place) ∨
      (analyze limit uri text version).IsPart place ∨
      (analyze limit uri text version).code.Dropped
        (analyze limit uri text version).program.nodes place := by
  have haccounts := analyze_accounts limit uri text version herrors
  cases haccounts.names place hname with
  | use h => exact .inl (haccounts.collects h)
  | field h => exact .inr (.inl (.field h))
  | word h => exact .inr (.inl (.word h (haccounts.words place h)))
  | param h => exact .inr (.inl (.param h))
  | dropped h => exact .inr (.inr (h.mono (List.subset_cons_self _ _)))

/-- Without at signs, periods and commands no name is a part of something else. -/
def IsPlain (s : Snapshot) : Prop :=
  (∀ t ∈ s.code.all, t.is .atSign = false ∧ t.is .period = false) ∧ s.code.commandWords = []

instance (s : Snapshot) : Decidable s.IsPlain :=
  inferInstanceAs (Decidable (_ ∧ _))

theorem IsPlain.not_isPart {s : Snapshot} (h : s.IsPlain) (place : Nat) : ¬s.IsPart place := by
  obtain ⟨hsigns, hwords⟩ := h
  rintro (⟨before, -, hperiod⟩ | ⟨hmem, -⟩ | ⟨sign, -, hparams⟩)
  · exact absurd hperiod (by simp [(hsigns _ (s.code.token_mem_all before)).2])
  · exact absurd hmem (by simp [hwords])
  · exact absurd hparams.atSign (by simp [(hsigns _ (s.code.token_mem_all sign)).1])

/-- A declaration without an initial value, and a switch with one `otherwise`. -/
def keptNames : String := "global x\nswitch x\ncase f(y)\n  z;\notherwise\n  w;\nend"

theorem names_collected_keptNames :
    (∀ d ∈ (analyze 100 "" keptNames 0).diagnostics, d.isError = false) ∧
      ((analyze 100 "" keptNames 0).code.token 17).isName = true ∧
      (analyze 100 "" keptNames 0).Collects ((analyze 100 "" keptNames 0).code.token 17) := by
  obtain ⟨herrors, hname, hplain, hequals, hotherwise⟩ :
      (∀ d ∈ (analyze 100 "" keptNames 0).diagnostics, d.isError = false) ∧
        ((analyze 100 "" keptNames 0).code.token 17).isName = true ∧
        (analyze 100 "" keptNames 0).IsPlain ∧
        (∀ t ∈ (analyze 100 "" keptNames 0).code.all, t.is .equals = false) ∧
        ∀ k < (analyze 100 "" keptNames 0).code.tokens.length, 17 < k →
          ((analyze 100 "" keptNames 0).code.token k).kind ≠ .keyword .otherwiseBranch := by
    decide +kernel
  have hdropped : ¬(analyze 100 "" keptNames 0).code.Dropped
      (analyze 100 "" keptNames 0).program.nodes 17 := by
    intro hdropped
    obtain ⟨k, hsign⟩ | ⟨last, hlt, hlast⟩ := hdropped.cause
    · exact absurd hsign (by simp [hequals _ (Code.token_mem_all _ k)])
    · have hkind : ((analyze 100 "" keptNames 0).code.token last).kind ≠ .eof := by simp [hlast]
      exact hotherwise last (Code.lt_length_of_kind (eof_kind _) hkind) hlt hlast
  have hcollected := names_collected 100 "" keptNames 0 herrors 17 hname
  exact ⟨herrors, hname, hcollected.resolve_right (not_or.mpr ⟨hplain.not_isPart 17, hdropped⟩)⟩

/-- A name of a document without errors that is no part of something else is not collected. -/
structure Misses (s : Snapshot) (place : Nat) : Prop where
  errors : ∀ d ∈ s.diagnostics, d.isError = false
  name : (s.code.token place).isName = true
  part : ¬s.IsPart place
  collects : ¬s.Collects (s.code.token place)

theorem IsPlain.misses {s : Snapshot} {place : Nat}
    (h : s.IsPlain ∧ (∀ d ∈ s.diagnostics, d.isError = false) ∧ (s.code.token place).isName = true ∧
      ¬s.Collects (s.code.token place)) : s.Misses place :=
  ⟨h.2.1, h.2.2.1, h.1.not_isPart place, h.2.2.2⟩

/-- A declaration with an initial value. -/
def initialValue : String := "global x = y;"

/-- A switch with two `otherwise`. -/
def twoOtherwise : String := "switch a\notherwise\nb;\notherwise\nc;\nend"

/-- The initial value `y` is not collected, and neither is `b` behind the first `otherwise`. -/
theorem dropped_names_missed :
    (analyze 100 "" initialValue 0).Misses 3 ∧ (analyze 100 "" twoOtherwise 0).Misses 5 :=
  ⟨IsPlain.misses (by decide +kernel), IsPlain.misses (by decide +kernel)⟩

end Snapshot

end MatrixScript
