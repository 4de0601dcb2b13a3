import MatrixScript.Proofs.Parser.NestedBlock

/-! Which assignments are reported to show their value.

Main statement: in code without errors all such assignments in the tree are reported. The other reports are those
of one list of statements for every `otherwise` that the tree lacks. Where in the code these lists stand is left
open. -/
namespace MatrixScript

/-- The places that are reported to show their value. -/
def Parsed.shownPlaces (p : Parsed) : List Span :=
  (p.diagnostics.filter (·.code == .outputNotSuppressed)).map (·.span)

/-- The number of `otherwise` in the code, words of commands apart. -/
def Code.otherwiseCount (code : Code) : Nat :=
  (keptTokens code.commandWords 0 code.tokens).countP (·.kind == .keyword .otherwiseBranch)

namespace Tally

theorem dropped_fst (bodies : List (List Stmt)) :
    (dropped bodies).1 = (bodies.flatMap fun body => (stmtNodes body).filterMap Node.shown? : List Span) := by
  induction bodies with
  | nil => rfl
  | cons body bodies ih =>
    rw [List.flatMap_cons, ← Multiset.coe_add, ← ih]
    change (tally (stmtNodes body) + (0, 1)).1 + (dropped bodies).1 = _
    rw [Prod.fst_add, add_zero]
    rfl

theorem dropped_snd (bodies : List (List Stmt)) :
    (dropped bodies).2 = (bodies.map fun body => (stmtNodes body).countP Node.hasOtherwise + 1).sum := by
  induction bodies with
  | nil => rfl
  | cons body bodies ih =>
    rw [List.map_cons, List.sum_cons, ← ih]
    rfl

end Tally

/-- The assignments in the tree are reported, and no others, unless the tree has less `otherwise` than the code. -/
theorem shown_assignments_reported (limit : Int) (text : String) (tokens : List Token)
    (htokens : tokenize limit text = .ok tokens) (herrors : (parse tokens).errors = []) :
    ∃ dropped : List (List Stmt),
      (parse tokens).shownPlaces.Perm ((parse tokens).program.nodes.filterMap Node.shown? ++
        dropped.flatMap fun body => (stmtNodes body).filterMap Node.shown?) ∧
      (Code.ofTokens tokens).otherwiseCount = (parse tokens).program.nodes.countP Node.hasOtherwise +
        (dropped.map fun body => (stmtNodes body).countP Node.hasOtherwise + 1).sum ∧
      (dropped = [] ↔
        (Code.ofTokens tokens).otherwiseCount = (parse tokens).program.nodes.countP Node.hasOtherwise) := by
  have hreads := ((tokenize_eq_ok_iff limit text tokens).mp htokens).1
  obtain ⟨hat, hend⟩ := Code.runBlock_at (Code.eof_kind _) (Code.kind_ne_of_mem_tokens hreads.endsOnce) herrors
  obtain ⟨dropped, htally⟩ := hat.tally_eq
  have hcount := congrArg Prod.snd htally
  rw [Parser.State.tally, hat.kept_all hend, zero_add, Prod.snd_add, Tally.dropped_snd] at hcount
  refine ⟨dropped, ?_, hcount, ?_⟩
  · have hshown := congrArg Prod.fst htally
    rw [zero_add, Prod.fst_add, Tally.dropped_fst] at hshown
    exact Multiset.coe_eq_coe.mp hshown
  · refine ⟨?_, fun hkept => ?_⟩
    · rintro rfl
      exact hcount
    · have hnone := Nat.add_eq_left.mp (hcount.symm.trans hkept)
      cases dropped with
      | nil => rfl
      | cons body dropped =>
        rw [List.map_cons, List.sum_cons] at hnone
        omega

/-- The tokens of a switch with two `otherwise`, and an assignment behind each. -/
def otherwiseTwice : List Token := [
  ⟨.keyword .switchBlock, "switch", ⟨⟨0, 0⟩, ⟨0, 6⟩⟩⟩, ⟨.identifier, "a", ⟨⟨0, 7⟩, ⟨0, 8⟩⟩⟩,
  ⟨.newline, "\n", ⟨⟨0, 8⟩, ⟨1, 0⟩⟩⟩, ⟨.keyword .otherwiseBranch, "otherwise", ⟨⟨1, 0⟩, ⟨1, 9⟩⟩⟩,
  ⟨.newline, "\n", ⟨⟨1, 9⟩, ⟨2, 0⟩⟩⟩, ⟨.identifier, "b", ⟨⟨2, 0⟩, ⟨2, 1⟩⟩⟩,
  ⟨.sign .equals, "=", ⟨⟨2, 2⟩, ⟨2, 3⟩⟩⟩, ⟨.number, "1", ⟨⟨2, 4⟩, ⟨2, 5⟩⟩⟩,
  ⟨.newline, "\n", ⟨⟨2, 5⟩, ⟨3, 0⟩⟩⟩, ⟨.keyword .otherwiseBranch, "otherwise", ⟨⟨3, 0⟩, ⟨3, 9⟩⟩⟩,
  ⟨.newline, "\n", ⟨⟨3, 9⟩, ⟨4, 0⟩⟩⟩, ⟨.identifier, "c", ⟨⟨4, 0⟩, ⟨4, 1⟩⟩⟩,
  ⟨.sign .equals, "=", ⟨⟨4, 2⟩, ⟨4, 3⟩⟩⟩, ⟨.number, "2", ⟨⟨4, 4⟩, ⟨4, 5⟩⟩⟩,
  ⟨.newline, "\n", ⟨⟨4, 5⟩, ⟨5, 0⟩⟩⟩, ⟨.keyword .endAny, "end", ⟨⟨5, 0⟩, ⟨5, 3⟩⟩⟩,
  ⟨.eof, "", ⟨⟨5, 3⟩, ⟨5, 3⟩⟩⟩]

theorem otherwiseTwice_read :
    tokenize 17 "switch a\notherwise\nb = 1\notherwise\nc = 2\nend" = .ok otherwiseTwice ∧
      (parse otherwiseTwice).errors = [] ∧
      (parse otherwiseTwice).shownPlaces = [⟨⟨2, 0⟩, ⟨2, 5⟩⟩, ⟨⟨4, 0⟩, ⟨4, 5⟩⟩] ∧
      (parse otherwiseTwice).program.nodes.filterMap Node.shown? = [⟨⟨4, 0⟩, ⟨4, 5⟩⟩] := by
  decide +kernel

theorem shown_assignments_reported_otherwiseTwice : ∃ dropped : List (List Stmt),
    dropped ≠ [] ∧ (parse otherwiseTwice).shownPlaces.Perm ((parse otherwiseTwice).program.nodes.filterMap Node.shown? ++
      dropped.flatMap fun body => (stmtNodes body).filterMap Node.shown?) := by
  obtain ⟨htokens, herrors, hplaces, hnodes⟩ := otherwiseTwice_read
  obtain ⟨dropped, hperm, -⟩ := shown_assignments_reported 17 _ otherwiseTwice htokens herrors
  refine ⟨dropped, ?_, hperm⟩
  rintro rfl
  rw [hplaces, hnodes] at hperm
  exact absurd hperm.length_eq (by decide)

/-- The first assignment is reported and does not get into the tree. -/
theorem first_otherwise_lost :
    (parse otherwiseTwice).errors = [] ∧
      (parse otherwiseTwice).shownPlaces = [⟨⟨2, 0⟩, ⟨2, 5⟩⟩, ⟨⟨4, 0⟩, ⟨4, 5⟩⟩] ∧
      (parse otherwiseTwice).program.nodes.filterMap Node.shown? = [⟨⟨4, 0⟩, ⟨4, 5⟩⟩] :=
  otherwiseTwice_read.2

end MatrixScript
