import Mathlib
import MatrixScript.Proofs.Parser.WrittenLine
import MatrixScript.Proofs.Symbol.Ranges

/-! Rendered expressions are parsed again.

Main statement: the rendered text of a bare expression that the parser made stands for the same
expression. Rendering writes no grouping parentheses, so other expressions can change their meaning. -/
namespace MatrixScript

open Piece Source

/-- The values that assignments get are made of texts that tokens can have. -/
theorem assigned_lexical {limit : Int} {text : String} {tokens : List Token}
    (htokens : tokenize limit text = .ok tokens) {stmt : Stmt}
    (hstmt : .stmt stmt ∈ (parse tokens).program.nodes) : ∀ e ∈ stmt.value?, e.Lexical := by
  have hreads := ((tokenize_eq_ok_iff limit text tokens).mp htokens).1
  have hsubset := Code.all_subset hreads
  intro e he
  obtain ⟨-, hspelled, -⟩ := hreads.nodes_placed _ hstmt
  exact (hspelled e he).lexical fun t ht => hreads.wellSpelled t (hsubset t ht)

/-- Rendering preserves the meaning of a bare expression: assigned again, its text is read without any
problem as the same expression. -/
theorem rendered_bare_reread (limit : Int) (text : String) (tokens : List Token)
    (htokens : tokenize limit text = .ok tokens) (stmt : Stmt)
    (hstmt : .stmt stmt ∈ (parse tokens).program.nodes) (e : Expr) (hvalue : stmt.value? = some e)
    (hbare : e.Bare .outside) :
    ∃ tokens', (∀ limit', tokenize limit' ("x = " ++ e.render ++ ";") = .ok tokens' ↔
        tokens'.length ≤ limit') ∧
      (parse tokens').diagnostics = [] ∧
      (parse tokens').program.body.map Stmt.unplaced =
        [.assign ⟨"x", [], .zero, none, false, false⟩ (some e.unplaced) .zero true] := by
  have hlex : e.Lexical := assigned_lexical htokens hstmt e hvalue
  have hname : IsNameText "x" := ⟨⟨rfl, nofun⟩, by decide⟩
  have hspell : ("x = " ++ e.render ++ ";").toList = spell (assignmentPieces "x" e) := by
    rw [spell_assignmentPieces (hbare.renders hlex)]
    rfl
  have hlegible := legible_assignment hname (hbare.isLegible hlex) none []
  obtain ⟨tokens', htokens', heof, hfits⟩ := hlegible.tokenize hspell
  have hread : Parser.ReadsValue ((Code.ofTokens tokens').tokens.length + 1) (e.pieces false) [] e := by
    refine Parser.readsValue_bare hbare hlex ?_
    rw [hfits.length_eq, assignmentPieces, List.length_cons, List.length_cons]
    omega
  obtain ⟨q, ps, hpieces, hfront⟩ := hbare.front hlex false
  change AllFit none (Parser.assignedPieces "x" (e.pieces false)) _ at hfits
  rw [hpieces] at hread hfits
  refine ⟨tokens', htokens', ?_⟩
  exact Parser.parse_of_yields (Parser.yields_program hname hfront.glued_eq heof hfits hread)

/-- The tokens of `y = -a' ^ 2 + c(end);`. -/
def indexedPower : List Token := [
  ⟨.identifier, "y", ⟨⟨0, 0⟩, ⟨0, 1⟩⟩⟩, ⟨.sign .equals, "=", ⟨⟨0, 2⟩, ⟨0, 3⟩⟩⟩,
  ⟨.sign .minus, "-", ⟨⟨0, 4⟩, ⟨0, 5⟩⟩⟩, ⟨.identifier, "a", ⟨⟨0, 5⟩, ⟨0, 6⟩⟩⟩,
  ⟨.transpose, "'", ⟨⟨0, 6⟩, ⟨0, 7⟩⟩⟩, ⟨.sign .caret, "^", ⟨⟨0, 8⟩, ⟨0, 9⟩⟩⟩,
  ⟨.number, "2", ⟨⟨0, 10⟩, ⟨0, 11⟩⟩⟩, ⟨.sign .plus, "+", ⟨⟨0, 12⟩, ⟨0, 13⟩⟩⟩,
  ⟨.identifier, "c", ⟨⟨0, 14⟩, ⟨0, 15⟩⟩⟩, ⟨.sign .openParen, "(", ⟨⟨0, 15⟩, ⟨0, 16⟩⟩⟩,
  ⟨.keyword .endAny, "end", ⟨⟨0, 16⟩, ⟨0, 19⟩⟩⟩, ⟨.sign .closeParen, ")", ⟨⟨0, 19⟩, ⟨0, 20⟩⟩⟩,
  ⟨.sign .semicolon, ";", ⟨⟨0, 20⟩, ⟨0, 21⟩⟩⟩, ⟨.eof, "", ⟨⟨0, 21⟩, ⟨0, 21⟩⟩⟩]

/-- The expression in `indexedPower`. -/
def indexedPowerValue : Expr :=
  .binary .add
    (.prefixed .minus
      (.binary .power
        (.transposed .conjugate
          (.name ⟨"a", [], ⟨⟨0, 5⟩, ⟨0, 6⟩⟩, none, false, false⟩) ⟨⟨0, 5⟩, ⟨0, 7⟩⟩)
        (.number "2" ⟨⟨0, 10⟩, ⟨0, 11⟩⟩) ⟨⟨0, 5⟩, ⟨0, 11⟩⟩)
      ⟨⟨0, 4⟩, ⟨0, 11⟩⟩)
    (.name ⟨"c", [], ⟨⟨0, 14⟩, ⟨0, 20⟩⟩, some [.mark .last ⟨⟨0, 16⟩, ⟨0, 19⟩⟩], false, false⟩)
    ⟨⟨0, 4⟩, ⟨0, 20⟩⟩

def indexedPowerStmt : Stmt :=
  .assign ⟨"y", [], ⟨⟨0, 0⟩, ⟨0, 1⟩⟩, none, false, false⟩ (some indexedPowerValue)
    ⟨⟨0, 0⟩, ⟨0, 20⟩⟩ true

theorem indexedPowerValue_bare : indexedPowerValue.Bare .outside := by
  unfold indexedPowerValue
  refine .binary (.prefixed (.binary (.transposed (.name ?_) rfl _) (.number _ _) ?_ ?_ ?_ _) ?_ _)
    (.name ?_) ?_ ?_ ?_ _
  · exact nofun
  · decide
  · decide
  · exact nofun
  · decide
  · rintro _ ⟨⟩
    exact List.forall_mem_singleton.mpr (.mark (by decide) (by decide) _)
  · decide
  · decide
  · exact nofun

theorem rendered_bare_reread_indexedPower :
    tokenize 14 "y = -a' ^ 2 + c(end);" = .ok indexedPower ∧
      .stmt indexedPowerStmt ∈ (parse indexedPower).program.nodes ∧
      indexedPowerValue.render = "-a' ^ 2 + c(end)" ∧
      ∃ tokens', (∀ limit', tokenize limit' ("x = " ++ indexedPowerValue.render ++ ";") = .ok tokens' ↔
          tokens'.length ≤ limit') ∧
        (parse tokens').diagnostics = [] ∧
        (parse tokens').program.body.map Stmt.unplaced =
          [.assign ⟨"x", [], .zero, none, false, false⟩ (some indexedPowerValue.unplaced) .zero
            true] := by
  have htokens : tokenize 14 "y = -a' ^ 2 + c(end);" = .ok indexedPower := by decide +kernel
  have hbody : (parse indexedPower).program.body = [indexedPowerStmt] := by cbv
  have hstmt : .stmt indexedPowerStmt ∈ (parse indexedPower).program.nodes := by
    rw [Program.nodes, hbody]
    simp [stmtNodes, Stmt.nodes, indexedPowerStmt]
  refine ⟨htokens, hstmt, by decide +kernel, ?_⟩
  exact rendered_bare_reread 14 _ _ htokens _ hstmt _ rfl indexedPowerValue_bare

/-- The tokens of `x = (1 + 2) * 3;`. -/
def groupedSum : List Token := [
  ⟨.identifier, "x", ⟨⟨0, 0⟩, ⟨0, 1⟩⟩⟩, ⟨.sign .equals, "=", ⟨⟨0, 2⟩, ⟨0, 3⟩⟩⟩,
  ⟨.sign .openParen, "(", ⟨⟨0, 4⟩, ⟨0, 5⟩⟩⟩, ⟨.number, "1", ⟨⟨0, 5⟩, ⟨0, 6⟩⟩⟩,
  ⟨.sign .plus, "+", ⟨⟨0, 7⟩, ⟨0, 8⟩⟩⟩, ⟨.number, "2", ⟨⟨0, 9⟩, ⟨0, 10⟩⟩⟩,
  ⟨.sign .closeParen, ")", ⟨⟨0, 10⟩, ⟨0, 11⟩⟩⟩, ⟨.sign .star, "*", ⟨⟨0, 12⟩, ⟨0, 13⟩⟩⟩,
  ⟨.number, "3", ⟨⟨0, 14⟩, ⟨0, 15⟩⟩⟩, ⟨.sign .semicolon, ";", ⟨⟨0, 15⟩, ⟨0, 16⟩⟩⟩,
  ⟨.eof, "", ⟨⟨0, 16⟩, ⟨0, 16⟩⟩⟩]

/-- The tokens of `x = 1 + 2 * 3;`. -/
def ungroupedSum : List Token := [
  ⟨.identifier, "x", ⟨⟨0, 0⟩, ⟨0, 1⟩⟩⟩, ⟨.sign .equals, "=", ⟨⟨0, 2⟩, ⟨0, 3⟩⟩⟩,
  ⟨.number, "1", ⟨⟨0, 4⟩, ⟨0, 5⟩⟩⟩, ⟨.sign .plus, "+", ⟨⟨0, 6⟩, ⟨0, 7⟩⟩⟩,
  ⟨.number, "2", ⟨⟨0, 8⟩, ⟨0, 9⟩⟩⟩, ⟨.sign .star, "*", ⟨⟨0, 10⟩, ⟨0, 11⟩⟩⟩,
  ⟨.number, "3", ⟨⟨0, 12⟩, ⟨0, 13⟩⟩⟩, ⟨.sign .semicolon, ";", ⟨⟨0, 13⟩, ⟨0, 14⟩⟩⟩,
  ⟨.eof, "", ⟨⟨0, 14⟩, ⟨0, 14⟩⟩⟩]

/-- The product in `groupedSum`. -/
def groupedValue : Expr :=
  .binary .multiply
    (.binary .add (.number "1" ⟨⟨0, 5⟩, ⟨0, 6⟩⟩) (.number "2" ⟨⟨0, 9⟩, ⟨0, 10⟩⟩) ⟨⟨0, 5⟩, ⟨0, 10⟩⟩)
    (.number "3" ⟨⟨0, 14⟩, ⟨0, 15⟩⟩) ⟨⟨0, 5⟩, ⟨0, 15⟩⟩

/-- The sum in `ungroupedSum`. -/
def ungroupedValue : Expr :=
  .binary .add (.number "1" ⟨⟨0, 4⟩, ⟨0, 5⟩⟩)
    (.binary .multiply (.number "2" ⟨⟨0, 8⟩, ⟨0, 9⟩⟩) (.number "3" ⟨⟨0, 12⟩, ⟨0, 13⟩⟩)
      ⟨⟨0, 8⟩, ⟨0, 13⟩⟩) ⟨⟨0, 4⟩, ⟨0, 13⟩⟩

/-- Rendering can change the meaning: without its parentheses, a product of a sum is read as a sum. -/
theorem rendered_grouping_lost :
    tokenize 11 "x = (1 + 2) * 3;" = .ok groupedSum ∧ (parse groupedSum).diagnostics = [] ∧
      (parse groupedSum).program.body.map Stmt.value? = [some groupedValue] ∧
      tokenize 9 ("x = " ++ groupedValue.render ++ ";") = .ok ungroupedSum ∧
      (parse ungroupedSum).diagnostics = [] ∧
      (parse ungroupedSum).program.body.map Stmt.value? = [some ungroupedValue] ∧
      ungroupedValue.unplaced ≠ groupedValue.unplaced := by
  refine ⟨by decide +kernel, by decide +kernel, by cbv, by decide +kernel, by decide +kernel, by cbv, ?_⟩
  simp [ungroupedValue, groupedValue, Expr.unplaced]

end MatrixScript
