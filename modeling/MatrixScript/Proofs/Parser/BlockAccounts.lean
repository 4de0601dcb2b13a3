import MatrixScript.Proofs.Parser.SwitchAccounts

/-! The names in blocks and functions without errors are all accounted for.

Main statement: the names in code that is parsed without errors are all accounted for. -/
namespace MatrixScript

namespace Parser

variable {B : Position → Prop} {code : Code} {ns : List Node} {os os' : List Occurrence} {s₀ s : State}

/-- A statement on one line drops no names. -/
theorem Accounts.ofLine {ns' : List Node} (h : Accounts B code [] (code.Dropped ns) os s₀ s) :
    NodeAccounts B code (ns ++ ns') os s₀ s :=
  NodeAccounts.mono h (List.subset_append_left _ _) (List.Subset.refl _)

/-- All names in whole statements are accounted for. -/
def accountingStatements (hlaid : code.LaidOut B) (s₀ : State) : StatementTracking where
  line ns := accounting B code (code.Dropped ns) s₀
  context _ _ := ()
  code := code
  eof_kind := hlaid.eof_kind
  code_eq h := h.sound.code_eq
  mono h hns _ hos := NodeAccounts.mono h hns hos
  word h hkind _ _ := h.passWord hkind
  takeWord h := h.takeWord
  assign hname := (parseAssignment_accounts hname).mono fun _ _ _ h => h.ofLine
  assignMany hkind hfound := (parseManyAssignment_accounts hlaid hkind hfound).mono fun _ _ _ h => h.ofLine
  declare storage hkind _ := parseDeclaration_accounts storage hkind

theorem parseBlock_accounts (hlaid : code.LaidOut B) (gas : Nat) :
    BlockAccounts B code (parseBlock (.ofCode code) gas) := by
  induction gas with
  | zero => exact fun _ _ _ _ _ => .outOfGas
  | succ gas ih =>
    intro ns os s₀ ends s
    have hblock := (accountingStatements hlaid s₀).parseBlock [] ns os (.ofCode code)
      (fun _ ns os => ih ns os s₀) (fun _ _ _ _ => parseSwitch_accounts ih (parseBlock_lies gas)) ends s
    exact hblock.mono fun _ _ _ h => h.1

end Parser

/-! The whole code. -/

theorem Code.lt_length_of_kind {code : Code} (heof : code.eof.kind = .eof) {k : Nat}
    (hkind : (code.token k).kind ≠ .eof) : k < code.tokens.length := by
  by_contra hle
  refine hkind ?_
  rw [token, List.getElem?_eq_none (Nat.not_lt.mp hle), Option.getD_none, heof]

theorem Code.length_le_of_kind {code : Code} (hkind : ∀ t ∈ code.tokens, t.kind ≠ .eof) {k : Nat}
    (hend : (code.token k).kind = .eof) : code.tokens.length ≤ k := by
  by_contra hlt
  have hget := List.getElem?_eq_getElem (Nat.not_le.mp hlt)
  rw [token, hget, Option.getD_some] at hend
  exact hkind _ (List.mem_of_getElem? hget) hend

/-- The names in code that is parsed without errors are all accounted for. -/
theorem Code.accounted {B : Position → Prop} {code : Code} (hlaid : code.LaidOut B)
    (herrors : code.parse.errors = []) {k : Nat} (hname : (code.token k).isName = true) :
    code.Accounted (code.Dropped (stmtNodes code.parse.program.body)) code.commandWords
      code.parse.program.occurrences k := by
  have hstart : Parser.NodeAccounts B code [] [] (.ofCode code) (.ofCode code) :=
    ⟨.ofCode hlaid, rfl, Nat.le_refl _, nofun, nofun,
      List.Subset.refl _, nofun, nofun⟩
  have haccounts : Parser.NodeAccounts B code (stmtNodes code.parse.program.body)
      code.parse.program.occurrences (.ofCode code) (Parser.runBlock code (code.tokens.length + 1)).2 :=
    (Parser.parseBlock_accounts hlaid _ [] [] (.ofCode code) [] (.ofCode code)).2
      (runBlock_clean hlaid.eof_kind hlaid.kind_ne herrors) hstart
  have hend := (runBlock_at hlaid.eof_kind hlaid.kind_ne herrors).2
  have hle : code.tokens.length ≤ (Parser.runBlock code (code.tokens.length + 1)).2.pos := by
    refine length_le_of_kind hlaid.kind_ne ?_
    rw [← Parser.Accounts.current_eq haccounts]
    exact hend
  have hlt := lt_length_of_kind hlaid.eof_kind (Token.kind_ne_of_isName hname)
  exact haccounts.names k (Nat.zero_le _) (Nat.lt_of_lt_of_le hlt hle) hname

end MatrixScript
