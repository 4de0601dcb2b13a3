import MatrixScript.Proofs.Parser.Expression
import MatrixScript.Proofs.Token.Reading

/-! Operators are found by their spelling: the tokens at an operator spell one that has a precedence. -/
namespace MatrixScript

def Sign.char : Sign → Char
  | .equals => '='
  | .plus => '+'
  | .minus => '-'
  | .star => '*'
  | .slash => '/'
  | .backslash => '\\'
  | .percent => '%'
  | .caret => '^'
  | .period => '.'
  | .semicolon => ';'
  | .colon => ':'
  | .comma => ','
  | .atSign => '@'
  | .less => '<'
  | .greater => '>'
  | .ampersand => '&'
  | .bar => '|'
  | .tilde => '~'
  | .bang => '!'
  | .openBracket => '['
  | .closeBracket => ']'
  | .openBrace => '{'
  | .closeBrace => '}'
  | .openParen => '('
  | .closeParen => ')'

theorem Sign.eq_char_of_ofChar? {c : Char} {sign : Sign} (h : ofChar? c = some sign) :
    c = sign.char := by
  unfold ofChar? at h
  split at h <;> first | contradiction | (cases h; rfl)

namespace BinaryOp

/-- How strongly an operator binds, by its spelling. -/
def precedences : List (String × Nat) := [
  ("||", 1), ("&&", 2), ("|", 3), ("&", 4), ("==", 5), ("~=", 5), ("!=", 5), ("<", 5), ("<=", 5),
  (">", 5), (">=", 5), (":", 6), ("+", 7), ("-", 7), ("*", 8), ("/", 8), ("\\", 8), ("%", 8),
  (".*", 8), ("./", 8), (".\\", 8), ("^", 10), (".^", 10)]

theorem lookup_precedences (op : BinaryOp) : precedences.lookup op.spelling = some op.precedence := by
  cases op <;> decide

theorem spelling_of_ofSign? {sign : Sign} {op : BinaryOp} (h : ofSign? sign = some op) :
    op.spelling = String.ofList [sign.char] := by
  cases sign <;> first | contradiction | (cases h; rfl)

theorem spelling_of_ofSigns? {first second : Sign} {op : BinaryOp}
    (h : ofSigns? first second = some op) :
    op.spelling = String.ofList [first.char, second.char] := by
  unfold ofSigns? at h
  split at h <;> first | contradiction | (cases h; rfl)

end BinaryOp

theorem Lexeme.readComment_kind_ne (c : Char) (cs : List Char) (sign : Sign) :
    (readComment c cs).kind ≠ .sign sign := by
  simp only [readComment]
  split_ifs <;> simp

theorem Lexeme.nameKind_ne_sign (word : String) (sign : Sign) : nameKind word ≠ .sign sign := by
  unfold nameKind
  split
  · simp
  · split_ifs <;> simp

/-- A sign is one character. -/
theorem Lexeme.chars_of_sign {previous : Option Token.Kind} {touches : Bool} {cs : List Char}
    {sign : Sign} (h : (read previous touches cs).kind = .sign sign) :
    (read previous touches cs).chars = [sign.char] := by
  cases cs with
  | nil => simp [read] at h
  | cons c cs =>
    cases hs : Sign.ofChar? c with
    | some other =>
      simp only [read, hs] at h ⊢
      split_ifs at h ⊢ with _ hmodulus
      · have hc : c = '%' := by simp_all
        cases h
        rw [hc]
        rfl
      · exact absurd h (readComment_kind_ne c cs sign)
      · cases h
        rw [Sign.eq_char_of_ofChar? hs]
    | none =>
      simp only [read, hs] at h ⊢
      split_ifs at h ⊢ with _ hmodulus
      · have hc : c = '%' := by simp_all
        rw [hc] at hs
        contradiction
      · exact absurd h (readComment_kind_ne c cs sign)
      · exact absurd h (nameKind_ne_sign _ sign)
      · simp [readNumber] at h
      · simp [readString] at h

/-- A token that is a sign has the text of this sign. -/
def Token.SpellsSign (t : Token) : Prop :=
  ∀ sign, t.kind = .sign sign → t.text = String.ofList [sign.char]

theorem Reads.spellsSign {previous : Option Token.Kind} {p : Position} {cs : List Char}
    {ts : List Token} (h : Reads previous p cs ts) :
    ∀ t ∈ ts, t.SpellsSign := by
  induction h with
  | last => exact List.forall_mem_singleton.mpr nofun
  | token _ _ hl _ ih =>
    refine List.forall_mem_cons.mpr ⟨fun sign hk => ?_, ih⟩
    subst hl
    exact congrArg String.ofList (Lexeme.chars_of_sign hk)

/-- The tokens at an operator spell it. -/
theorem Parser.operatorAt_spelling {x y : Token} (hx : x.SpellsSign) (hy : y.SpellsSign)
    {op : BinaryOp} {width : Nat} (h : operatorAt x y = some (op, width)) :
    width = 1 ∧ x.text = op.spelling ∨ width = 2 ∧ x.text ++ y.text = op.spelling := by
  obtain ⟨first, hfirst, ⟨rfl, hop⟩ | ⟨rfl, second, hsecond, hop⟩⟩ := operatorAt_eq_some h
  · exact .inl ⟨rfl, by rw [BinaryOp.spelling_of_ofSign? hop, hx first hfirst]⟩
  · refine .inr ⟨rfl, ?_⟩
    rw [BinaryOp.spelling_of_ofSigns? hop, hx first hfirst, hy second hsecond, ← String.ofList_append]
    rfl

end MatrixScript
