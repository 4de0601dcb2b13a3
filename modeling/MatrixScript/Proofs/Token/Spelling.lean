import MatrixScript.Proofs.Parser.Operator

/-! How the tokens of each class are spelled. -/
namespace MatrixScript

namespace Lexeme

/-- A letter or an underscore, with letters, digits and underscores behind it. -/
inductive IsWord : List Char → Prop where
  | mk {c : Char} {cs : List Char} (hc : isNameStart c = true) (hcs : ∀ d ∈ cs, isNameChar d = true) :
      IsWord (c :: cs)

structure IsDigits (cs : List Char) : Prop where
  ne_nil : cs ≠ []
  isDigit : ∀ c ∈ cs, Text.isDigit c = true

inductive IsFraction : List Char → Prop where
  | none : IsFraction []
  | point {digits : List Char} (h : IsDigits digits) : IsFraction ('.' :: digits)

inductive IsExponent : List Char → Prop where
  | none : IsExponent []
  | plain {mark : Char} {digits : List Char} (hmark : isExponentMark mark = true)
      (h : IsDigits digits) : IsExponent (mark :: digits)
  | signed {mark sign : Char} {digits : List Char} (hmark : isExponentMark mark = true)
      (hsign : isPlusMinus sign = true) (h : IsDigits digits) : IsExponent (mark :: sign :: digits)

/-- Digits, possibly with a fraction and an exponent. -/
inductive IsNumber : List Char → Prop where
  | mk {whole fraction exponent : List Char} (hwhole : IsDigits whole) (hfraction : IsFraction fraction)
      (hexponent : IsExponent exponent) : IsNumber (whole ++ fraction ++ exponent)

def IsQuote (c : Char) : Prop := c = quoteMark ∨ c = doubleQuoteMark

/-- A quote with something behind it that stays on its line. -/
inductive StartsString : List Char → Prop where
  | mk {quote : Char} {body : List Char} (hquote : IsQuote quote) (hline : '\n' ∉ body) :
      StartsString (quote :: body)

/-- The characters that a token of this class can have. -/
def Spells : Token.Kind → List Char → Prop
  | .newline, cs => cs = ['\n']
  | .number, cs => IsNumber cs
  | .string, cs => StartsString cs
  | .identifier, cs => IsWord cs ∧ nameKind (String.ofList cs) = .identifier
  | .native, cs => IsWord cs ∧ nameKind (String.ofList cs) = .native
  | .keyword word, cs => IsWord cs ∧ nameKind (String.ofList cs) = .keyword word
  | .sign sign, cs => cs = [sign.char]
  | .transpose, cs => cs = [quoteMark]
  | _, _ => True

/-! What is read off a text is spelled so. -/

theorem takeWhile_isDigits {d : Char} (hd : Text.isDigit d = true) (cs : List Char) :
    IsDigits ((d :: cs).takeWhile Text.isDigit) := by
  refine ⟨by simp [hd], fun c hc => ?_⟩
  exact List.mem_takeWhile_imp hc

theorem splitFraction_isFraction (cs : List Char) : IsFraction (splitFraction cs).1 := by
  unfold splitFraction
  split
  · rename_i d cs
    split_ifs with hd
    · rw [List.span_eq_takeWhile_dropWhile]
      exact .point (takeWhile_isDigits hd cs)
    · exact .none
  · exact .none

theorem splitExponent_isExponent (cs : List Char) : IsExponent (splitExponent cs).1 := by
  unfold splitExponent
  split
  · rename_i e s d cs
    simp only [List.span_eq_takeWhile_dropWhile]
    split_ifs with hplain hsigned
    · rw [Bool.and_eq_true] at hplain
      exact .plain hplain.1 (takeWhile_isDigits hplain.2 _)
    · simp only [Bool.and_eq_true] at hsigned
      exact .signed hsigned.1.1 hsigned.1.2 (takeWhile_isDigits hsigned.2 cs)
    · exact .none
  · rename_i e d
    split_ifs with hplain
    · rw [Bool.and_eq_true] at hplain
      exact .plain hplain.1 ⟨List.cons_ne_nil _ _, by simpa using hplain.2⟩
    · exact .none
  · exact .none

theorem readNumber_isNumber {c : Char} (hc : Text.isDigit c = true) (cs : List Char) :
    IsNumber (readNumber c cs).chars := by
  simp only [readNumber, splitNumber, List.span_eq_takeWhile_dropWhile]
  exact .mk (takeWhile_isDigits hc cs) (splitFraction_isFraction _) (splitExponent_isExponent _)

theorem newline_not_mem_splitString (quote : Char) (cs : List Char) :
    '\n' ∉ (splitString quote cs).1 := by
  fun_induction splitString quote cs with
  | case1 | case2 | case4 => exact List.not_mem_nil
  | case3 c hc => simpa using Ne.symm hc
  | case5 cs body rest heq hline ih =>
    simp only [List.mem_cons, not_or]
    exact ⟨Ne.symm hline, Ne.symm hline, by simpa [heq] using ih⟩
  | case6 c d cs hline => simpa using Ne.symm hline
  | case7 c d cs hline _ body rest heq ih =>
    rw [List.mem_cons, not_or]
    exact ⟨Ne.symm hline, by simpa [heq] using ih⟩

theorem readName_isWord {c : Char} (hc : isNameStart c = true) (cs : List Char) :
    IsWord (readName c cs).chars := by
  simp only [readName, List.span_eq_takeWhile_dropWhile]
  exact .mk hc fun d hd => List.mem_takeWhile_imp hd

theorem spells_word {cs : List Char} (h : IsWord cs) : Spells (nameKind (String.ofList cs)) cs := by
  cases hkind : nameKind (String.ofList cs) with
  | identifier | native | keyword word => exact ⟨h, hkind⟩
  | sign sign => exact absurd hkind (nameKind_ne_sign _ sign)
  | _ =>
    unfold nameKind at hkind
    split at hkind
    · contradiction
    · split_ifs at hkind

theorem spells_comment (c : Char) (cs : List Char) :
    Spells (readComment c cs).kind (readComment c cs).chars := by
  simp only [readComment]
  split_ifs <;> trivial

theorem read_spells (previous : Option Token.Kind) (touches : Bool) (c : Char) (cs : List Char) :
    Spells (read previous touches (c :: cs)).kind (read previous touches (c :: cs)).chars := by
  by_cases hsign : ∃ sign, (read previous touches (c :: cs)).kind = .sign sign
  · obtain ⟨sign, hsign⟩ := hsign
    rw [hsign]
    exact chars_of_sign hsign
  rw [not_exists] at hsign
  cases hs : Sign.ofChar? c with
  | some sign =>
    simp only [read, hs] at hsign ⊢
    split_ifs at hsign ⊢ with hline
    · rw [hline]
      rfl
    · exact absurd rfl (hsign .percent)
    · exact spells_comment c cs
    · exact absurd rfl (hsign sign)
  | none =>
    simp only [read, hs] at hsign ⊢
    split_ifs at hsign ⊢ with hline _ _ hword hdigit htranspose hquote
    · rw [hline]
      rfl
    · exact absurd rfl (hsign .percent)
    · exact spells_comment c cs
    · exact spells_word (readName_isWord hword cs)
    · exact readNumber_isNumber hdigit cs
    · simp only [Bool.and_eq_true, decide_eq_true_eq] at htranspose
      rw [htranspose.1.1]
      rfl
    · simp only [Bool.or_eq_true, decide_eq_true_eq] at hquote
      exact .mk hquote (newline_not_mem_splitString c cs)
    · trivial

/-! Words and strings stay on their line. -/

theorem IsWord.newline_not_mem {cs : List Char} (h : IsWord cs) : '\n' ∉ cs := by
  obtain ⟨hc, hcs⟩ := h
  rw [List.mem_cons, not_or]
  constructor
  · rintro rfl
    exact absurd hc (by decide)
  · exact fun hmem => absurd (hcs _ hmem) (by decide)

end Lexeme

/-- The text of a token is one that its class can have. -/
def Token.WellSpelled (t : Token) : Prop :=
  Lexeme.Spells t.kind t.text.toList

theorem Reads.wellSpelled {previous : Option Token.Kind} {p : Position} {cs : List Char}
    {ts : List Token} (h : Reads previous p cs ts) : ∀ t ∈ ts, t.WellSpelled := by
  induction h with
  | last => exact List.forall_mem_singleton.mpr trivial
  | token _ _ hl _ ih =>
    refine List.forall_mem_cons.mpr ⟨?_, ih⟩
    subst hl
    simpa [Token.WellSpelled, Lexeme.token] using Lexeme.read_spells _ _ _ _

theorem Token.WellSpelled.isWord {t : Token} (h : t.WellSpelled) (hname : t.isName = true) :
    Lexeme.IsWord t.text.toList ∧ Lexeme.nameKind t.text = t.kind := by
  unfold WellSpelled at h
  unfold isName at hname
  cases hkind : t.kind with
  | identifier | native =>
    rw [hkind] at h
    exact ⟨h.1, String.ofList_toList (s := t.text) ▸ h.2⟩
  | _ =>
    rw [hkind] at hname
    contradiction

end MatrixScript
