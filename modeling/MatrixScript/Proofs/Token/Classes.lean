import MatrixScript.Proofs.Token.Piece
import MatrixScript.Proofs.Token.Placement

/-! Which class a token has, and how far it reaches.

Main statement: the first characters of a token and what stands before it decide its class, and no token
could have taken more of the text. -/
namespace MatrixScript

namespace Lexeme

/-! Strings -/

/-- The quote stands here only in pairs. -/
inductive Doubled (quote : Char) : List Char → Prop where
  | nil : Doubled quote []
  | pair {cs : List Char} (h : Doubled quote cs) : Doubled quote (quote :: quote :: cs)
  | other {c : Char} {cs : List Char} (hc : c ≠ quote) (h : Doubled quote cs) : Doubled quote (c :: cs)

/-- Nothing is left of the line. -/
def AtLineEnd (rest : List Char) : Prop := rest = [] ∨ rest.head? = some '\n'

/-- A string that has its closing quote. -/
inductive ClosedString : List Char → List Char → Prop where
  | mk {quote : Char} {body rest : List Char} (hquote : IsQuote quote) (hline : '\n' ∉ body)
      (hbody : Doubled quote body) (hrest : rest.head? ≠ some quote) :
      ClosedString (quote :: (body ++ [quote])) rest

/-- A string whose line ends without a closing quote. -/
inductive OpenString : List Char → List Char → Prop where
  | mk {quote : Char} {body rest : List Char} (hquote : IsQuote quote) (hline : '\n' ∉ body)
      (hbody : Doubled quote body) (hrest : AtLineEnd rest) : OpenString (quote :: body) rest

theorem Doubled.tail {quote c : Char} {cs : List Char} (h : Doubled quote (c :: cs)) (hc : c ≠ quote) :
    Doubled quote cs := by
  cases h with
  | pair => exact absurd rfl hc
  | other _ h => exact h

theorem Doubled.not_append {quote : Char} {body : List Char} (h : Doubled quote body) :
    ¬Doubled quote (body ++ [quote]) := by
  induction h with
  | nil =>
    intro h
    cases h with
    | other hc => exact hc rfl
  | pair _ ih =>
    intro h
    cases h with
    | pair h => exact ih h
    | other hc => exact hc rfl
  | other hc _ ih => exact fun h => ih (h.tail hc)

/-- No string is both. -/
theorem ClosedString.not_open {chars rest rest' : List Char} (h : ClosedString chars rest) :
    ¬OpenString chars rest' := by
  obtain ⟨-, -, hbody, -⟩ := h
  rintro ⟨-, -, hbody', -⟩
  exact hbody.not_append hbody'

/-- Behind its opening quote a string runs to the quote that closes it, or to the end of its line. -/
theorem splitString_spec {quote : Char} (hquote : quote ≠ '\n') (cs : List Char) :
    (∃ body, (splitString quote cs).1 = body ++ [quote] ∧ '\n' ∉ body ∧ Doubled quote body ∧
      (splitString quote cs).2.head? ≠ some quote) ∨
    '\n' ∉ (splitString quote cs).1 ∧ Doubled quote (splitString quote cs).1 ∧
      AtLineEnd (splitString quote cs).2 := by
  fun_induction splitString quote cs with
  | case1 => exact .inr ⟨List.not_mem_nil, .nil, .inl rfl⟩
  | case2 => exact .inr ⟨List.not_mem_nil, .nil, .inr rfl⟩
  | case3 c hc =>
    by_cases heq : c = quote
    · exact .inl ⟨[], by rw [heq]; rfl, List.not_mem_nil, .nil, by simp⟩
    · exact .inr ⟨by simpa using Ne.symm hc, .other heq .nil, .inl rfl⟩
  | case4 => exact .inr ⟨List.not_mem_nil, .nil, .inr rfl⟩
  | case5 cs body rest heq _ ih =>
    rw [heq] at ih
    obtain ⟨front, hfront, hline, hbody, hrest⟩ | ⟨hline, hbody, hrest⟩ := ih
    · refine .inl ⟨quote :: quote :: front, congrArg (quote :: quote :: ·) hfront, ?_, .pair hbody, hrest⟩
      simpa [Ne.symm hquote] using hline
    · refine .inr ⟨?_, .pair hbody, hrest⟩
      simpa [Ne.symm hquote] using hline
  | case6 d cs hd =>
    refine .inl ⟨[], rfl, List.not_mem_nil, .nil, ?_⟩
    simpa using hd
  | case7 c d cs hc hne body rest heq ih =>
    rw [heq] at ih
    obtain ⟨front, hfront, hline, hbody, hrest⟩ | ⟨hline, hbody, hrest⟩ := ih
    · refine .inl ⟨c :: front, congrArg (c :: ·) hfront, ?_, .other hne hbody, hrest⟩
      simpa [Ne.symm hc] using hline
    · refine .inr ⟨?_, .other hne hbody, hrest⟩
      simpa [Ne.symm hc] using hline

theorem readString_spec {quote : Char} (hquote : IsQuote quote) (cs : List Char) :
    ClosedString (readString quote cs).chars (readString quote cs).rest ∨
      OpenString (readString quote cs).chars (readString quote cs).rest := by
  have hne : quote ≠ '\n' := by rcases hquote with rfl | rfl <;> decide
  obtain ⟨body, hbody, hline, hdoubled, hrest⟩ | ⟨hline, hdoubled, hrest⟩ := splitString_spec hne cs
  · refine .inl ?_
    simp only [readString, hbody]
    exact .mk hquote hline hdoubled hrest
  · exact .inr (.mk hquote hline hdoubled hrest)

/-! Numbers -/

theorem length_le_takeWhile {p : Char → Bool} {cs : List Char} (h : ∀ c ∈ cs, p c = true)
    (rest : List Char) : cs.length ≤ ((cs ++ rest).takeWhile p).length := by
  rw [List.takeWhile_append_of_pos h, List.length_append]
  omega

theorem length_le_splitFraction {fraction : List Char} (h : IsFraction fraction) (rest : List Char) :
    fraction.length ≤ (splitFraction (fraction ++ rest)).1.length := by
  cases h with
  | none => exact Nat.zero_le _
  | @point digits hdigits =>
    obtain ⟨d, ds, rfl⟩ := List.exists_cons_of_ne_nil hdigits.ne_nil
    have hle := length_le_takeWhile hdigits.isDigit rest
    rw [List.cons_append, List.cons_append, splitFraction,
      if_pos (hdigits.isDigit d List.mem_cons_self), List.span_eq_takeWhile_dropWhile]
    exact Nat.succ_le_succ hle

theorem length_le_splitExponent {exponent : List Char} (h : IsExponent exponent) (rest : List Char) :
    exponent.length ≤ (splitExponent (exponent ++ rest)).1.length := by
  cases h with
  | none => exact Nat.zero_le _
  | @plain mark digits hmark hdigits =>
    obtain ⟨d, ds, rfl⟩ := List.exists_cons_of_ne_nil hdigits.ne_nil
    have hd := hdigits.isDigit d List.mem_cons_self
    have hle := length_le_takeWhile hdigits.isDigit rest
    cases htail : ds ++ rest with
    | nil =>
      obtain ⟨rfl, rfl⟩ := List.append_eq_nil_iff.mp htail
      simp [splitExponent, hmark, hd]
    | cons c cs =>
      rw [List.cons_append, htail] at hle
      rw [List.cons_append, List.cons_append, htail, splitExponent, hmark, hd,
        List.span_eq_takeWhile_dropWhile]
      exact Nat.succ_le_succ hle
  | @signed mark sign digits hmark hsign hdigits =>
    obtain ⟨d, ds, rfl⟩ := List.exists_cons_of_ne_nil hdigits.ne_nil
    have hd := hdigits.isDigit d List.mem_cons_self
    have hdigit : Text.isDigit sign = false := by
      simp only [isPlusMinus, Bool.or_eq_true, beq_iff_eq] at hsign
      rcases hsign with rfl | rfl <;> decide
    have hle := length_le_takeWhile hdigits.isDigit rest
    have hsplit : (splitExponent (mark :: sign :: d :: (ds ++ rest))).1 =
        mark :: sign :: (d :: (ds ++ rest)).takeWhile Text.isDigit := by
      simp [splitExponent, hmark, hdigit, hsign, hd, List.span_eq_takeWhile_dropWhile]
    rw [List.cons_append, List.cons_append, List.cons_append, hsplit]
    exact Nat.succ_le_succ (Nat.succ_le_succ hle)

theorem IsExponent.eq_nil_or {exponent : List Char} (h : IsExponent exponent) :
    exponent = [] ∨ ∃ mark cs, exponent = mark :: cs ∧ isExponentMark mark = true := by
  cases h with
  | none => exact .inl rfl
  | plain hmark => exact .inr ⟨_, _, rfl, hmark⟩
  | signed hmark => exact .inr ⟨_, _, rfl, hmark⟩

theorem isDigit_eq_false_of_isExponentMark {c : Char} (h : isExponentMark c = true) :
    Text.isDigit c = false := by
  simp only [isExponentMark, Bool.or_eq_true, beq_iff_eq] at h
  rcases h with rfl | rfl <;> decide

theorem splitNumber_of_span {cs whole rest : List Char}
    (h : cs.span Text.isDigit = (whole, rest)) :
    (splitNumber cs).1 =
      whole ++ (splitFraction rest).1 ++ (splitExponent (splitFraction rest).2).1 := by
  simp only [splitNumber, h]

/-- Every number at the beginning of a text is part of the one that is read there. -/
theorem length_le_splitNumber {number : List Char} (h : IsNumber number) (rest : List Char) :
    number.length ≤ (splitNumber (number ++ rest)).1.length := by
  obtain @⟨whole, fraction, exponent, hwhole, hfraction, hexponent⟩ := h
  have happend : whole ++ fraction ++ exponent ++ rest = whole ++ (fraction ++ (exponent ++ rest)) := by
    simp only [List.append_assoc]
  rw [happend]
  obtain rfl | ⟨mark, cs, rfl, hmark⟩ := hexponent.eq_nil_or
  · cases hfraction with
    | none =>
      have hle := length_le_takeWhile hwhole.isDigit rest
      rw [splitNumber_of_span (List.span_eq_takeWhile_dropWhile ..)]
      simp only [List.length_append, List.append_nil, List.nil_append]
      omega
    | @point digits hdigits =>
      have hle := length_le_splitFraction (.point hdigits) rest
      have hpoint : ∀ c ∈ ('.' :: digits ++ ([] ++ rest)).head?, Text.isDigit c = false := by
        simp [show Text.isDigit '.' = false by decide]
      rw [splitNumber_of_span (span_append hwhole.isDigit hpoint)]
      simp only [List.length_append, List.append_nil, List.nil_append]
      omega
  · -- The mark ends the digits before it, so the fraction is read whole and the exponent comes next.
    have hdigit := isDigit_eq_false_of_isExponentMark hmark
    have hle := length_le_splitExponent hexponent rest
    have hmore : splitFraction (fraction ++ (mark :: cs ++ rest)) = (fraction, mark :: cs ++ rest) := by
      cases hfraction with
      | none =>
        refine splitFraction_none fun d ds heq => ?_
        injection heq with hpoint
        rw [hpoint] at hmark
        contradiction
      | point hdigits => exact splitFraction_append_digits hdigits (by simpa using hdigit)
    have hspan : (whole ++ (fraction ++ (mark :: cs ++ rest))).span Text.isDigit =
        (whole, fraction ++ (mark :: cs ++ rest)) := by
      refine span_append hwhole.isDigit ?_
      cases hfraction with
      | none => simpa using hdigit
      | point => simp [show Text.isDigit '.' = false by decide]
    rw [splitNumber_of_span hspan, hmore]
    simp only [List.length_append] at hle ⊢
    omega

/-! The text of a token -/

/-- A word that nothing behind it continues. -/
def EndsWord (chars rest : List Char) : Prop :=
  IsWord chars ∧ ∀ c ∈ rest.head?, isNameChar c = false

/-- A line from its comment sign on. -/
def EndsLine (chars rest : List Char) : Prop := '\n' ∉ chars ∧ AtLineEnd rest

/-- The characters that a token of this class has, and where it ends: nothing behind it could have been
part of it. -/
def Fills : Token.Kind → List Char → List Char → Prop
  | .eof, chars, rest => chars = [] ∧ rest = []
  | .newline, chars, _ => chars = ['\n']
  | .number, chars, rest => IsNumber chars ∧
      ∀ longer, longer <+: chars ++ rest → IsNumber longer → longer.length ≤ chars.length
  | .string, chars, rest => ClosedString chars rest ∨ OpenString chars rest
  | .keyword w, chars, rest => EndsWord chars rest ∧ String.ofList chars = w.spelling
  | .native, chars, rest => EndsWord chars rest ∧ String.ofList chars ∈ nativeFunctions ∧
      ∀ w : Keyword, String.ofList chars ≠ w.spelling
  | .identifier, chars, rest => EndsWord chars rest ∧ String.ofList chars ∉ nativeFunctions ∧
      ∀ w : Keyword, String.ofList chars ≠ w.spelling
  | .comment, chars, rest => EndsLine chars rest ∧ chars[0]? ≠ chars[1]?
  | .codeBreak, chars, rest => EndsLine chars rest ∧ chars[0]? = chars[1]?
  | .sign s, chars, _ => chars = [s.char]
  | .transpose, chars, _ => chars = [quoteMark]
  | .illegal, chars, _ => ∃ c, chars = [c]

theorem head_dropWhile (p : Char → Bool) (cs : List Char) :
    ∀ c ∈ (cs.dropWhile p).head?, p c = false := by
  intro c hc
  have h := List.head?_dropWhile_not p cs
  rw [Option.mem_def.mp hc] at h
  exact h

/-- A word is a keyword, else a native function, else a plain name. -/
theorem nameKind_cases (word : String) :
    (∃ w, nameKind word = .keyword w ∧ word = w.spelling) ∨
    (nameKind word = .native ∧ word ∈ nativeFunctions ∧ ∀ w : Keyword, word ≠ w.spelling) ∨
    nameKind word = .identifier ∧ word ∉ nativeFunctions ∧ ∀ w : Keyword, word ≠ w.spelling := by
  cases hfind : Keyword.ofSpelling? word with
  | some w =>
    have hw : w.spelling = word := by simpa using List.find?_some hfind
    exact .inl ⟨w, by rw [nameKind, hfind], hw.symm⟩
  | none =>
    have hnone : ∀ w : Keyword, word ≠ w.spelling := by
      rintro w rfl
      have hkind := nameKind_spelling w
      rw [nameKind, hfind] at hkind
      split_ifs at hkind
    by_cases hnative : word ∈ nativeFunctions
    · exact .inr (.inl ⟨by simp [nameKind, hfind, hnative], hnative, hnone⟩)
    · exact .inr (.inr ⟨by simp [nameKind, hfind, hnative], hnative, hnone⟩)

theorem readName_fills {c : Char} (hc : isNameStart c = true) (cs : List Char) :
    Fills (readName c cs).kind (readName c cs).chars (readName c cs).rest := by
  have hends : EndsWord (readName c cs).chars (readName c cs).rest := by
    refine ⟨readName_isWord hc cs, ?_⟩
    simp only [readName, List.span_eq_takeWhile_dropWhile]
    exact head_dropWhile isNameChar cs
  have hkind : (readName c cs).kind = nameKind (String.ofList (readName c cs).chars) := rfl
  rw [hkind]
  obtain ⟨w, hw, hspelling⟩ | ⟨hw, hword⟩ | ⟨hw, hword⟩ :=
    nameKind_cases (String.ofList (readName c cs).chars)
  · rw [hw]
    exact ⟨hends, hspelling⟩
  · rw [hw]
    exact ⟨hends, hword⟩
  · rw [hw]
    exact ⟨hends, hword⟩

/-- The sign of a comment is doubled if the second character of the comment says so. -/
theorem head?_eq_some_iff {c : Char} (hc : c ≠ '\n') (cs : List Char) :
    cs.head? = some c ↔
      (c :: cs.takeWhile (· != '\n'))[0]? = (c :: cs.takeWhile (· != '\n'))[1]? := by
  cases cs with
  | nil => simp
  | cons d ds =>
    by_cases hd : d = '\n'
    · simp [hd, Ne.symm hc]
    · simpa [hd] using eq_comm

theorem readComment_fills {c : Char} (hc : c ≠ '\n') (cs : List Char) :
    Fills (readComment c cs).kind (readComment c cs).chars (readComment c cs).rest := by
  have hline : '\n' ∉ c :: cs.takeWhile (· != '\n') := by
    rw [List.mem_cons, not_or]
    refine ⟨Ne.symm hc, fun hmem => ?_⟩
    simpa using List.mem_takeWhile_imp hmem
  have hrest : AtLineEnd (cs.dropWhile (· != '\n')) := by
    cases hdrop : cs.dropWhile (· != '\n') with
    | nil => exact .inl rfl
    | cons d ds =>
      have hd := head_dropWhile (· != '\n') cs d (by rw [hdrop]; rfl)
      exact .inr (congrArg some (by simpa using hd))
  have hsecond := head?_eq_some_iff hc cs
  simp only [readComment, List.span_eq_takeWhile_dropWhile]
  by_cases hbreak : cs.head? = some c
  · rw [if_pos hbreak]
    exact ⟨⟨hline, hrest⟩, hsecond.mp hbreak⟩
  · rw [if_neg hbreak]
    exact ⟨⟨hline, hrest⟩, mt hsecond.mpr hbreak⟩

theorem readNumber_fills {c : Char} (hc : Text.isDigit c = true) (cs : List Char) :
    Fills .number (readNumber c cs).chars (readNumber c cs).rest := by
  refine ⟨readNumber_isNumber hc cs, fun longer hprefix hlonger => ?_⟩
  have happend : (readNumber c cs).chars ++ (readNumber c cs).rest = c :: cs :=
    splitNumber_append (c :: cs)
  obtain ⟨rest, hrest⟩ := hprefix
  have hle := length_le_splitNumber hlonger rest
  rwa [hrest, happend] at hle

theorem read_fills (previous : Option Token.Kind) (touches : Bool) (cs : List Char) :
    Fills (read previous touches cs).kind (read previous touches cs).chars
      (read previous touches cs).rest := by
  cases cs with
  | nil => exact ⟨rfl, rfl⟩
  | cons c cs =>
    cases hs : Sign.ofChar? c with
    | some sign =>
      obtain rfl := Sign.eq_char_of_ofChar? hs
      simp only [read, hs]
      split_ifs with hline hmodulus hcomment
      · rw [hline]; rfl
      · simp at hmodulus
        rw [hmodulus.1]
        rfl
      · exact readComment_fills hline cs
      · rfl
    | none =>
      simp only [read, hs]
      split_ifs with hline hmodulus hcomment hword hdigit htranspose hquote
      · rw [hline]; rfl
      · simp at hmodulus
        rw [hmodulus.1]
        rfl
      · exact readComment_fills hline cs
      · exact readName_fills hword cs
      · exact readNumber_fills hdigit cs
      · simp only [Bool.and_eq_true, decide_eq_true_eq] at htranspose
        rw [htranspose.1.1]
        rfl
      · simp only [Bool.or_eq_true, decide_eq_true_eq] at hquote
        exact readString_spec hquote cs
      · exact ⟨c, rfl⟩

/-! The class of a token -/

def modulusOperands : List Token.Kind := [.identifier, .number]

def transposeOperands : List Token.Kind := [
  .identifier, .native, .number, .transpose, .sign .closeParen, .sign .closeBracket,
  .sign .closeBrace, .sign .period]

/-- What the first character of a token says about its class, behind a token of class `previous`. -/
structure Begins (previous : Option Token.Kind) (touches : Bool) (kind : Token.Kind)
    (first : Option Char) : Prop where
  eof_iff : kind = .eof ↔ first = none
  newline_iff : kind = .newline ↔ first = some '\n'
  name_iff : kind.isName = true ∨ kind.isKeyword = true ↔ ∃ c ∈ first, isNameStart c = true
  number_iff : kind = .number ↔ ∃ c ∈ first, Text.isDigit c = true
  comment_iff : kind.isComment = true ↔ first = some '#' ∨ first = some '%' ∧ kind ≠ .sign .percent
  modulus_iff : kind = .sign .percent ↔
    first = some '%' ∧ ∃ operand ∈ modulusOperands, previous = some operand
  transpose_iff : kind = .transpose ↔ first = some quoteMark ∧ touches = true ∧
    ∃ operand ∈ transposeOperands, previous = some operand
  string_iff : kind = .string ↔
    first = some doubleQuoteMark ∨ first = some quoteMark ∧ kind ≠ .transpose
  sign_iff : ∀ s, s ≠ .percent → (kind = .sign s ↔ first = some s.char)

theorem any_beforeModulus_iff (previous : Option Token.Kind) :
    previous.any beforeModulus = true ↔ ∃ operand ∈ modulusOperands, previous = some operand := by
  cases previous with
  | none => simp
  | some kind => cases kind <;> simp [beforeModulus, modulusOperands]

theorem any_beforeTranspose_iff (previous : Option Token.Kind) :
    previous.any beforeTranspose = true ↔ ∃ operand ∈ transposeOperands, previous = some operand := by
  cases previous with
  | none => simp
  | some kind =>
    cases kind with
    | sign s => cases s <;> simp [beforeTranspose, transposeOperands]
    | _ => simp [beforeTranspose, transposeOperands]

theorem ofChar?_char (s : Sign) : Sign.ofChar? s.char = some s := by
  cases s <;> rfl

theorem char_inj {s t : Sign} : s.char = t.char ↔ s = t := by
  refine ⟨fun h => ?_, congrArg Sign.char⟩
  have hsome := congrArg Sign.ofChar? h
  rwa [ofChar?_char, ofChar?_char, Option.some_inj] at hsome

variable {previous : Option Token.Kind} {touches : Bool}

theorem begins_newline : Begins previous touches .newline (some '\n') := by
  have hsign (s : Sign) : '\n' ≠ s.char := by cases s <;> decide
  have hname : isNameStart '\n' = false := by decide
  have hdigit : Text.isDigit '\n' = false := by decide
  constructor <;> simp [hsign, hname, hdigit, Token.Kind.isName, Token.Kind.isKeyword,
    Token.Kind.isComment, quoteMark, doubleQuoteMark]

theorem begins_sign {s : Sign}
    (h : s = .percent → ∃ operand ∈ modulusOperands, previous = some operand) :
    Begins previous touches (.sign s) (some s.char) := by
  have hname : isNameStart s.char = false := by cases s <;> decide
  have hdigit : Text.isDigit s.char = false := by cases s <;> decide
  have hother : s.char ≠ '\n' ∧ s.char ≠ '#' ∧ s.char ≠ quoteMark ∧ s.char ≠ doubleQuoteMark := by
    cases s <;> decide
  have hpercent : s.char = '%' ↔ s = .percent := char_inj (t := .percent)
  constructor <;> simp [hother, hname, hdigit, hpercent, char_inj, Token.Kind.isName,
    Token.Kind.isKeyword, Token.Kind.isComment]
  exact h

theorem begins_comment {kind : Token.Kind} {c : Char} (hkind : kind.isComment = true)
    (hc : c = '#' ∨ c = '%' ∧ ¬∃ operand ∈ modulusOperands, previous = some operand) :
    Begins previous touches kind (some c) := by
  have hname : isNameStart c = false := by rcases hc with rfl | ⟨rfl, -⟩ <;> decide
  have hdigit : Text.isDigit c = false := by rcases hc with rfl | ⟨rfl, -⟩ <;> decide
  have hother : c ≠ '\n' ∧ c ≠ quoteMark ∧ c ≠ doubleQuoteMark := by
    rcases hc with rfl | ⟨rfl, -⟩ <;> decide
  have hsign (s : Sign) (hs : s ≠ .percent) : c ≠ s.char := by
    rcases hc with rfl | ⟨rfl, -⟩
    · cases s <;> decide
    · exact fun h => hs (char_inj.mp h.symm)
  have hmodulus : ¬(c = '%' ∧ ∃ operand ∈ modulusOperands, previous = some operand) := by
    rintro ⟨rfl, hoperand⟩
    obtain h | ⟨-, h⟩ := hc
    · contradiction
    · exact h hoperand
  have hhead : c = '#' ∨ c = '%' := hc.imp_right And.left
  have hkinds : kind = .comment ∨ kind = .codeBreak := by
    cases kind <;> first | contradiction | simp
  rcases hkinds with rfl | rfl
  · constructor <;> simp [hother, hname, hdigit, hhead, Token.Kind.isName, Token.Kind.isKeyword,
      Token.Kind.isComment]
    · simpa using hmodulus
    · exact hsign
  · constructor <;> simp [hother, hname, hdigit, hhead, Token.Kind.isName, Token.Kind.isKeyword,
      Token.Kind.isComment]
    · simpa using hmodulus
    · exact hsign

/-- A character that is neither a newline nor a sign begins a name, a number, a transpose, a string or
nothing. -/
theorem begins_plain {kind : Token.Kind} {c : Char} (hline : c ≠ '\n') (hhash : c ≠ '#')
    (hplain : Sign.ofChar? c = none)
    (hkind : kind.isComment = false ∧ kind ≠ .newline ∧ kind ≠ .eof ∧ ∀ s, kind ≠ .sign s)
    (hname : kind.isName = true ∨ kind.isKeyword = true ↔ isNameStart c = true)
    (hnumber : kind = .number ↔ Text.isDigit c = true)
    (htranspose : kind = .transpose ↔ c = quoteMark ∧ touches = true ∧
      ∃ operand ∈ transposeOperands, previous = some operand)
    (hstring : kind = .string ↔ c = doubleQuoteMark ∨ c = quoteMark ∧ kind ≠ .transpose) :
    Begins previous touches kind (some c) := by
  have hsign (s : Sign) : c ≠ s.char := by
    rintro rfl
    rw [ofChar?_char] at hplain
    contradiction
  have hpercent : c ≠ '%' := hsign .percent
  constructor <;> simp [hkind, hline, hhash, hsign, hpercent]
  · exact hname
  · exact hnumber
  · exact htranspose
  · exact hstring

theorem begins_name {c : Char} (hline : c ≠ '\n') (hhash : c ≠ '#') (hplain : Sign.ofChar? c = none)
    (hc : isNameStart c = true) (word : String) : Begins previous touches (nameKind word) (some c) := by
  have hdigit : Text.isDigit c ≠ true := by
    intro h
    rw [isNameStart_eq_false_of_isDigit h] at hc
    contradiction
  have hquote : c ≠ quoteMark ∧ c ≠ doubleQuoteMark :=
    ⟨by rintro rfl; exact absurd hc (by decide), by rintro rfl; exact absurd hc (by decide)⟩
  obtain ⟨w, hw, -⟩ | ⟨hw, -⟩ | ⟨hw, -⟩ := nameKind_cases word <;>
    refine begins_plain hline hhash hplain ?_ ?_ ?_ ?_ ?_ <;>
    simp [hw, hc, hdigit, hquote, Token.Kind.isName, Token.Kind.isKeyword, Token.Kind.isComment]

theorem begins_number {c : Char} (hline : c ≠ '\n') (hhash : c ≠ '#') (hplain : Sign.ofChar? c = none)
    (hc : Text.isDigit c = true) : Begins previous touches .number (some c) := by
  have hname := isNameStart_eq_false_of_isDigit hc
  have hquote : c ≠ quoteMark ∧ c ≠ doubleQuoteMark :=
    ⟨by rintro rfl; exact absurd hc (by decide), by rintro rfl; exact absurd hc (by decide)⟩
  refine begins_plain hline hhash hplain ?_ ?_ ?_ ?_ ?_ <;>
    simp [hc, hname, hquote, Token.Kind.isName, Token.Kind.isKeyword, Token.Kind.isComment]

/-- What is left when a character begins neither a name nor a number. -/
theorem begins_other {kind : Token.Kind} {c : Char} (hline : c ≠ '\n') (hhash : c ≠ '#')
    (hplain : Sign.ofChar? c = none) (hname : isNameStart c = false) (hdigit : Text.isDigit c = false)
    (hkind : kind = if c = quoteMark && touches && previous.any beforeTranspose then .transpose
      else if c = quoteMark || c = doubleQuoteMark then .string else .illegal) :
    Begins previous touches kind (some c) := by
  have hoperand := any_beforeTranspose_iff previous
  have hplainKind (h : kind = .transpose ∨ kind = .string ∨ kind = .illegal)
      (htranspose : kind = .transpose ↔ c = quoteMark ∧ touches = true ∧
        ∃ operand ∈ transposeOperands, previous = some operand)
      (hstring : kind = .string ↔ c = doubleQuoteMark ∨ c = quoteMark ∧ kind ≠ .transpose) :
      Begins previous touches kind (some c) := by
    refine begins_plain hline hhash hplain ?_ ?_ ?_ htranspose hstring <;>
      rcases h with rfl | rfl | rfl <;>
      simp [hname, hdigit, Token.Kind.isName, Token.Kind.isKeyword, Token.Kind.isComment]
  simp only [Bool.and_eq_true, Bool.or_eq_true, decide_eq_true_eq, hoperand, and_assoc] at hkind
  split_ifs at hkind with htouches hquote
  · refine hplainKind (.inl hkind) (iff_of_true hkind htouches) (iff_of_false (by simp [hkind]) ?_)
    rw [htouches.1]
    simp [hkind, show quoteMark ≠ doubleQuoteMark by decide]
  · refine hplainKind (.inr (.inl hkind)) (iff_of_false (by simp [hkind]) htouches) ?_
    exact iff_of_true hkind (hquote.symm.imp_right (⟨·, by simp [hkind]⟩))
  · refine hplainKind (.inr (.inr hkind)) (iff_of_false (by simp [hkind]) htouches) ?_
    exact iff_of_false (by simp [hkind]) fun h => hquote (h.symm.imp_left And.left)

theorem read_begins_cons (previous : Option Token.Kind) (touches : Bool) (c : Char) (cs : List Char) :
    Begins previous touches (read previous touches (c :: cs)).kind (some c) := by
  have hmodulus := any_beforeModulus_iff previous
  have hcomment (hc : c = '%' ∨ c = '#') (hno : ¬(c = '%' ∧ previous.any beforeModulus = true)) :
      Begins previous touches (readComment c cs).kind (some c) := by
    refine begins_comment ?_ ?_
    · simp only [readComment]
      split_ifs <;> rfl
    · rcases hc with rfl | rfl
      · exact .inr ⟨rfl, fun h => hno ⟨rfl, hmodulus.mpr h⟩⟩
      · exact .inl rfl
  have hpercent (h : (c = '%' && previous.any beforeModulus) = true) :
      Begins previous touches (.sign .percent) (some c) := by
    simp only [Bool.and_eq_true, decide_eq_true_eq] at h
    rw [h.1]
    exact begins_sign fun _ => hmodulus.mp h.2
  cases hs : Sign.ofChar? c with
  | some sign =>
    obtain rfl := Sign.eq_char_of_ofChar? hs
    simp only [read, hs]
    split_ifs with hline hmod hmark
    · rw [hline]
      exact begins_newline
    · exact hpercent hmod
    · exact hcomment (by simpa using hmark) (by simpa using hmod)
    · refine begins_sign ?_
      rintro rfl
      exact absurd rfl hmark
  | none =>
    by_cases hline : c = '\n'
    · subst hline
      exact begins_newline
    by_cases hhash : c = '#'
    · subst hhash
      exact hcomment (.inr rfl) (by simp)
    rw [read_cons previous touches hline hhash hs]
    split_ifs with hword hdigit htouches hquote
    · exact begins_name hline hhash hs hword _
    · exact begins_number hline hhash hs hdigit
    all_goals
      rw [Bool.not_eq_true] at hword hdigit
      refine begins_other hline hhash hs hword hdigit ?_
    · rw [if_pos htouches]
    · rw [if_neg htouches, if_pos hquote]
      rfl
    · rw [if_neg htouches, if_neg hquote]

theorem read_begins (previous : Option Token.Kind) (touches : Bool) (cs : List Char) :
    Begins previous touches (read previous touches cs).kind (read previous touches cs).chars.head? := by
  cases cs with
  | nil => constructor <;> simp [read, Token.Kind.isName, Token.Kind.isKeyword, Token.Kind.isComment]
  | cons c cs =>
    have hcuts := read_cuts previous touches c cs
    obtain ⟨d, ds, hchars⟩ := List.exists_cons_of_ne_nil hcuts.chars_ne
    have happend := hcuts.append
    rw [hchars, List.cons_append] at happend
    injection happend with hd
    rw [hchars, List.head?_cons, hd]
    exact read_begins_cons previous touches c cs

end Lexeme

/-- The token has the class that its text and the token before it call for, and ends only where it must. -/
structure Token.Classified (previous : Option Token.Kind) (touches : Bool) (t : Token)
    (rest : List Char) : Prop where
  begins : Lexeme.Begins previous touches t.kind t.text.toList.head?
  fills : Lexeme.Fills t.kind t.text.toList rest

theorem ReadOff.fills {text : List Char} {previous : Option Token.Kind} {tokens : List Token}
    {start stop : Nat → Nat} (h : ReadOff previous text tokens start stop) {i : Nat}
    (hi : i < tokens.length) :
    Lexeme.Fills tokens[i].kind tokens[i].text.toList (text.drop (stop (i + 1))) := by
  obtain ⟨l, hl, hkind, htext, hrest⟩ := h i hi
  rw [hkind, htext, String.toList_ofList, hrest, hl]
  exact Lexeme.read_fills _ _ _

theorem ReadOff.begins {text : List Char} {tokens : List Token} {start stop : Nat → Nat}
    (h : ReadOff none text tokens start stop) {i : Nat} (hi : i < tokens.length) :
    Lexeme.Begins ((tokens.take i).getLast?.map (·.kind)) (stop i == start i) tokens[i].kind
      tokens[i].text.toList.head? := by
  obtain ⟨l, hl, hkind, htext, -⟩ := h i hi
  rw [Option.or_none] at hl
  rw [hkind, htext, String.toList_ofList, hl]
  exact Lexeme.read_begins _ _ _

/-- Each token of a text is of its class and as long as it can be. -/
theorem tokenize_classified (text : String) :
    ∃ (tokens : List Token) (start stop : Nat → Nat),
      (∀ limit : Int, tokenize limit text = .ok tokens ↔ tokens.length ≤ limit) ∧
      stop 0 = 0 ∧ Covers text.toList tokens start stop ∧
      ∀ i (hi : i < tokens.length), tokens[i].Classified ((tokens.take i).getLast?.map (·.kind))
        (stop i == start i) (text.toList.drop (stop (i + 1))) := by
  obtain ⟨tokens, hreads⟩ := Reads.exists_tokens none .start text.toList
  obtain ⟨start, stop, hfirst, hcovers, hoff⟩ := hreads.exists_offsets [] rfl
  rw [List.nil_append] at hcovers hoff
  refine ⟨tokens, start, stop, fun limit => ?_, hfirst, hcovers, fun i hi => ?_⟩
  · rw [tokenize_eq_ok_iff, and_iff_right hreads]
  · exact ⟨hoff.begins hi, hoff.fills hi⟩

end MatrixScript
