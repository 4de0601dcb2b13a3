import MatrixScript.Proofs.Parser.Code
import MatrixScript.Proofs.Token.Spelling

/-! Texts that are written token by token are read as these tokens. -/
namespace MatrixScript

variable {previous : Option Token.Kind} {c : Char} {cs rest : List Char} {ps : List Piece}

namespace Lexeme

/-- What stands behind a token of this class cannot be taken for a part of it. -/
def StopsAt : Token.Kind → List Char → Prop
  | .identifier, rest | .native, rest | .keyword _, rest => ∀ c ∈ rest.head?, isNameChar c = false
  | .number, rest =>
    (∀ c ∈ rest.head?, Text.isDigit c = false ∧ isExponentMark c = false) ∧
      ∀ d ds, rest = '.' :: d :: ds → Text.isDigit d = false
  | .string, rest => ∀ c ∈ rest.head?, ¬IsQuote c
  | _, _ => True

/-- A character that belongs to no token before it. -/
def isStop (c : Char) : Bool :=
  !isNameChar c && !Text.isDigit c && c != '.' && c != quoteMark && c != doubleQuoteMark

def Stops (rest : List Char) : Prop := ∀ c ∈ rest.head?, isStop c = true

theorem Stops.stopsAt (h : Stops rest) (kind : Token.Kind) : StopsAt kind rest := by
  have hhead : ∀ c ∈ rest.head?, isNameChar c = false ∧ Text.isDigit c = false ∧ c ≠ '.' ∧ ¬IsQuote c := by
    intro c hc
    have hstop := h c hc
    simp only [isStop, Bool.and_eq_true, Bool.not_eq_true', bne_iff_ne] at hstop
    exact ⟨hstop.1.1.1.1, hstop.1.1.1.2, hstop.1.1.2, not_or.mpr ⟨hstop.1.2, hstop.2⟩⟩
  cases kind with
  | identifier | native | keyword => exact fun c hc => (hhead c hc).1
  | string => exact fun c hc => (hhead c hc).2.2.2
  | number =>
    refine ⟨fun c hc => ⟨(hhead c hc).2.1, ?_⟩, fun d ds hrest => ?_⟩
    · by_contra hmark
      simp only [isExponentMark, Bool.not_eq_false, Bool.or_eq_true, beq_iff_eq] at hmark
      have hname := (hhead c hc).1
      rcases hmark with rfl | rfl <;> exact absurd hname (by decide)
    · exact absurd rfl (hhead '.' (by rw [hrest]; rfl)).2.2.1
  | _ => trivial

/-- The body of a string behind its quote ends with that quote, and has it doubled elsewhere. -/
def closes (quote : Char) : List Char → Bool
  | [] => false
  | [c] => c == quote
  | c :: d :: cs =>
    if c == quote then d == quote && closes quote cs else closes quote (d :: cs)

theorem span_append {p : Char → Bool} (hcs : ∀ c ∈ cs, p c = true)
    (hrest : ∀ c ∈ rest.head?, p c = false) : (cs ++ rest).span p = (cs, rest) := by
  rw [List.span_eq_takeWhile_dropWhile, List.takeWhile_append_of_pos hcs,
    List.dropWhile_append_of_pos hcs]
  cases rest with
  | nil => simp
  | cons c rest => simp [hrest c rfl]

theorem ofChar?_eq_none_of_isNameStart (h : isNameStart c = true) :
    Sign.ofChar? c = none := by
  unfold Sign.ofChar?
  split <;> first | rfl | exact absurd h (by decide)

theorem ofChar?_eq_none_of_isDigit (h : Text.isDigit c = true) :
    Sign.ofChar? c = none := by
  unfold Sign.ofChar?
  split <;> first | rfl | exact absurd h (by decide)

theorem isNameStart_eq_false_of_isDigit (h : Text.isDigit c = true) :
    isNameStart c = false := by
  by_contra hname
  have hcode : 48 ≤ c.toNat ∧ c.toNat ≤ 57 ∨ 127 < c.toNat := by
    simp only [Text.isDigit, Char.isDigit, Bool.or_eq_true, Bool.and_eq_true, decide_eq_true_eq,
      ge_iff_le, UInt32.le_iff_toNat_le] at h
    exact h.imp id And.left
  have hletter : 65 ≤ c.toNat ∧ c.toNat ≤ 90 ∨ 97 ≤ c.toNat ∧ c.toNat ≤ 122 ∨ c.toNat = 95 := by
    change ¬((decide (65 ≤ c.val ∧ c.val ≤ 90) || decide (97 ≤ c.val) && decide (c.val ≤ 122)) ||
      c == '_') = false at hname
    simp only [Bool.not_eq_false, Bool.or_eq_true, Bool.and_eq_true, decide_eq_true_eq, beq_iff_eq,
      UInt32.le_iff_toNat_le, or_assoc] at hname
    exact hname.imp id (Or.imp id (congrArg Char.toNat))
  omega

theorem ofChar?_eq_none_of_isQuote (h : IsQuote c) : Sign.ofChar? c = none := by
  rcases h with rfl | rfl <;> rfl

variable (previous : Option Token.Kind) (touches : Bool)

/-- What is neither a newline, nor a comment, nor a sign. -/
theorem read_cons (hline : c ≠ '\n') (hhash : c ≠ '#') (hsign : Sign.ofChar? c = none)
    (cs : List Char) :
    read previous touches (c :: cs) =
      if isNameStart c then readName c cs
      else if Text.isDigit c then readNumber c cs
      else if c = quoteMark && touches && previous.any beforeTranspose then ⟨.transpose, [c], cs⟩
      else if c = quoteMark || c = doubleQuoteMark then readString c cs
      else ⟨.illegal, [c], cs⟩ := by
  have hpercent : c ≠ '%' := by
    rintro rfl
    contradiction
  simp [read, hline, hpercent, hhash, hsign]

theorem read_word (h : IsWord cs) (hrest : ∀ c ∈ rest.head?, isNameChar c = false) :
    read previous touches (cs ++ rest) = ⟨nameKind (String.ofList cs), cs, rest⟩ := by
  obtain @⟨c, cs, hc, hcs⟩ := h
  have hline : c ≠ '\n' := by rintro rfl; exact absurd hc (by decide)
  have hhash : c ≠ '#' := by rintro rfl; exact absurd hc (by decide)
  rw [List.cons_append, read_cons _ _ hline hhash (ofChar?_eq_none_of_isNameStart hc), if_pos hc,
    readName, span_append hcs hrest]

theorem splitFraction_append_digits {digits : List Char} (h : IsDigits digits)
    (hrest : ∀ c ∈ rest.head?, Text.isDigit c = false) :
    splitFraction ('.' :: digits ++ rest) = ('.' :: digits, rest) := by
  obtain ⟨d, ds, rfl⟩ := List.exists_cons_of_ne_nil h.ne_nil
  have hspan := span_append h.isDigit hrest
  rw [List.cons_append] at hspan
  rw [List.cons_append, List.cons_append, splitFraction, if_pos (h.isDigit d List.mem_cons_self), hspan]

theorem splitFraction_none (h : ∀ d ds, cs = '.' :: d :: ds → Text.isDigit d = false) :
    splitFraction cs = ([], cs) := by
  unfold splitFraction
  split
  · rw [if_neg]
    simp [h _ _ rfl]
  · rfl

theorem splitExponent_none (h : ∀ c ∈ cs.head?, isExponentMark c = false) :
    splitExponent cs = ([], cs) := by
  unfold splitExponent
  split
  · simp [h _ rfl]
  · simp [h _ rfl]
  · rfl

theorem splitExponent_plain {mark : Char} {digits : List Char} (hmark : isExponentMark mark = true)
    (h : IsDigits digits) (hrest : ∀ c ∈ rest.head?, Text.isDigit c = false) :
    splitExponent (mark :: digits ++ rest) = (mark :: digits, rest) := by
  obtain ⟨d, ds, rfl⟩ := List.exists_cons_of_ne_nil h.ne_nil
  have hd := h.isDigit d List.mem_cons_self
  have hspan := span_append h.isDigit hrest
  cases htail : ds ++ rest with
  | nil =>
    obtain ⟨rfl, rfl⟩ := List.append_eq_nil_iff.mp htail
    simp [splitExponent, hmark, hd]
  | cons c cs =>
    rw [List.cons_append, htail] at hspan
    rw [List.cons_append, List.cons_append, htail, splitExponent, hspan, hmark, hd]
    rfl

theorem splitExponent_signed {mark sign : Char} {digits : List Char}
    (hmark : isExponentMark mark = true) (hsign : isPlusMinus sign = true) (h : IsDigits digits)
    (hrest : ∀ c ∈ rest.head?, Text.isDigit c = false) :
    splitExponent (mark :: sign :: digits ++ rest) = (mark :: sign :: digits, rest) := by
  obtain ⟨d, ds, rfl⟩ := List.exists_cons_of_ne_nil h.ne_nil
  have hd := h.isDigit d List.mem_cons_self
  have hdigit : Text.isDigit sign = false := by
    simp only [isPlusMinus, Bool.or_eq_true, beq_iff_eq] at hsign
    rcases hsign with rfl | rfl <;> decide
  have hspan := span_append h.isDigit hrest
  rw [List.cons_append] at hspan
  simp only [List.cons_append]
  rw [splitExponent, hspan, hmark, hdigit, hsign, hd]
  rfl

/-- No digit begins an exponent. -/
theorem IsExponent.head_not_digit {exponent : List Char} (h : IsExponent exponent)
    (hrest : ∀ c ∈ rest.head?, Text.isDigit c = false) :
    ∀ c ∈ (exponent ++ rest).head?, Text.isDigit c = false := by
  have hmark {mark : Char} (h : isExponentMark mark = true) : Text.isDigit mark = false := by
    simp only [isExponentMark, Bool.or_eq_true, beq_iff_eq] at h
    rcases h with rfl | rfl <;> decide
  cases h with
  | none => exact hrest
  | plain h => simpa using hmark h
  | signed h => simpa using hmark h

theorem splitExponent_of_isExponent {exponent : List Char} (h : IsExponent exponent)
    (hrest : StopsAt .number rest) : splitExponent (exponent ++ rest) = (exponent, rest) := by
  have hdigit := fun c hc => (hrest.1 c hc).1
  cases h with
  | none => exact splitExponent_none fun c hc => (hrest.1 c hc).2
  | plain hmark h => exact splitExponent_plain hmark h hdigit
  | signed hmark hsign h => exact splitExponent_signed hmark hsign h hdigit

theorem splitFraction_of_isExponent {exponent : List Char} (h : IsExponent exponent)
    (hrest : StopsAt .number rest) :
    splitFraction (exponent ++ rest) = ([], exponent ++ rest) := by
  have hmark : isExponentMark '.' = false := by decide
  refine splitFraction_none fun d ds heq => ?_
  cases h with
  | none => exact hrest.2 d ds heq
  | plain h | signed h =>
    injection heq with hhead
    rw [hhead, hmark] at h
    contradiction

theorem splitNumber_of_isNumber (h : IsNumber cs) (hrest : StopsAt .number rest) :
    splitNumber (cs ++ rest) = (cs, rest) := by
  obtain @⟨whole, fraction, exponent, hwhole, hfraction, hexponent⟩ := h
  have hhead := hexponent.head_not_digit fun c hc => (hrest.1 c hc).1
  have hmore : splitFraction (fraction ++ (exponent ++ rest)) = (fraction, exponent ++ rest) := by
    cases hfraction with
    | none =>
      rw [List.nil_append]
      exact splitFraction_of_isExponent hexponent hrest
    | point hdigits => exact splitFraction_append_digits hdigits hhead
  have hspan : (whole ++ (fraction ++ (exponent ++ rest))).span Text.isDigit =
      (whole, fraction ++ (exponent ++ rest)) := by
    refine span_append hwhole.isDigit ?_
    cases hfraction with
    | none => exact hhead
    | point => simp [show Text.isDigit '.' = false by decide]
  rw [splitNumber, List.append_assoc, List.append_assoc, hspan]
  simp only [hmore, splitExponent_of_isExponent hexponent hrest, List.append_assoc]

theorem read_number (h : IsNumber cs) (hrest : StopsAt .number rest) :
    read previous touches (cs ++ rest) = ⟨.number, cs, rest⟩ := by
  have hsplit := splitNumber_of_isNumber h hrest
  obtain @⟨whole, fraction, exponent, hwhole, -, -⟩ := h
  obtain ⟨d, ds, rfl⟩ := List.exists_cons_of_ne_nil hwhole.ne_nil
  have hd := hwhole.isDigit d List.mem_cons_self
  have hline : d ≠ '\n' := by rintro rfl; exact absurd hd (by decide)
  have hhash : d ≠ '#' := by rintro rfl; exact absurd hd (by decide)
  have hname := isNameStart_eq_false_of_isDigit hd
  simp only [List.cons_append] at hsplit ⊢
  rw [read_cons _ _ hline hhash (ofChar?_eq_none_of_isDigit hd), hname, if_neg (by decide), if_pos hd,
    readNumber, hsplit]

theorem splitString_of_closes {quote : Char} {body : List Char} (hline : '\n' ∉ body)
    (hcloses : closes quote body = true) (hrest : ∀ c ∈ rest.head?, c ≠ quote) :
    splitString quote (body ++ rest) = (body, rest) := by
  fun_induction closes quote body with
  | case1 => contradiction
  | case2 c =>
    rw [beq_iff_eq] at hcloses
    subst hcloses
    have hc : c ≠ '\n' := fun h => hline (by simp [h])
    cases rest with
    | nil => simp [splitString, hc]
    | cons d rest => simp [splitString, hc, hrest d rfl]
  | case3 c d cs hc ih =>
    rw [beq_iff_eq] at hc
    subst hc
    simp only [Bool.and_eq_true, beq_iff_eq] at hcloses
    obtain ⟨rfl, hcloses⟩ := hcloses
    simp only [List.mem_cons, not_or] at hline
    simp only [List.cons_append]
    rw [splitString, if_neg (Ne.symm hline.1), if_pos rfl, if_pos rfl, ih hline.2.2 hcloses]
  | case4 c d cs hc ih =>
    rw [Bool.not_eq_true, beq_eq_false_iff_ne] at hc
    rw [List.mem_cons, not_or] at hline
    have hmore := ih hline.2 hcloses
    simp only [List.cons_append] at hmore ⊢
    rw [splitString, if_neg (Ne.symm hline.1), if_neg hc, hmore]

theorem getLast?_of_closes {quote : Char} {body : List Char} (h : closes quote body = true) :
    body.getLast? = some quote := by
  fun_induction closes quote body with
  | case1 => contradiction
  | case2 c => simpa using h
  | case3 c d cs hc ih =>
    rw [Bool.and_eq_true] at h
    have hmore := ih h.2
    cases cs with
    | nil => contradiction
    | cons e cs => simpa using hmore
  | case4 c d cs hc ih => simpa using ih h

theorem read_string {quote : Char} {body : List Char} (hquote : IsQuote quote) (hline : '\n' ∉ body)
    (hcloses : closes quote body = true) (hrest : ∀ c ∈ rest.head?, c ≠ quote)
    (htouches : touches = true → previous.any beforeTranspose = false) :
    read previous touches (quote :: body ++ rest) = ⟨.string, quote :: body, rest⟩ := by
  have hnewline : quote ≠ '\n' := by rcases hquote with rfl | rfl <;> decide
  have hhash : quote ≠ '#' := by rcases hquote with rfl | rfl <;> decide
  have hname : isNameStart quote = false := by rcases hquote with rfl | rfl <;> decide
  have hdigit : Text.isDigit quote = false := by rcases hquote with rfl | rfl <;> decide
  have hstring : (quote = quoteMark || quote = doubleQuoteMark) = true := by
    rcases hquote with rfl | rfl <;> decide
  have htranspose : (quote = quoteMark && touches && previous.any beforeTranspose) = false := by
    cases touches with
    | false => simp
    | true => simp [htouches rfl]
  rw [List.cons_append, read_cons _ _ hnewline hhash (ofChar?_eq_none_of_isQuote hquote), hname, hdigit,
    htranspose, hstring, readString, splitString_of_closes hline hcloses hrest]
  rfl

theorem read_sign {sign : Sign} (h : sign = .percent → previous.any beforeModulus = true)
    (rest : List Char) : read previous touches (sign.char :: rest) = ⟨.sign sign, [sign.char], rest⟩ := by
  cases sign with
  | percent => simp [read, Sign.char, h rfl]
  | _ => rfl

theorem nameKind_spelling (w : Keyword) : nameKind w.spelling = .keyword w := by
  have hfind : Keyword.ofSpelling? w.spelling = some w := by cases w <;> decide
  rw [nameKind, hfind]

theorem read_transpose (h : previous.any beforeTranspose = true) (rest : List Char) :
    read previous true (quoteMark :: rest) = ⟨.transpose, [quoteMark], rest⟩ := by
  rw [read_cons _ _ (by decide) (by decide) rfl, h]
  rfl

end Lexeme

/-- A token that has no place yet. Nothing stands before it if it is `glued`, else one blank. -/
structure Piece where
  glued : Bool
  kind : Token.Kind
  text : String

namespace Piece

def sign (glued : Bool) (sign : Sign) : Piece := ⟨glued, .sign sign, String.ofList [sign.char]⟩

def word (glued : Bool) (word : String) : Piece := ⟨glued, Lexeme.nameKind word, word⟩

def newline : Piece := ⟨true, .newline, "\n"⟩

/-- What stands between two pieces. -/
def gap (glued : Bool) : List Char := if glued then [] else [' ']

def blanks (p : Piece) : List Char := gap p.glued

def chars (p : Piece) : List Char := p.blanks ++ p.text.toList

def spell (ps : List Piece) : List Char := ps.flatMap chars

@[simp] theorem chars_sign (glued : Bool) (s : Sign) : (sign glued s).chars = gap glued ++ [s.char] := by
  simp [sign, chars, blanks]

@[simp] theorem chars_word (glued : Bool) (w : String) :
    (word glued w).chars = gap glued ++ w.toList :=
  rfl

@[simp] theorem gap_true : gap true = [] := rfl

@[simp] theorem gap_false : gap false = [' '] := rfl

@[simp] theorem spell_nil : spell [] = [] := rfl

@[simp] theorem spell_cons (p : Piece) (ps : List Piece) : spell (p :: ps) = p.chars ++ spell ps :=
  List.flatMap_cons

@[simp] theorem spell_append (ps qs : List Piece) : spell (ps ++ qs) = spell ps ++ spell qs :=
  List.flatMap_append

/-! Reading pieces off a text. -/

/-- Behind a token of class `previous` and in front of `rest`, the piece is read off the text. It is
no comment, and no point that could begin a continuation. -/
structure Legible (previous : Option Token.Kind) (p : Piece) (rest : List Char) : Prop where
  starts : ∃ c cs, p.text.toList = c :: cs ∧ Lexeme.isSkipped c = false
  read_eq : Lexeme.read previous p.glued (p.text.toList ++ rest) = ⟨p.kind, p.text.toList, rest⟩
  isComment : p.kind.isComment = false
  point : p.kind = .sign .period → ∀ c ∈ rest.head?, c ≠ '.'

def AllLegible : Option Token.Kind → List Piece → List Char → Prop
  | _, [], _ => True
  | previous, p :: ps, rest => p.Legible previous (spell ps ++ rest) ∧ AllLegible (some p.kind) ps rest

theorem legible_sign (glued : Bool) {s : Sign}
    (hmodulus : s = .percent → previous.any Lexeme.beforeModulus = true)
    (hpoint : s = .period → ∀ c ∈ rest.head?, c ≠ '.') : (sign glued s).Legible previous rest where
  starts := ⟨s.char, [], by simp [sign], by cases s <;> rfl⟩
  read_eq := by simp [sign, Lexeme.read_sign _ _ hmodulus]
  isComment := rfl
  point := fun h => hpoint (by simpa [sign] using h)

theorem legible_word (glued : Bool) {w : String} (hword : Lexeme.IsWord w.toList)
    (hrest : ∀ c ∈ rest.head?, Lexeme.isNameChar c = false) : (word glued w).Legible previous rest where
  starts := by
    generalize hchars : w.toList = chars at hword
    obtain @⟨c, cs, hc, -⟩ := hword
    refine ⟨c, cs, hchars, ?_⟩
    by_contra hskipped
    simp only [Lexeme.isSkipped, Bool.not_eq_false, Bool.or_eq_true, beq_iff_eq] at hskipped
    rcases hskipped with ((rfl | rfl) | rfl) | rfl <;> exact absurd hc (by decide)
  read_eq := by simp [word, Lexeme.read_word _ _ hword hrest]
  isComment := by
    unfold word Lexeme.nameKind
    dsimp only
    split
    · rfl
    · split_ifs <;> rfl
  point := fun h => absurd h (Lexeme.nameKind_ne_sign _ _)

theorem legible_number (glued : Bool) {text : String} (h : Lexeme.IsNumber text.toList)
    (hrest : Lexeme.StopsAt .number rest) :
    Legible previous ⟨glued, .number, text⟩ rest where
  starts := by
    generalize hchars : text.toList = chars at h
    obtain @⟨whole, fraction, exponent, hwhole, -, -⟩ := h
    obtain ⟨d, ds, rfl⟩ := List.exists_cons_of_ne_nil hwhole.ne_nil
    have hd := hwhole.isDigit d List.mem_cons_self
    refine ⟨d, _, rfl, ?_⟩
    by_contra hskipped
    simp only [Lexeme.isSkipped, Bool.not_eq_false, Bool.or_eq_true, beq_iff_eq] at hskipped
    rcases hskipped with ((rfl | rfl) | rfl) | rfl <;> exact absurd hd (by decide)
  read_eq := Lexeme.read_number _ _ h hrest
  isComment := rfl
  point := nofun

theorem legible_transpose {kind : Token.Kind} (h : Lexeme.beforeTranspose kind = true)
    (rest : List Char) : Legible (some kind) ⟨true, .transpose, "'"⟩ rest where
  starts := ⟨Lexeme.quoteMark, [], rfl, rfl⟩
  read_eq := Lexeme.read_transpose (some kind) h rest
  isComment := rfl
  point := nofun

theorem legible_newline (previous : Option Token.Kind) (rest : List Char) :
    newline.Legible previous rest where
  starts := ⟨'\n', [], rfl, rfl⟩
  read_eq := rfl
  isComment := rfl
  point := nofun

/-- A sign that is no point, or stands behind a blank, stops what stands before it. -/
theorem stops_sign (glued : Bool) (s : Sign) (h : s = .period → glued = false) (ps : List Piece)
    (rest : List Char) : Lexeme.Stops (spell (sign glued s :: ps) ++ rest) := by
  intro c hc
  cases glued with
  | false =>
    obtain rfl : ' ' = c := by simpa using hc
    decide
  | true =>
    obtain rfl : s.char = c := by simpa using hc
    cases s <;> first | decide | exact absurd (h rfl) (by decide)

/-- The class of the last piece, or else `previous`. -/
def lastKind (previous : Option Token.Kind) : List Piece → Option Token.Kind
  | [] => previous
  | p :: ps => lastKind (some p.kind) ps

theorem lastKind_append (previous : Option Token.Kind) (ps qs : List Piece) :
    lastKind previous (ps ++ qs) = lastKind (lastKind previous ps) qs := by
  induction ps generalizing previous with
  | nil => rfl
  | cons p ps ih => exact ih _

theorem allLegible_append {qs : List Piece} :
    AllLegible previous (ps ++ qs) rest ↔
      AllLegible previous ps (spell qs ++ rest) ∧ AllLegible (lastKind previous ps) qs rest := by
  induction ps generalizing previous with
  | nil => simp [AllLegible, lastKind]
  | cons p ps ih => simp only [List.cons_append, AllLegible, lastKind, ih, spell_append,
      List.append_assoc, and_assoc]

/-- The token that a piece becomes at a place. -/
def token (p : Piece) (place : Position) : Token :=
  ⟨p.kind, p.text, ⟨place.advance p.blanks, (place.advance p.blanks).advance p.text.toList⟩⟩

def place (start : Position) : List Piece → List Token
  | [] => []
  | p :: ps => p.token start :: place (p.token start).span.stop ps

theorem isSkipped_of_mem_blanks {p : Piece} (h : c ∈ p.blanks) :
    Lexeme.isSkipped c = true := by
  unfold blanks gap at h
  split_ifs at h
  · contradiction
  · rw [List.mem_singleton.mp h]
    rfl

theorem isEmpty_blanks (p : Piece) : p.blanks.isEmpty = p.glued := by
  obtain ⟨glued, kind, text⟩ := p
  cases glued <;> rfl

theorem AllLegible.reads (h : AllLegible previous ps []) (start : Position) :
    ∃ last, last.kind = .eof ∧ Reads previous start (spell ps) (place start ps ++ [last]) := by
  induction ps generalizing previous start with
  | nil => exact ⟨_, rfl, .last (List.forall_mem_nil _)⟩
  | cons p ps ih =>
    obtain ⟨⟨⟨c, cs, hchars, hc⟩, hread, -, -⟩, hmore⟩ := h
    obtain ⟨last, hlast, hreads⟩ := ih hmore (p.token start).span.stop
    refine ⟨last, hlast, ?_⟩
    have hlexeme : (⟨p.kind, p.text.toList, spell ps⟩ : Lexeme) =
        Lexeme.read previous p.blanks.isEmpty (c :: (cs ++ spell ps)) := by
      rw [isEmpty_blanks, ← List.cons_append, ← hchars, ← List.append_nil (spell ps), hread]
    have hstep := Reads.token (fun b => isSkipped_of_mem_blanks) hc hlexeme hreads
    rw [← List.cons_append, ← hchars, ← List.append_assoc, Lexeme.token, String.ofList_toList] at hstep
    exact hstep

/-! Where the tokens stand. -/

/-- The token is the piece, and stands to the token before as the piece says. -/
structure Fits (before : Option Token) (p : Piece) (t : Token) : Prop where
  kind_eq : t.kind = p.kind
  text_eq : t.text = p.text
  adjacent_eq : ∀ b ∈ before, b.adjacent t = p.glued
  line_eq : ∀ b ∈ before, b.kind.isKeyword = true → t.span.start.line = b.span.start.line

def AllFit : Option Token → List Piece → List Token → Prop
  | _, [], ts => ts = []
  | before, p :: ps, ts => ∃ t us, ts = t :: us ∧ p.Fits before t ∧ AllFit (some t) ps us

/-- A keyword stays on its line. -/
theorem Legible.newline_not_mem {p : Piece} (h : p.Legible previous rest)
    (hkind : p.kind.isKeyword = true) : '\n' ∉ p.text.toList := by
  obtain ⟨c, cs, hchars, -⟩ := h.starts
  have hspells := Lexeme.read_spells previous p.glued c (cs ++ rest)
  rw [← List.cons_append, ← hchars, h.read_eq] at hspells
  cases hk : p.kind with
  | keyword word =>
    simp only [hk] at hspells
    exact hspells.1.newline_not_mem
  | _ =>
    rw [hk] at hkind
    contradiction

theorem line_advance_blanks (p : Piece) (start : Position) :
    (start.advance p.blanks).line = start.line := by
  rw [Position.line_advance]
  unfold blanks gap
  split_ifs <;> simp

theorem adjacent_token (b : Token) (p : Piece) : b.adjacent (p.token b.span.stop) = p.glued := by
  rw [Token.adjacent, Bool.eq_iff_iff, beq_iff_eq, eq_comm, ← isEmpty_blanks, List.isEmpty_iff]
  exact Position.advance_eq_self_iff b.span.stop p.blanks

theorem AllLegible.fits (h : AllLegible previous ps rest) {before : Option Token} {start : Position}
    (hstop : ∀ b ∈ before, b.span.stop = start)
    (hline : ∀ b ∈ before, b.kind.isKeyword = true → b.span.start.line = start.line) :
    AllFit before ps (place start ps) := by
  induction ps generalizing previous before start with
  | nil => rfl
  | cons p ps ih =>
    obtain ⟨hp, hmore⟩ := h
    refine ⟨_, _, rfl, ⟨rfl, rfl, fun b hb => ?_, fun b hb hkind => ?_⟩, ih hmore ?_ ?_⟩
    · rw [← hstop b hb]
      exact adjacent_token b p
    · rw [hline b hb hkind]
      exact line_advance_blanks p start
    · exact fun b hb => Option.some.inj hb ▸ rfl
    · intro b hb hkind
      obtain rfl := Option.some.inj hb
      change (start.advance p.blanks).line = ((start.advance p.blanks).advance p.text.toList).line
      rw [(start.advance p.blanks).line_advance, List.count_eq_zero.mpr (hp.newline_not_mem hkind)]
      simp

/-! The code of a written text. -/

theorem Legible.text_of_sign {p : Piece} (h : p.Legible previous rest) {sign : Sign}
    (hkind : p.kind = .sign sign) :
    p.text.toList = [sign.char] := by
  have hread : (Lexeme.read previous p.glued (p.text.toList ++ rest)).kind = .sign sign := by
    rw [h.read_eq]
    exact hkind
  have hchars := Lexeme.chars_of_sign hread
  rwa [h.read_eq] at hchars

/-- Two points in a row would be glued, so that the first one is followed by a point. -/
theorem AllLegible.not_startsContinuation {p : Piece} (h : AllLegible previous (p :: ps) rest)
    (start : Position) (last : Token) :
    Code.startsContinuation (place start (p :: ps) ++ [last]) = false := by
  obtain ⟨hp, hmore⟩ := h
  cases ps with
  | nil => rfl
  | cons q ps =>
    have hadjacent := adjacent_token (p.token start) q
    have hpoints : ¬(p.kind = .sign .period ∧ q.kind = .sign .period ∧ q.glued = true) := by
      rintro ⟨hperiod, hnext, hglued⟩
      refine hp.point hperiod '.' ?_ rfl
      rw [spell_cons, chars, blanks, gap, if_pos hglued, hmore.1.text_of_sign hnext]
      rfl
    have hstarts (third : Token) (more : List Token) : Code.startsContinuation
        (p.token start :: q.token (p.token start).span.stop :: third :: more) = false := by
      by_contra hstarts
      simp only [Code.startsContinuation, Bool.not_eq_false, Bool.and_eq_true, hadjacent, Token.is,
        beq_iff_eq] at hstarts
      exact hpoints ⟨hstarts.1.1.1.1, hstarts.1.1.1.2, hstarts.1.2⟩
    cases ps with
    | nil => exact hstarts _ _
    | cons => exact hstarts _ _

theorem AllLegible.separate (h : AllLegible previous ps rest) (start : Position) {last : Token}
    (hlast : last.kind = .eof) :
    (Code.separate false (place start ps ++ [last])).1 = place start ps ++ [last] := by
  induction ps generalizing previous start with
  | nil => simp [place, Code.separate, hlast, Token.Kind.isComment, Code.startsContinuation]
  | cons p ps ih =>
    have hstarts := h.not_startsContinuation start last
    have hcomment : (p.token start).kind.isComment = false := h.1.isComment
    rw [place, List.cons_append] at hstarts ⊢
    rw [Code.separate_cons, hcomment, hstarts, ih h.2 _]
    rfl

/-- A text that is written in legible pieces has one token for each of them and an end token, and its
code is made of all of them. -/
theorem AllLegible.tokenize (h : AllLegible none ps []) {text : String}
    (htext : text.toList = spell ps) :
    ∃ tokens, (∀ limit, tokenize limit text = .ok tokens ↔ tokens.length ≤ limit) ∧
      (Code.ofTokens tokens).eof.kind = .eof ∧ AllFit none ps (Code.ofTokens tokens).tokens := by
  obtain ⟨last, hlast, hreads⟩ := h.reads .start
  obtain ⟨hcode, -⟩ := Code.ofTokens_of_concat (h.separate .start hlast) hlast
  refine ⟨place .start ps ++ [last], fun limit => ?_, Code.eof_kind _, ?_⟩
  · rw [tokenize_eq_ok_iff, htext]
    exact and_iff_right hreads
  · rw [hcode]
    exact h.fits (by simp) (by simp)

end Piece

end MatrixScript
