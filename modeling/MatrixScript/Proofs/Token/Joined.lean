import MatrixScript.Proofs.Position
import MatrixScript.Proofs.Syntax.Down
import MatrixScript.Proofs.Token.Reading
import Mathlib.Data.List.TakeWhile

/-! Texts that are joined by a newline: no token goes over the end of its line, so the tokens of the
joined text are those of its parts, with the newline in between. -/
namespace MatrixScript

namespace Lexeme

theorem takeWhile_append_newline {p : Char → Bool} (hp : p '\n' = false) (cs more : List Char) :
    (cs ++ '\n' :: more).takeWhile p = cs.takeWhile p := by
  induction cs with
  | nil => simp [hp]
  | cons c cs ih => cases hc : p c <;> simp [hc, ih]

theorem dropWhile_append_newline {p : Char → Bool} (hp : p '\n' = false) (cs more : List Char) :
    (cs ++ '\n' :: more).dropWhile p = cs.dropWhile p ++ '\n' :: more := by
  induction cs with
  | nil => simp [hp]
  | cons c cs ih => cases hc : p c <;> simp [hc, ih]

theorem span_append_newline {p : Char → Bool} (hp : p '\n' = false) (cs more : List Char) :
    (cs ++ '\n' :: more).span p = ((cs.span p).1, (cs.span p).2 ++ '\n' :: more) := by
  rw [List.span_eq_takeWhile_dropWhile, List.span_eq_takeWhile_dropWhile,
    takeWhile_append_newline hp, dropWhile_append_newline hp]

theorem isDigit_newline : Text.isDigit '\n' = false := rfl

theorem splitFraction_of_ne {c : Char} (hc : c ≠ '.') (cs : List Char) :
    splitFraction (c :: cs) = ([], c :: cs) := by
  unfold splitFraction
  split
  · simp_all
  · rfl

theorem splitFraction_append_newline (cs more : List Char) :
    splitFraction (cs ++ '\n' :: more) =
      ((splitFraction cs).1, (splitFraction cs).2 ++ '\n' :: more) := by
  cases cs with
  | nil => exact splitFraction_of_ne (by decide) more
  | cons c cs =>
    by_cases hc : c = '.'
    · subst hc
      cases cs with
      | nil => simp [splitFraction, isDigit_newline]
      | cons d cs =>
        cases hd : Text.isDigit d with
        | false => simp [splitFraction, hd]
        | true =>
          have hspan := span_append_newline isDigit_newline (d :: cs) more
          simp only [List.cons_append] at hspan ⊢
          simp only [splitFraction, hd, if_true, hspan]
    · rw [List.cons_append, splitFraction_of_ne hc, splitFraction_of_ne hc]
      rfl

theorem splitExponent_of_ne {e : Char} (he : isExponentMark e = false) (cs : List Char) :
    splitExponent (e :: cs) = ([], e :: cs) := by
  unfold splitExponent
  split <;> simp_all

theorem splitExponent_append_newline (cs more : List Char) :
    splitExponent (cs ++ '\n' :: more) =
      ((splitExponent cs).1, (splitExponent cs).2 ++ '\n' :: more) := by
  cases cs with
  | nil => exact splitExponent_of_ne rfl more
  | cons e cs =>
    cases he : isExponentMark e with
    | false =>
      rw [List.cons_append, splitExponent_of_ne he, splitExponent_of_ne he]
      rfl
    | true =>
      cases cs with
      | nil => cases more <;> simp [splitExponent, isDigit_newline, isPlusMinus]
      | cons s cs =>
        cases cs with
        | nil =>
          have hspan := span_append_newline isDigit_newline [s] more
          simp only [List.cons_append, List.nil_append] at hspan ⊢
          simp only [splitExponent, hspan, isDigit_newline, Bool.and_false]
          cases hs : Text.isDigit s <;> simp [he, hs, List.span_eq_takeWhile_dropWhile]
        | cons d cs =>
          have hspan := span_append_newline isDigit_newline (s :: d :: cs) more
          have hspan' := span_append_newline isDigit_newline (d :: cs) more
          simp only [List.cons_append] at hspan hspan' ⊢
          simp only [splitExponent, hspan, hspan']
          split_ifs <;> rfl

theorem splitNumber_append_newline (cs more : List Char) :
    splitNumber (cs ++ '\n' :: more) =
      ((splitNumber cs).1, (splitNumber cs).2 ++ '\n' :: more) := by
  simp only [splitNumber, span_append_newline isDigit_newline, splitFraction_append_newline,
    splitExponent_append_newline]

theorem splitString_append_newline {quote : Char} (hquote : quote ≠ '\n') (cs more : List Char) :
    splitString quote (cs ++ '\n' :: more) =
      ((splitString quote cs).1, (splitString quote cs).2 ++ '\n' :: more) := by
  fun_induction splitString quote cs with
  | case1 => cases more <;> simp [splitString]
  | case2 => simp [splitString]
  | case3 c hc =>
    by_cases hq : c = quote
    · simp [splitString, hq, hquote, Ne.symm hquote]
    · cases more <;> simp [splitString, hc, hq]
  | case4 => simp_all [splitString]
  | case5 => simp_all [splitString]
  | case6 => simp_all [splitString]
  | case7 => simp_all [splitString]

/-- The lexeme with more text behind what is left. -/
def before (more : List Char) (l : Lexeme) : Lexeme := { l with rest := l.rest ++ more }

theorem readComment_append_newline {c : Char} (hc : c ≠ '\n') (cs more : List Char) :
    readComment c (cs ++ '\n' :: more) = (readComment c cs).before ('\n' :: more) := by
  have hhead : ((cs ++ '\n' :: more).head? = some c) = (cs.head? = some c) := by
    cases cs with
    | nil => simp [Ne.symm hc]
    | cons d cs => rfl
  have hspan := span_append_newline (p := (· != '\n')) rfl cs more
  simp only [readComment, hspan, hhead, before]

theorem readName_append_newline (c : Char) (cs more : List Char) :
    readName c (cs ++ '\n' :: more) = (readName c cs).before ('\n' :: more) := by
  simp only [readName, span_append_newline (p := isNameChar) rfl, before]

theorem readNumber_append_newline (c : Char) (cs more : List Char) :
    readNumber c (cs ++ '\n' :: more) = (readNumber c cs).before ('\n' :: more) := by
  simp only [readNumber, ← List.cons_append, splitNumber_append_newline, before]

theorem readString_append_newline {c : Char} (hc : c ≠ '\n') (cs more : List Char) :
    readString c (cs ++ '\n' :: more) = (readString c cs).before ('\n' :: more) := by
  simp only [readString, splitString_append_newline hc, before]

/-- A lexeme ends with its line at the latest, so that it does not matter what stands on the next. -/
theorem read_append_newline (previous : Option Token.Kind) (touches : Bool) (c : Char)
    (cs more : List Char) : read previous touches (c :: (cs ++ '\n' :: more)) =
      (read previous touches (c :: cs)).before ('\n' :: more) := by
  cases hs : Sign.ofChar? c with
  | some sign =>
    simp only [read, hs]
    split_ifs with hline
    · rfl
    · rfl
    · exact readComment_append_newline hline cs more
    · rfl
  | none =>
    simp only [read, hs]
    split_ifs with hline
    · rfl
    · rfl
    · exact readComment_append_newline hline cs more
    · exact readName_append_newline c cs more
    · exact readNumber_append_newline c cs more
    · rfl
    · exact readString_append_newline hline cs more
    · rfl

/-- A new line starts as the text does. -/
theorem read_newline (touches : Bool) (cs : List Char) :
    read (some .newline) touches cs = read none touches cs := by
  cases cs <;> rfl

end Lexeme

/-- The newline token that starts at a place. -/
def Token.newlineAt (p : Position) : Token :=
  ⟨.newline, "\n", ⟨p, p.next '\n'⟩⟩

/-- The end token at a place. -/
def Token.endAt (p : Position) : Token :=
  ⟨.eof, "", ⟨p, p⟩⟩

theorem Position.next_advance_start (cs : List Char) :
    (Position.start.advance cs).next '\n' = Position.start.down (cs.count '\n' + 1) := by
  rw [advance_start]
  simp [next, down, start]

theorem Lexeme.token_down (l : Lexeme) (p : Position) (n : Nat) :
    (l.token p).down n = l.token (p.down n) := by
  rw [Lexeme.token, Lexeme.token, Position.down_advance]
  rfl

namespace Reads

variable {previous : Option Token.Kind} {p : Position} {cs more : List Char} {ts us : List Token}

theorem down (h : Reads previous p cs ts) (n : Nat) :
    Reads previous (p.down n) cs (ts.map (Token.down n)) := by
  induction h with
  | @last previous p blanks hb =>
    have hlast : Reads previous (p.down n) blanks _ := last hb
    rw [Position.down_advance] at hlast
    exact hlast
  | @token _ p blanks _ _ l ts hb hc hl _ ih =>
    rw [← Position.down_advance, ← Position.down_advance] at ih
    have htoken := token hb hc hl ih
    rwa [Position.down_advance, ← Lexeme.token_down] at htoken

theorem of_newline (h : Reads none p cs ts) : Reads (some .newline) p cs ts := by
  cases h with
  | last hb => exact last hb
  | token hb hc hl h => exact token hb hc (hl.trans (Lexeme.read_newline _ _).symm) h

/-- The end token of the first part gives way to a newline. -/
theorem append_newline (h : Reads previous p cs ts)
    (hmore : Reads (some .newline) ((p.advance cs).next '\n') more us) :
    Reads previous p (cs ++ '\n' :: more) (ts.dropLast ++ Token.newlineAt (p.advance cs) :: us) := by
  induction h with
  | @last _ p blanks hb =>
    have hline : Lexeme.isSkipped '\n' = false := rfl
    exact token hb hline (l := ⟨.newline, ['\n'], more⟩) rfl hmore
  | @token previous p blanks cs c l ts hb hc hl hts ih =>
    have happend : l.chars ++ l.rest = c :: cs := hl ▸ Lexeme.read_append _ _ _
    have hplace : p.advance (blanks ++ c :: cs) =
        ((p.advance blanks).advance l.chars).advance l.rest := by
      rw [← Position.advance_append, ← Position.advance_append, happend]
    rw [hplace] at hmore ⊢
    rw [List.dropLast_cons_of_ne_nil hts.ne_nil, List.append_assoc, List.cons_append]
    have hread := Lexeme.read_append_newline previous blanks.isEmpty c cs more
    exact token hb hc (l := l.before ('\n' :: more)) (by rw [hread, ← hl]) (ih hmore)

theorem eq_concat (h : Reads previous p cs ts) : ts = ts.dropLast ++ [Token.endAt (p.advance cs)] := by
  induction h with
  | last => rfl
  | @token _ p blanks cs c l ts _ _ hl hts ih =>
    have happend : l.chars ++ l.rest = c :: cs := hl ▸ Lexeme.read_append _ _ _
    rw [← Position.advance_append, ← Position.advance_append, happend] at ih
    rw [List.dropLast_cons_of_ne_nil hts.ne_nil, List.cons_append, ← ih]

/-- The tokens of two texts with a newline between them. -/
theorem joined {as bs : List Char} (h : Reads none .start as ts) (h' : Reads none .start bs us) :
    Reads none .start (as ++ '\n' :: bs) (ts.dropLast ++
      Token.newlineAt (Position.start.advance as) :: us.map (Token.down (as.count '\n' + 1))) := by
  refine h.append_newline ?_
  rw [Position.next_advance_start]
  exact (h'.down _).of_newline

theorem unique {text : String} (h : Reads none .start text.toList ts)
    (h' : Reads none .start text.toList us) : ts = us := by
  have hts := (tokenize_eq_ok_iff (ts.length + us.length) text ts).mpr ⟨h, by omega⟩
  have hus := (tokenize_eq_ok_iff (ts.length + us.length) text us).mpr ⟨h', by omega⟩
  exact Except.ok.inj (hts.symm.trans hus)

end Reads

theorem tokenize_joined {limit : Int} {a b : String} {ts us vs : List Token}
    (ha : tokenize limit a = .ok ts) (hb : tokenize limit b = .ok us)
    (h : tokenize limit (a ++ "\n" ++ b) = .ok vs) :
    vs = ts.dropLast ++ Token.newlineAt (Position.start.advance a.toList) ::
      us.map (Token.down (a.toList.count '\n' + 1)) := by
  rw [tokenize_eq_ok_iff] at ha hb h
  have htext : (a ++ "\n" ++ b).toList = a.toList ++ '\n' :: b.toList := by simp
  have hjoined := ha.1.joined hb.1
  rw [← htext] at hjoined
  exact h.1.unique hjoined

/-- A text is read line by line: two texts with a newline between them have the tokens of the first one, the
newline in the place of its end token, and the tokens of the second one further down. The limit allows that
just if it allows the tokens of both texts together. -/
theorem tokenize_lines (limit : Int) (a b : String) (vs : List Token) :
    tokenize limit (a ++ "\n" ++ b) = .ok vs ↔
      ∃ ts stop us, tokenize limit a = .ok (ts ++ [stop]) ∧ stop.kind = .eof ∧
        tokenize limit b = .ok us ∧ ((ts ++ [stop]).length + us.length : Int) ≤ limit ∧
        vs = ts ++ ⟨.newline, "\n", ⟨stop.span.start, ⟨stop.span.start.line + 1, 0⟩⟩⟩ ::
          us.map (Token.down (a.toList.count '\n' + 1)) := by
  have htext : (a ++ "\n" ++ b).toList = a.toList ++ '\n' :: b.toList := by simp
  constructor
  · intro h
    rw [tokenize_eq_ok_iff, htext] at h
    obtain ⟨ts, hts⟩ := Reads.exists_tokens none .start a.toList
    obtain ⟨us, hus⟩ := Reads.exists_tokens none .start b.toList
    obtain rfl := (htext ▸ h.1).unique (htext ▸ hts.joined hus)
    have hlength := h.2
    rw [List.length_append, List.length_cons, List.length_map, List.length_dropLast] at hlength
    have hpos := List.length_pos_iff.mpr hts.ne_nil
    have hus_pos := List.length_pos_iff.mpr hus.ne_nil
    refine ⟨ts.dropLast, Token.endAt (Position.start.advance a.toList), us, ?_, rfl, ?_, ?_, rfl⟩
    · rw [← hts.eq_concat, tokenize_eq_ok_iff]
      exact ⟨hts, by omega⟩
    · rw [tokenize_eq_ok_iff]
      exact ⟨hus, by omega⟩
    · rw [← hts.eq_concat]
      omega
  · rintro ⟨ts, stop, us, ha, -, hb, hlimit, rfl⟩
    rw [tokenize_eq_ok_iff] at ha hb
    have hstop : stop = Token.endAt (Position.start.advance a.toList) := by
      have hlast := ha.1.eq_concat
      rw [List.dropLast_concat] at hlast
      exact List.singleton_inj.mp (List.append_cancel_left hlast)
    have hjoined := ha.1.joined hb.1
    rw [List.dropLast_concat] at hjoined
    rw [tokenize_eq_ok_iff, htext, hstop]
    refine ⟨hjoined, ?_⟩
    rw [List.length_append, List.length_singleton] at hlimit
    rw [List.length_append, List.length_cons, List.length_map]
    omega

end MatrixScript
