import MatrixScript.Proofs.Token.Lexeme

/-! What a scanner reads off a text, as a relation that has no limit and no history.

Main statement: the tokens of a text are those that the relation gives, if the limit allows them. -/
namespace MatrixScript

/-- The token that a lexeme makes at a place. -/
def Lexeme.token (l : Lexeme) (p : Position) : Token :=
  ⟨l.kind, String.ofList l.chars, ⟨p, p.advance l.chars⟩⟩

/-- Behind a token of class `previous`, the text that starts at a place is read as these tokens. -/
inductive Reads : Option Token.Kind → Position → List Char → List Token → Prop where
  | last {previous : Option Token.Kind} {p : Position} {blanks : List Char}
      (hb : ∀ b ∈ blanks, Lexeme.isSkipped b = true) :
      Reads previous p blanks [⟨.eof, "", ⟨p.advance blanks, p.advance blanks⟩⟩]
  | token {previous : Option Token.Kind} {p : Position} {blanks cs : List Char} {c : Char}
      {l : Lexeme} {ts : List Token} (hb : ∀ b ∈ blanks, Lexeme.isSkipped b = true)
      (hc : Lexeme.isSkipped c = false) (hl : l = Lexeme.read previous blanks.isEmpty (c :: cs))
      (h : Reads (some l.kind) ((p.advance blanks).advance l.chars) l.rest ts) :
      Reads previous p (blanks ++ c :: cs) (l.token (p.advance blanks) :: ts)

namespace Lexeme

/-- A text is blank, or something stands behind its first blanks. -/
theorem all_skipped_or (cs : List Char) : (∀ b ∈ cs, isSkipped b = true) ∨
    ∃ blanks c body, cs = blanks ++ c :: body ∧ (∀ b ∈ blanks, isSkipped b = true) ∧
      isSkipped c = false := by
  induction cs with
  | nil => exact .inl nofun
  | cons d ds ih =>
    cases hd : isSkipped d with
    | false => exact .inr ⟨[], d, ds, rfl, nofun, hd⟩
    | true =>
      obtain hb | ⟨blanks, c, body, rfl, hb, hc⟩ := ih
      · exact .inl (List.forall_mem_cons.mpr ⟨hd, hb⟩)
      · exact .inr ⟨d :: blanks, c, body, rfl, List.forall_mem_cons.mpr ⟨hd, hb⟩, hc⟩

theorem read_rest_length_lt (previous : Option Token.Kind) (touches : Bool) (c : Char)
    (cs : List Char) : (read previous touches (c :: cs)).rest.length < (c :: cs).length := by
  have h := read_cuts previous touches c cs
  have hpos := List.length_pos_iff.mpr h.chars_ne
  calc (read previous touches (c :: cs)).rest.length
      < ((read previous touches (c :: cs)).chars ++
          (read previous touches (c :: cs)).rest).length := by rw [List.length_append]; omega
    _ = (c :: cs).length := by rw [h.append]

end Lexeme

namespace Scanner

theorem next_eq {s : Scanner} {blanks body : List Char} (hrest : s.rest = blanks ++ body)
    (hb : ∀ b ∈ blanks, Lexeme.isSkipped b = true)
    (hbody : ∀ c ∈ body.head?, Lexeme.isSkipped c = false) :
    let l := Lexeme.read (s.history.back?.map (·.kind)) blanks.isEmpty body
    let token := l.token (s.position.advance blanks)
    s.next = (token, { s with
      rest := l.rest
      offset := s.offset + blanks.length + l.chars.length
      position := token.span.stop
      history := s.history.push token }) := by
  have htake : body.takeWhile Lexeme.isSkipped = [] := by
    cases body with
    | nil => rfl
    | cons c cs => simp [hbody c rfl]
  have hdrop : body.dropWhile Lexeme.isSkipped = body := by
    cases body with
    | nil => rfl
    | cons c cs => simp [hbody c rfl]
  simp only [next, hrest, List.span_eq_takeWhile_dropWhile, List.takeWhile_append_of_pos hb,
    List.dropWhile_append_of_pos hb, htake, hdrop, List.append_nil, Lexeme.token]

theorem drainUpTo_succ (limit : Int) (n : Nat) (read : Array Token) (s : Scanner) :
    s.drainUpTo limit (n + 1) read =
      if limit < (read.size + 1 : Nat) then (.error ⟨limit, s.next.1.span.start⟩, s.next.2)
      else if s.next.1.kind = .eof then (.ok (read.push s.next.1), s.next.2)
      else s.next.2.drainUpTo limit n (read.push s.next.1) := by
  simp only [drainUpTo, Array.size_push]

end Scanner

namespace Reads

/-- Every text is read as something. -/
theorem exists_tokens (previous : Option Token.Kind) (p : Position) (cs : List Char) :
    ∃ ts, Reads previous p cs ts := by
  induction hn : cs.length using Nat.strongRecOn generalizing previous p cs with
  | ind n ih =>
    obtain hb | ⟨blanks, c, body, rfl, hb, hc⟩ := Lexeme.all_skipped_or cs
    · exact ⟨_, last hb⟩
    · have hlt := Lexeme.read_rest_length_lt previous blanks.isEmpty c body
      rw [List.length_append] at hn
      obtain ⟨ts, hts⟩ := ih _ (Nat.lt_of_lt_of_le hlt (by omega)) (some _) _ _ rfl
      exact ⟨_, token hb hc rfl hts⟩

variable {previous : Option Token.Kind} {p : Position} {cs : List Char} {ts : List Token}

theorem ne_nil (h : Reads previous p cs ts) : ts ≠ [] := by
  cases h <;> exact List.cons_ne_nil _ _

theorem length_le (h : Reads previous p cs ts) : ts.length ≤ cs.length + 1 := by
  induction h with
  | last => exact Nat.le_add_left _ _
  | token _ _ hl _ ih =>
    have hlt := hl ▸ Lexeme.read_rest_length_lt _ _ _ _
    rw [List.length_append, List.length_cons]
    omega

/-- A scanner at the beginning of a text gives its tokens. If they are too many, it fails at the start of
the first one beyond the limit. -/
theorem drainUpTo (h : Reads previous p cs ts) (limit : Int) {n : Nat} (hn : ts.length ≤ n)
    (read : Array Token) {s : Scanner} (hrest : s.rest = cs) (hposition : s.position = p)
    (hprevious : s.history.back?.map (·.kind) = previous) :
    (Scanner.drainUpTo limit n read s).1 =
      ts[(limit - read.size).toNat]?.elim (.ok (read ++ ts.toArray)) fun t => .error ⟨limit, t.span.start⟩ := by
  induction h generalizing n read s with
  | @last _ p blanks hb =>
    subst hrest hposition
    obtain ⟨n, rfl⟩ := Nat.exists_eq_succ_of_ne_zero (Nat.ne_of_gt hn)
    have htoken : s.next.1 = ⟨.eof, "", ⟨s.position.advance s.rest, s.position.advance s.rest⟩⟩ := by
      rw [Scanner.next_eq (List.append_nil _).symm hb nofun]
      rfl
    have hkind : s.next.1.kind = .eof := by rw [htoken]
    rw [Scanner.drainUpTo_succ, ← htoken]
    by_cases hover : limit < (read.size + 1 : Nat)
    · have hindex : (limit - read.size).toNat = 0 := by omega
      rw [if_pos hover, hindex]
      rfl
    · rw [if_neg hover, if_pos hkind, List.getElem?_eq_none (by rw [List.length_singleton]; omega)]
      simp
  | @token _ p blanks _ _ l ts hb hc hl _ ih =>
    subst hprevious hposition hl
    obtain ⟨n, rfl⟩ := Nat.exists_eq_succ_of_ne_zero (Nat.ne_of_gt (Nat.zero_lt_of_lt hn))
    have hnext := Scanner.next_eq hrest hb (by simpa using hc)
    have hkind : s.next.1.kind ≠ .eof := by
      rw [hnext]
      exact (Lexeme.read_cuts _ _ _ _).kind_ne
    have hmore := ih (Nat.le_of_succ_le_succ hn) (read.push s.next.1) (s := s.next.2)
      (by rw [hnext]) (by rw [hnext]; rfl) (by rw [hnext]; simp [Lexeme.token])
    rw [Scanner.drainUpTo_succ]
    by_cases hover : limit < (read.size + 1 : Nat)
    · have hindex : (limit - read.size).toNat = 0 := by omega
      rw [if_pos hover, hindex, hnext]
      rfl
    · have hindex : (limit - read.size).toNat = (limit - (read.size + 1 : Nat)).toNat + 1 := by omega
      rw [if_neg hover, if_neg hkind, hmore, Array.size_push, hindex, List.getElem?_cons_succ, hnext]
      simp

theorem getElem?_limit (h : Reads previous p cs ts) (limit : Int) :
    ts[limit.toNat]? = none ↔ (ts.length : Int) ≤ limit := by
  have hpos := List.length_pos_iff.mpr h.ne_nil
  rw [List.getElem?_eq_none_iff]
  omega

theorem tokenize {text : String} (h : Reads none .start text.toList ts) (limit : Int) :
    tokenize limit text = ts[limit.toNat]?.elim (.ok ts) fun t => .error ⟨limit, t.span.start⟩ := by
  have he := h.drainUpTo limit h.length_le #[] (s := .ofText text) rfl rfl rfl
  rw [MatrixScript.tokenize, Scanner.drain]
  simp only [Scanner.ofText] at he ⊢
  rw [he]
  simp only [Array.size_empty, Int.natCast_zero, Int.sub_zero, Array.empty_append]
  cases ts[limit.toNat]? <;> rfl

end Reads

/-- A text has the tokens that are read off it, unless they are more than the limit. -/
theorem tokenize_eq_ok_iff (limit : Int) (text : String) (ts : List Token) :
    tokenize limit text = .ok ts ↔ Reads none .start text.toList ts ∧ ts.length ≤ limit := by
  constructor
  · intro h
    obtain ⟨us, hus⟩ := Reads.exists_tokens none .start text.toList
    rw [hus.tokenize limit] at h
    cases hbeyond : us[limit.toNat]? with
    | none =>
      rw [hbeyond] at h
      cases h
      exact ⟨hus, (hus.getElem?_limit limit).mp hbeyond⟩
    | some t =>
      rw [hbeyond] at h
      cases h
  · rintro ⟨hts, hle⟩
    rw [hts.tokenize limit, (hts.getElem?_limit limit).mpr hle]
    rfl

/-- The limit is exceeded at a token of the text. -/
theorem tokenize_error {limit : Int} {text : String} {e : TokenLimitError}
    (h : tokenize limit text = .error e) :
    ∃ ts, Reads none .start text.toList ts ∧ ∃ t ∈ ts, e.position = t.span.start := by
  obtain ⟨ts, hts⟩ := Reads.exists_tokens none .start text.toList
  rw [hts.tokenize limit] at h
  cases hbeyond : ts[limit.toNat]? with
  | none =>
    rw [hbeyond] at h
    cases h
  | some t =>
    rw [hbeyond] at h
    cases h
    exact ⟨ts, hts, t, List.mem_of_getElem? hbeyond, rfl⟩

end MatrixScript
