import MatrixScript.Parser.Code
import MatrixScript.Proofs.Token.Joined

/-! The code of a text, with its end token behind it. -/
namespace MatrixScript

/-- Nothing stands behind an end token. -/
def EndsOnce (ts : List Token) : Prop :=
  ts.Pairwise fun t _ => t.kind ≠ .eof

theorem Reads.endsOnce {previous : Option Token.Kind} {p : Position} {cs : List Char}
    {ts : List Token} (h : Reads previous p cs ts) : EndsOnce ts := by
  induction h with
  | last => exact List.pairwise_singleton ..
  | token _ _ hl _ ih =>
    exact List.pairwise_cons.mpr ⟨fun _ _ => (hl ▸ Lexeme.read_cuts _ _ _ _).kind_ne, ih⟩

namespace Code

/-- The tokens of the code and its end token. -/
def all (code : Code) : List Token := code.tokens ++ [code.eof]

/-- The token at a place; behind the code there is only its end token. -/
def token (code : Code) (place : Nat) : Token := code.tokens[place]?.getD code.eof

/-- What is kept of the first token. -/
theorem separate_cons (joining : Bool) (t : Token) (ts : List Token) :
    (separate joining (t :: ts)).1 =
      if t.kind.isComment = true then (separate joining ts).1
      else if (joining && t.kind != .eof) = true then (separate (t.kind != .newline) ts).1
      else if startsContinuation (t :: ts) = true then (separate true ts).1
      else t :: (separate false ts).1 := by
  rw [separate]
  split_ifs <;> rfl

/-- Tokens are left out, but never added or moved. -/
theorem separate_sublist (joining : Bool) (ts : List Token) : (separate joining ts).1.Sublist ts := by
  induction ts generalizing joining with
  | nil => exact List.Sublist.slnil
  | cons t ts ih =>
    rw [separate_cons]
    split_ifs
    · exact (ih _).cons t
    · exact (ih _).cons t
    · exact (ih _).cons t
    · exact (ih _).cons_cons t

/-- Comments are kept, also those on continued lines. -/
theorem separate_comments (joining : Bool) (ts : List Token) :
    (separate joining ts).2 = ts.filter (·.kind.isComment) := by
  induction ts generalizing joining with
  | nil => rfl
  | cons t ts ih =>
    rw [separate, List.filter_cons]
    split_ifs
    · exact congrArg (t :: ·) (ih joining)
    · exact ih _
    · exact ih _
    · exact ih _

theorem ofTokens_comments (ts : List Token) : (ofTokens ts).comments = ts.filter (·.kind.isComment) := by
  rw [← separate_comments false, ofTokens]
  dsimp only
  split
  · rfl
  · split_ifs <;> rfl

/-- Either the code of a text has its end token, or one was added. -/
theorem ofTokens_spec (ts : List Token) : (ofTokens ts).eof.kind = .eof ∧
    ((separate false ts).1 = (ofTokens ts).tokens ++ [(ofTokens ts).eof] ∨
      (separate false ts).1 = (ofTokens ts).tokens ∧
        ∀ last ∈ (ofTokens ts).tokens.getLast?, last.kind ≠ .eof) := by
  simp only [ofTokens]
  cases hlast : (separate false ts).1.getLast? with
  | none => exact ⟨rfl, .inr ⟨List.getLast?_eq_none_iff.mp hlast, by simp⟩⟩
  | some last =>
    dsimp only
    split_ifs with hkind
    · obtain ⟨front, hfront⟩ := List.getLast?_eq_some_iff.mp hlast
      exact ⟨hkind, .inl (by simp [hfront])⟩
    · exact ⟨rfl, .inr ⟨rfl, by simpa [hlast] using hkind⟩⟩

theorem eof_kind (ts : List Token) : (ofTokens ts).eof.kind = .eof :=
  (ofTokens_spec ts).1

theorem tokens_sublist (ts : List Token) : (ofTokens ts).tokens.Sublist ts := by
  refine List.Sublist.trans ?_ (separate_sublist false ts)
  obtain h | ⟨h, _⟩ := (ofTokens_spec ts).2
  · rw [h]
    exact List.sublist_append_left ..
  · exact h ▸ List.Sublist.refl _

theorem kind_ne_of_mem_tokens {ts : List Token} (h : EndsOnce ts) :
    ∀ t ∈ (ofTokens ts).tokens, t.kind ≠ .eof := by
  have hcode := h.sublist (separate_sublist false ts)
  obtain heq | ⟨heq, hlast⟩ := (ofTokens_spec ts).2
  · rw [heq, List.pairwise_append] at hcode
    exact fun t ht => hcode.2.2 t ht _ (List.mem_singleton_self _)
  · rw [heq] at hcode
    obtain hnil | ⟨front, last, hfront⟩ := List.eq_nil_or_concat (ofTokens ts).tokens
    · simp [hnil]
    · rw [hfront, List.concat_eq_append] at hcode hlast ⊢
      rw [List.pairwise_append] at hcode
      refine List.forall_mem_append.mpr ⟨fun t ht => ?_, List.forall_mem_singleton.mpr ?_⟩
      · exact hcode.2.2 t ht last (List.mem_singleton_self _)
      · exact hlast last List.getLast?_concat

/-! The code of joined texts. -/

theorem ofTokens_of_concat {ts code : List Token} {e : Token}
    (h : (separate false ts).1 = code ++ [e]) (he : e.kind = .eof) :
    (ofTokens ts).tokens = code ∧ (ofTokens ts).eof = e := by
  simp [ofTokens, h, he]

theorem startsContinuation_of_not_period {t : Token} (ht : t.is .period = false) (ts : List Token) :
    startsContinuation (t :: ts) = false := by
  unfold startsContinuation
  split <;> simp_all

theorem is_period_of_startsContinuation {t : Token} {ts : List Token}
    (h : startsContinuation (t :: ts) = true) : t.is .period = true := by
  by_contra hperiod
  rw [startsContinuation_of_not_period (by simpa using hperiod)] at h
  contradiction

theorem separate_newline {t : Token} (ht : t.kind = .newline) (ts : List Token) :
    (separate false (t :: ts)).1 = t :: (separate false ts).1 := by
  rw [separate_cons, ht, startsContinuation_of_not_period (by rw [Token.is, ht]; rfl)]
  rfl

/-- An end token is part of the code, even of a line that is continued. -/
theorem separate_concat (joining : Bool) (ts : List Token) {e : Token} (he : e.kind = .eof) :
    ∃ code, (separate joining (ts ++ [e])).1 = code ++ [e] := by
  induction ts generalizing joining with
  | nil =>
    refine ⟨[], ?_⟩
    rw [List.nil_append, separate_cons, he, startsContinuation_of_not_period (by rw [Token.is, he]; rfl)]
    simp [Token.Kind.isComment, separate]
  | cons t ts ih =>
    rw [List.cons_append, separate_cons]
    split_ifs
    · exact ih _
    · exact ih _
    · exact ih _
    · obtain ⟨code, hcode⟩ := ih false
      exact ⟨t :: code, congrArg (t :: ·) hcode⟩

theorem startsContinuation_down (n : Nat) (ts : List Token) :
    startsContinuation (ts.map (Token.down n)) = startsContinuation ts := by
  match ts with
  | [] | [_] | [_, _] => rfl
  | a :: b :: c :: ts =>
    simp only [List.map_cons, startsContinuation, Token.is_down, Token.adjacent_down]

theorem separate_down (n : Nat) (joining : Bool) (ts : List Token) :
    (separate joining (ts.map (Token.down n))).1 = (separate joining ts).1.map (Token.down n) := by
  induction ts generalizing joining with
  | nil => rfl
  | cons t ts ih =>
    have hstarts := startsContinuation_down n (t :: ts)
    rw [List.map_cons] at hstarts ⊢
    rw [separate_cons, separate_cons, Token.kind_down, hstarts]
    split_ifs
    · exact ih _
    · exact ih _
    · exact ih _
    · exact congrArg (t.down n :: ·) (ih false)

/-- Whether a line of the text is continued. -/
def hasContinuation : List Token → Bool
  | [] => false
  | t :: ts => startsContinuation (t :: ts) || hasContinuation ts

theorem startsContinuation_append {x : Token} (hx : x.is .period = false) (ts more : List Token) :
    startsContinuation (ts ++ x :: more) = startsContinuation ts := by
  match ts with
  | [] => exact startsContinuation_of_not_period hx more
  | [a] => cases more <;> simp [startsContinuation, hx]
  | [a, b] => simp [startsContinuation, hx]
  | a :: b :: c :: ts => rfl

theorem hasContinuation_append {x : Token} (hx : x.is .period = false) (ts more : List Token) :
    hasContinuation (ts ++ x :: more) = (hasContinuation ts || hasContinuation more) := by
  induction ts with
  | nil => simp [hasContinuation, startsContinuation_of_not_period hx]
  | cons t ts ih =>
    have happend := startsContinuation_append hx (t :: ts) more
    rw [List.cons_append] at happend ⊢
    rw [hasContinuation, happend, ih, hasContinuation, Bool.or_assoc]

/-- Where no line is continued, the code of two parts is found apart. -/
theorem separate_append {x : Token} (hx : x.is .period = false) (ts more : List Token)
    (h : hasContinuation ts = false) : (separate false (ts ++ x :: more)).1 =
      (separate false ts).1 ++ (separate false (x :: more)).1 := by
  induction ts with
  | nil => rfl
  | cons t ts ih =>
    rw [hasContinuation, Bool.or_eq_false_iff] at h
    have happend := startsContinuation_append hx (t :: ts) more
    rw [List.cons_append] at happend ⊢
    rw [separate_cons, separate_cons, happend, h.1, ih h.2]
    split_ifs
    · rfl
    · contradiction
    · contradiction
    · rfl

end Code

end MatrixScript
