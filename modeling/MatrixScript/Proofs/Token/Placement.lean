import MatrixScript.Proofs.Position
import MatrixScript.Proofs.Token.Reading
import Mathlib.Data.Nat.Init

/-! Where the tokens of a text stand in it.

Main statement: the tokens of a text cover it up to blanks, and their spans are the places where they
stand. -/
namespace MatrixScript

/-- Token `i` takes the text from `start i` up to `stop (i + 1)`. Only blanks stand before it, from
`stop i` on. -/
structure Covers (text : List Char) (tokens : List Token) (start stop : Nat → Nat) : Prop where
  stop_le_start : ∀ i < tokens.length, stop i ≤ start i
  start_le_stop : ∀ i < tokens.length, start i ≤ stop (i + 1)
  blank : ∀ i < tokens.length, ∀ c ∈ text.extract (stop i) (start i),
    c = ' ' ∨ c = '\t' ∨ c = '\r' ∨ c = '\x0c'
  token_text : ∀ i (h : i < tokens.length),
    tokens[i].text.toList = text.extract (start i) (stop (i + 1))
  token_span : ∀ i (h : i < tokens.length),
    tokens[i].span = ⟨.ofOffset text (start i), .ofOffset text (stop (i + 1))⟩
  stop_length : stop tokens.length = text.length

theorem Lexeme.isSkipped_iff (c : Char) :
    isSkipped c = true ↔ c = ' ' ∨ c = '\t' ∨ c = '\r' ∨ c = '\x0c' := by
  simp [isSkipped, or_assoc]

/-- The offsets `f` with one more in front of them. -/
def offsetsFrom (first : Nat) (f : Nat → Nat) : Nat → Nat
  | 0 => first
  | i + 1 => f i

private theorem extract_middle (as bs cs : List Char) :
    (as ++ bs ++ cs).extract as.length (as ++ bs).length = bs := by
  simp [List.extract_eq_take_drop]

namespace Covers

variable {text : List Char} {tokens : List Token} {start stop : Nat → Nat}

theorem nil (text : List Char) (start : Nat → Nat) :
    Covers text [] start fun _ => text.length where
  stop_le_start := nofun
  start_le_stop := nofun
  blank := nofun
  token_text := nofun
  token_span := nofun
  stop_length := rfl

/-- A lexeme and the blanks before it go in front of what is covered. -/
theorem cons {before blanks : List Char} {l : Lexeme}
    (hb : ∀ b ∈ blanks, Lexeme.isSkipped b = true)
    (hfirst : stop 0 = (before ++ blanks ++ l.chars).length)
    (h : Covers (before ++ blanks ++ l.chars ++ l.rest) tokens start stop) :
    Covers (before ++ blanks ++ l.chars ++ l.rest)
      (l.token (Position.start.advance (before ++ blanks)) :: tokens)
      (offsetsFrom (before ++ blanks).length start) (offsetsFrom before.length stop) := by
  refine ⟨?_, ?_, ?_, ?_, ?_, h.stop_length⟩
  · rintro (_ | i) hi
    · simp [offsetsFrom]
    · exact h.stop_le_start i (Nat.lt_of_succ_lt_succ hi)
  · rintro (_ | i) hi
    · simp [offsetsFrom, hfirst]
    · exact h.start_le_stop i (Nat.lt_of_succ_lt_succ hi)
  · rintro (_ | i) hi
    · intro c hc
      rw [List.append_assoc _ l.chars, offsetsFrom, offsetsFrom, extract_middle] at hc
      exact (Lexeme.isSkipped_iff c).mp (hb c hc)
    · exact h.blank i (Nat.lt_of_succ_lt_succ hi)
  · rintro (_ | i) hi
    · simp only [List.getElem_cons_zero, Lexeme.token, String.toList_ofList, offsetsFrom, hfirst,
        extract_middle]
    · exact h.token_text i (Nat.lt_of_succ_lt_succ hi)
  · rintro (_ | i) hi
    · simp only [List.getElem_cons_zero, Lexeme.token, ← Position.advance_append, offsetsFrom, hfirst,
        Position.ofOffset_append]
      rw [List.append_assoc _ l.chars, Position.ofOffset_append]
    · exact h.token_span i (Nat.lt_of_succ_lt_succ hi)

theorem stop_le_length (h : Covers text tokens start stop) {i : Nat} (hi : i ≤ tokens.length) :
    stop i ≤ text.length := by
  induction hi using Nat.decreasingInduction with
  | self => exact Nat.le_of_eq h.stop_length
  | of_succ i hi ih =>
    calc stop i ≤ start i := h.stop_le_start i hi
      _ ≤ stop (i + 1) := h.start_le_stop i hi
      _ ≤ text.length := ih

/-- Two tokens in a row touch exactly if nothing stands between them. -/
theorem adjacent_iff (h : Covers text tokens start stop) (i : Nat) (hi : i + 1 < tokens.length) :
    tokens[i].adjacent tokens[i + 1] = true ↔ stop (i + 1) = start (i + 1) := by
  have hle := h.stop_le_start (i + 1) hi
  have hlength : start (i + 1) ≤ text.length :=
    Nat.le_trans (h.start_le_stop (i + 1) hi) (h.stop_le_length hi)
  have hline : '\n' ∉ text.extract (stop (i + 1)) (start (i + 1)) := by
    intro hmem
    have := h.blank (i + 1) hi '\n' hmem
    simp at this
  rw [Token.adjacent, beq_iff_eq, h.token_span i (by omega), h.token_span (i + 1) hi]
  rw [Position.ofOffset_eq_advance text hle hlength, Position.advance_of_not_mem _ hline, eq_comm,
    Position.right_eq_self_iff]
  simp only [List.extract_eq_take_drop, List.length_take, List.length_drop]
  omega

end Covers

/-- Token `i` is the lexeme at `start i`, behind a token of the class before it. The first token
stands behind one of class `previous`. -/
def ReadOff (previous : Option Token.Kind) (text : List Char) (tokens : List Token)
    (start stop : Nat → Nat) : Prop :=
  ∀ i (hi : i < tokens.length), ∃ l,
    l = Lexeme.read (((tokens.take i).getLast?.map (·.kind)).or previous) (stop i == start i)
      (text.drop (start i)) ∧
    tokens[i].kind = l.kind ∧ tokens[i].text = String.ofList l.chars ∧ text.drop (stop (i + 1)) = l.rest

theorem ReadOff.cons {previous : Option Token.Kind} {text before blanks cs : List Char} {l : Lexeme}
    {tokens : List Token} {start stop : Nat → Nat} {p : Position}
    (htext : text = before ++ blanks ++ cs) (hl : l = Lexeme.read previous blanks.isEmpty cs)
    (hrest : text.drop (stop 0) = l.rest) (h : ReadOff (some l.kind) text tokens start stop) :
    ReadOff previous text (l.token p :: tokens) (offsetsFrom (before ++ blanks).length start)
      (offsetsFrom before.length stop) := by
  rintro (_ | i) hi
  · refine ⟨l, ?_, rfl, rfl, hrest⟩
    have htouches : (before.length == (before ++ blanks).length) = blanks.isEmpty := by
      cases blanks <;> simp
    simp only [List.take_zero, List.getLast?_nil, Option.map_none, Option.none_or, offsetsFrom]
    rw [htouches, htext, List.drop_left, hl]
  · obtain ⟨l', hl', hkind, hchars, hdrop⟩ := h i (Nat.lt_of_succ_lt_succ hi)
    refine ⟨l', ?_, hkind, hchars, hdrop⟩
    rw [hl', List.take_succ_cons, List.getLast?_cons]
    cases (tokens.take i).getLast? <;> rfl

namespace Reads

variable {previous : Option Token.Kind} {p : Position} {cs : List Char} {ts : List Token}

/-- Only the last token is the end of the text, and only this one is empty. -/
theorem end_iff_last (h : Reads previous p cs ts) (i : Nat) (hi : i < ts.length) :
    (ts[i].kind = .eof ↔ i + 1 = ts.length) ∧ (ts[i].text = "" ↔ i + 1 = ts.length) := by
  induction h generalizing i with
  | last =>
    obtain rfl : i = 0 := Nat.lt_one_iff.mp hi
    exact ⟨iff_of_true rfl rfl, iff_of_true rfl rfl⟩
  | token _ _ hl hts ih =>
    have hcuts := hl ▸ Lexeme.read_cuts _ _ _ _
    cases i with
    | zero =>
      have hlen := Nat.ne_of_lt (Nat.succ_lt_succ (List.length_pos_iff.mpr hts.ne_nil))
      exact ⟨iff_of_false hcuts.kind_ne hlen,
        iff_of_false (by simpa [Lexeme.token] using hcuts.chars_ne) hlen⟩
    | succ i =>
      rw [List.length_cons, Nat.succ_inj]
      exact ih i (Nat.lt_of_succ_lt_succ hi)

/-- With the text in front of it, `cs` is covered from its first character on, and each token is what is
read at its place. -/
theorem exists_offsets (h : Reads previous p cs ts) (before : List Char)
    (hp : p = Position.start.advance before) :
    ∃ start stop, stop 0 = before.length ∧ Covers (before ++ cs) ts start stop ∧
      ReadOff previous (before ++ cs) ts start stop := by
  induction h generalizing before with
  | @last _ p blanks hb =>
    have hnil := Covers.nil (before ++ blanks ++ [] ++ []) fun _ => 0
    have hcons := hnil.cons (l := ⟨.eof, [], []⟩) hb (congrArg _ (List.append_nil _))
    have hcovers : Covers (before ++ blanks) [⟨.eof, "", ⟨p.advance blanks, p.advance blanks⟩⟩]
        (offsetsFrom (before ++ blanks).length fun _ => 0)
        (offsetsFrom before.length fun _ => (before ++ blanks).length) := by
      simpa [Lexeme.token, hp, Position.advance_append] using hcons
    refine ⟨_, _, rfl, hcovers, ?_⟩
    exact ReadOff.cons (l := ⟨.eof, [], []⟩) (List.append_nil _).symm rfl (by simp)
      fun _ hi => absurd hi (Nat.not_lt_zero _)
  | @token previous p blanks cs c l ts hb _ hl _ ih =>
    have happend : l.chars ++ l.rest = c :: cs := hl ▸ Lexeme.read_append _ _ _
    obtain ⟨start, stop, hfirst, hcovers, hoff⟩ := ih (before ++ blanks ++ l.chars)
      (by rw [Position.advance_append, Position.advance_append, hp])
    have hcons := hcovers.cons hb hfirst
    have htext : before ++ blanks ++ l.chars ++ l.rest = before ++ (blanks ++ c :: cs) := by
      rw [List.append_assoc, happend, List.append_assoc]
    rw [Position.advance_append, ← hp, htext] at hcons
    rw [htext] at hoff
    refine ⟨_, _, rfl, hcons, hoff.cons (List.append_assoc _ _ _).symm hl ?_⟩
    rw [hfirst, ← htext, List.drop_left]

theorem exists_covers (h : Reads previous p cs ts) (before : List Char)
    (hp : p = Position.start.advance before) :
    ∃ start stop, stop 0 = before.length ∧ Covers (before ++ cs) ts start stop := by
  obtain ⟨start, stop, hfirst, hcovers, -⟩ := h.exists_offsets before hp
  exact ⟨start, stop, hfirst, hcovers⟩

end Reads

/-- The tokens of a text cover it up to blanks. -/
theorem tokenize_covers (text : String) :
    ∃ (tokens : List Token) (start stop : Nat → Nat),
      (∀ limit : Int, tokenize limit text = .ok tokens ↔ tokens.length ≤ limit) ∧
      tokens ≠ [] ∧
      stop 0 = 0 ∧ Covers text.toList tokens start stop ∧
      (∀ i (hi : i < tokens.length), (tokens[i].kind = .eof ↔ i + 1 = tokens.length) ∧
        (tokens[i].text = "" ↔ i + 1 = tokens.length)) ∧
      ∀ i (hi : i + 1 < tokens.length),
        tokens[i].adjacent tokens[i + 1] = true ↔ stop (i + 1) = start (i + 1) := by
  obtain ⟨tokens, hreads⟩ := Reads.exists_tokens none .start text.toList
  obtain ⟨start, stop, hfirst, hcovers⟩ := hreads.exists_covers [] rfl
  refine ⟨tokens, start, stop, fun limit => ?_, ?_, hfirst, hcovers, hreads.end_iff_last,
    hcovers.adjacent_iff⟩
  · rw [tokenize_eq_ok_iff, and_iff_right hreads]
  · exact hreads.ne_nil

end MatrixScript
