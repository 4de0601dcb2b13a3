import MatrixScript.Proofs.Token.Placement
import MatrixScript.Token.Stream

/-! Streams that share a scanner never mix texts: whatever is done with the scanner, it has read the tokens of
one text in their order. -/
namespace MatrixScript

/-- The tokens of a text, however few of them a limit allows. -/
def IsTokensOf (text : String) (tokens : List Token) : Prop :=
  ∀ limit : Int, tokenize limit text = .ok tokens ↔ tokens.length ≤ limit

theorem Reads.isTokensOf {text : String} {tokens : List Token} (h : Reads none .start text.toList tokens) :
    IsTokensOf text tokens := by
  intro limit
  rw [tokenize_eq_ok_iff, and_iff_right h]

namespace Scanner

/-- A scanner has read the first tokens of its text, or all of them and its end token again. `front` is
what it has passed, `left` what it will read. -/
structure Follows (s : Scanner) (tokens left : List Token) (front : List Char) : Prop where
  reads : Reads none .start s.text.toList tokens
  reads_left : Reads (s.history.back?.map (·.kind)) s.position s.rest left
  text : s.text.toList = front ++ s.rest
  offset : s.offset = front.length
  position : s.position = Position.start.advance front
  stop : s.position = (s.history.back?.map (·.span.stop)).getD .start
  split : s.history.toList ++ left = tokens ∨
    ∃ last n, tokens.getLast? = some last ∧ left = [last] ∧ s.history.toList = tokens ++ List.replicate n last

theorem exists_follows_ofText (text : String) : ∃ tokens, (ofText text).Follows tokens tokens [] := by
  obtain ⟨tokens, hreads⟩ := Reads.exists_tokens none .start text.toList
  exact ⟨tokens, hreads, hreads, rfl, rfl, rfl, rfl, .inl rfl⟩

namespace Follows

variable {s : Scanner} {tokens left left' : List Token} {front blanks body : List Char}

section

variable (h : s.Follows tokens left front)
include h

/-- Reading on passes some blanks and a lexeme. -/
theorem pass (hrest : s.rest = blanks ++ body) (hb : ∀ b ∈ blanks, Lexeme.isSkipped b = true)
    (hbody : ∀ c ∈ body.head?, Lexeme.isSkipped c = false) {l : Lexeme}
    (hl : l = Lexeme.read (s.history.back?.map (·.kind)) blanks.isEmpty body)
    (hleft : Reads (some l.kind) ((s.position.advance blanks).advance l.chars) l.rest left')
    (hsplit : s.history.toList ++ [s.next.1] ++ left' = tokens ∨ ∃ last n, tokens.getLast? = some last ∧
      left' = [last] ∧ s.history.toList ++ [s.next.1] = tokens ++ List.replicate n last) :
    s.next.2.Follows tokens left' (front ++ blanks ++ l.chars) := by
  have hnext := next_eq hrest hb hbody
  have happend : l.chars ++ l.rest = body := hl ▸ Lexeme.read_append _ _ _
  rw [← hl] at hnext
  rw [hnext] at hsplit ⊢
  refine ⟨h.reads, ?_, ?_, ?_, ?_, ?_, ?_⟩
  · simpa [Lexeme.token] using hleft
  · rw [h.text, hrest, ← happend, List.append_assoc, List.append_assoc]
  · simp only [h.offset, List.length_append]
  · rw [Position.advance_append, Position.advance_append, ← h.position]
    rfl
  · simp
  · simpa using hsplit

/-- Reading on takes the first of the tokens that are left. Behind the end token the same one is left
again. -/
theorem next : ∃ left' front', s.next.2.Follows tokens left' front' := by
  have hleft := h.reads_left
  have hsplit := h.split
  generalize hprevious : s.history.back?.map (·.kind) = previous at hleft
  generalize hp : s.position = p at hleft
  generalize hrest : s.rest = rest at hleft
  cases hleft with
  | last hb =>
    subst hp
    have hrest' : s.rest = rest ++ [] := by rw [hrest, List.append_nil]
    have hlast : s.next.1 = ⟨.eof, "", ⟨s.position.advance rest, s.position.advance rest⟩⟩ := by
      rw [next_eq hrest' hb nofun]
      rfl
    rw [← hlast] at hsplit
    refine ⟨[s.next.1], _, h.pass hrest' hb nofun rfl ?_ (.inr ⟨s.next.1, ?_⟩)⟩
    · rw [hlast]
      exact .last nofun
    · rcases hsplit with hall | ⟨last, n, hget, heq, hmore⟩
      · exact ⟨0, by rw [← hall]; simp, rfl, by simpa using hall⟩
      · obtain rfl := List.singleton_inj.mp heq
        exact ⟨n + 1, hget, rfl, by rw [hmore, List.replicate_succ', List.append_assoc]⟩
  | @token _ _ blanks cs c l ts hb hc hl hts =>
    subst hp hprevious
    have hbody : ∀ d ∈ (c :: cs).head?, Lexeme.isSkipped d = false := by simpa using hc
    have htoken : s.next.1 = l.token (s.position.advance blanks) := by
      rw [next_eq hrest hb hbody, hl]
    rw [← htoken] at hsplit
    refine ⟨ts, _, h.pass hrest hb hbody hl hts (.inl ?_)⟩
    rcases hsplit with hall | ⟨last, n, -, heq, -⟩
    · rw [List.append_assoc]
      exact hall
    · exact absurd (List.cons.inj heq).2 hts.ne_nil

/-- What was read as token number `i`; numbers behind the last one stand for the end token. -/
theorem history_getElem? {i : Nat} (hi : i < s.history.size) :
    s.history.toList[i]? = tokens[min i (tokens.length - 1)]? := by
  rcases h.split with hall | ⟨last, n, hlast, -, hmore⟩
  · have hlength := congrArg List.length hall
    have hpos := List.length_pos_iff.mpr h.reads_left.ne_nil
    rw [List.length_append, Array.length_toList] at hlength
    rw [Nat.min_eq_left (by omega), ← hall, List.getElem?_append_left (by simpa using hi)]
  · rw [hmore]
    by_cases hlt : i < tokens.length
    · rw [Nat.min_eq_left (by omega), List.getElem?_append_left hlt]
    · have hsize := congrArg List.length hmore
      rw [List.length_append, List.length_replicate, Array.length_toList] at hsize
      rw [Nat.min_eq_right (by omega), ← List.getLast?_eq_getElem?, hlast,
        List.getElem?_append_right (by omega), List.getElem?_replicate_of_lt (by omega)]

theorem next_getElem? : tokens[min s.history.size (tokens.length - 1)]? = some s.next.1 := by
  obtain ⟨left', front', hnext⟩ := h.next
  have hpush : s.next.2.history = s.history.push s.next.1 := rfl
  rw [← hnext.history_getElem? (i := s.history.size) (by simp [hpush]), hpush]
  simp

/-- The end token is read when no other one is left. -/
theorem next_kind_iff : s.next.1.kind = .eof ↔ tokens.length ≤ s.history.size + 1 := by
  have hpos := List.length_pos_iff.mpr h.reads.ne_nil
  have hlt : min s.history.size (tokens.length - 1) < tokens.length := by omega
  have hget := h.next_getElem?
  rw [List.getElem?_eq_getElem hlt, Option.some.injEq] at hget
  rw [← hget, (h.reads.end_iff_last _ hlt).1]
  omega

/-- A scanner stands behind the last token that it has read. -/
theorem offset_eq {start stop : Nat → Nat} (hfirst : stop 0 = 0)
    (hcovers : Covers s.text.toList tokens start stop) :
    s.offset = stop (min s.history.size tokens.length) := by
  have hplace : s.position = Position.ofOffset s.text.toList s.offset := by
    rw [h.text, h.offset, Position.ofOffset_append, h.position]
  have hle : s.offset ≤ s.text.toList.length := by
    rw [h.text, h.offset, List.length_append]
    omega
  have hstop := hcovers.stop_le_length (i := min s.history.size tokens.length) (by omega)
  refine Position.ofOffset_inj _ hle hstop ?_
  rw [← hplace, h.stop]
  by_cases hempty : s.history.size = 0
  · have hnone : s.history.back? = none := by simp [Array.eq_empty_of_size_eq_zero hempty]
    rw [hempty, Nat.zero_min, hfirst, hnone]
    rfl
  · have hpos := List.length_pos_iff.mpr h.reads.ne_nil
    have hlast := h.history_getElem? (i := s.history.size - 1) (by omega)
    have hmin : min (s.history.size - 1) (tokens.length - 1) = min s.history.size tokens.length - 1 := by
      omega
    have hlt : min s.history.size tokens.length - 1 < tokens.length := by omega
    have hspan := hcovers.token_span _ hlt
    rw [hmin, List.getElem?_eq_getElem hlt] at hlast
    rw [Nat.sub_add_cancel (by omega)] at hspan
    rw [Array.back?_eq_getElem?, ← Array.getElem?_toList, hlast, Option.map_some, Option.getD_some, hspan]

/-- What is left of the tokens as long as not all have been read. -/
theorem left_eq (hsize : s.history.size < tokens.length) : left = tokens.drop s.history.size := by
  rcases h.split with hall | ⟨last, n, -, -, hmore⟩
  · rw [← hall, ← Array.length_toList, List.drop_left]
  · have hlength := congrArg List.length hmore
    rw [List.length_append, Array.length_toList] at hlength
    omega

end

end Follows

def InStep (s : Scanner) : Prop := ∃ tokens left front, s.Follows tokens left front

theorem InStep.ofText (text : String) : (Scanner.ofText text).InStep := by
  obtain ⟨tokens, h⟩ := exists_follows_ofText text
  exact ⟨tokens, tokens, [], h⟩

theorem InStep.next {s : Scanner} (h : s.InStep) : s.next.2.InStep := by
  obtain ⟨tokens, left, front, h⟩ := h
  exact ⟨tokens, h.next⟩

/-- Reading all tokens is reading on again and again, even if there are too many. -/
theorem InStep.drainUpTo {s : Scanner} (h : s.InStep) (limit : Int) (n : Nat) (read : Array Token) :
    (s.drainUpTo limit n read).2.InStep := by
  induction n generalizing s read with
  | zero => exact h
  | succ n ih =>
    rw [drainUpTo_succ]
    split_ifs
    · exact h.next
    · exact h.next
    · exact ih h.next _

end Scanner

namespace TokenStream

/-- The scanner as a stream finds it: a stream with a text of its own turns it to that text first. -/
def turn : TokenStream → Scanner → Scanner
  | .fresh (some text), _ => .ofText text
  | _, s => s

/-- A stream that has not ended gives the next token of the scanner as it finds it, and ends with the end
token. -/
theorem next_of_ne_ended {stream : TokenStream} (h : stream ≠ .ended) (s : Scanner) :
    stream.next s = advance (stream.turn s) := by
  match stream with
  | .fresh none | .fresh (some text) | .running => rfl
  | .ended => exact absurd rfl h

theorem turn_inStep (stream : TokenStream) {s : Scanner} (h : s.InStep) : (stream.turn s).InStep := by
  unfold turn
  split
  · exact .ofText _
  · exact h

theorem take_inStep (n : Nat) (stream : TokenStream) {s : Scanner} (h : s.InStep) :
    (take n stream s).2.2.InStep := by
  induction n generalizing stream s with
  | zero => exact h
  | succ n ih =>
    by_cases hended : stream = .ended
    · subst hended
      exact ih .ended h
    · simp only [take, next_of_ne_ended hended]
      exact ih _ (stream.turn_inStep h).next

theorem take_ended (n : Nat) (s : Scanner) : take n .ended s = (List.replicate n none, .ended, s) := by
  induction n with
  | zero => rfl
  | succ n ih => simp only [take, next, ih, List.replicate_succ]

theorem take_text (stream : TokenStream) (s : Scanner) {n : Nat} (hn : 0 < n) :
    (take n stream s).2.2.text = (stream.turn s).text := by
  induction n generalizing stream s with
  | zero => exact absurd hn (Nat.lt_irrefl 0)
  | succ n ih =>
    by_cases hended : stream = .ended
    · rw [hended, take_ended]
      rfl
    · simp only [take, next_of_ne_ended hended, advance]
      by_cases hlast : n = 0
      · subst hlast
        rfl
      · rw [ih _ _ (by omega)]
        split_ifs <;> rfl

/-- A stream gives the tokens of its text that have not been read, up to the end token. -/
theorem take_eq {stream : TokenStream} (hlive : stream ≠ .ended) {s : Scanner} {tokens left : List Token}
    {front : List Char} (h : (stream.turn s).Follows tokens left front) (n : Nat) :
    (take n stream s).1 = (List.range n).map fun i =>
      tokens[min (stream.turn s).history.size (tokens.length - 1) + i]? := by
  induction n generalizing stream s left front with
  | zero => rfl
  | succ n ih =>
    have htoken := h.next_getElem?
    have hkind := h.next_kind_iff
    rw [List.range_succ_eq_map, List.map_cons, List.map_map]
    simp only [take, next_of_ne_ended hlive, advance, Nat.add_zero, htoken]
    congr 1
    split_ifs with hend
    · rw [hkind] at hend
      rw [take_ended]
      refine (List.eq_replicate_iff.mpr ⟨by simp, fun t ht => ?_⟩).symm
      obtain ⟨i, -, rfl⟩ := List.mem_map.mp ht
      exact List.getElem?_eq_none (by simp only [Nat.succ_eq_add_one]; omega)
    · obtain ⟨left', front', h'⟩ := h.next
      have hsize : (stream.turn s).next.2.history.size = (stream.turn s).history.size + 1 := Array.size_push _
      have hrunning : TokenStream.running ≠ .ended := nofun
      rw [hkind] at hend
      rw [ih hrunning h']
      refine List.map_congr_left fun i _ => congrArg (tokens[·]?) ?_
      change min (stream.turn s).next.2.history.size _ + i = _
      omega

end TokenStream

namespace SharedScanner

/-- The scanners that come about by any sequence of requests. -/
inductive Reachable : SharedScanner → Prop where
  | ofText (limit : Int) (text : String) : Reachable (ofText limit text)
  | step {s : SharedScanner} (request : ScannerRequest) : Reachable s → Reachable (s.step request).2

theorem inStep_step {s : SharedScanner} (h : s.scanner.InStep) (request : ScannerRequest) :
    (s.step request).2.scanner.InStep := by
  cases request with
  | reset text => exact .ofText text
  | openStream text? => exact h
  | reopen => exact h
  | take n => exact TokenStream.take_inStep n _ h
  | takeFrom stream n => exact TokenStream.take_inStep n _ h
  | drain text? =>
    have hfrom : (text?.elim s.scanner Scanner.ofText).InStep := by
      cases text? with
      | none => exact h
      | some text => exact .ofText text
    have hdrain := hfrom.drainUpTo s.limit ((text?.elim s.scanner Scanner.ofText).rest.length + 1) #[]
    simp only [step, Scanner.drain]
    split <;> simp_all
  | limit n => exact h

theorem Reachable.inStep {s : SharedScanner} (h : s.Reachable) : s.scanner.InStep := by
  induction h with
  | ofText limit text => exact .ofText text
  | step request _ ih => exact inStep_step ih request

theorem step_takeFrom {s : SharedScanner} {stream : Nat} {st : TokenStream}
    (hstream : s.streams[stream]? = some st) (n : Nat) : s.step (.takeFrom stream n) =
      (.taken (st.take n s.scanner).1, { s with
        streams := s.streams.set stream (st.take n s.scanner).2.1
        scanner := (st.take n s.scanner).2.2 }) := by
  simp only [step, takeFrom, List.getD_eq_getElem?_getD, hstream, Option.getD_some]

/-- A stream that has not ended gives the next tokens of the text that the scanner has then. -/
theorem taken_eq {s : SharedScanner} (h : s.scanner.InStep) {stream : Nat} {st : TokenStream}
    (hstream : s.streams[stream]? = some st) (hlive : st ≠ .ended) {n : Nat} (hn : 0 < n) :
    ∃ tokens, IsTokensOf (s.step (.takeFrom stream n)).2.scanner.text tokens ∧
      (s.step (.takeFrom stream n)).1 = .taken ((List.range n).map fun i =>
        tokens[min (st.turn s.scanner).history.size (tokens.length - 1) + i]?) := by
  obtain ⟨tokens, left, front, hfollows⟩ := st.turn_inStep h
  rw [step_takeFrom hstream, TokenStream.take_eq hlive hfollows]
  refine ⟨tokens, ?_, rfl⟩
  simp only [TokenStream.take_text st s.scanner hn]
  exact hfollows.reads.isTokensOf

theorem drain_answer {s : SharedScanner} {tokens left : List Token} {front : List Char}
    (h : s.scanner.Follows tokens left front) :
    ∃ e, (∃ t ∈ left, e.position = t.span.start) ∧
      (s.step (.drain none)).1 = if (left.length : Int) ≤ s.limit then .drained left else .failed e := by
  have he := h.reads_left.drainUpTo s.limit h.reads_left.length_le #[] rfl rfl rfl
  have hlimit := h.reads_left.getElem?_limit s.limit
  simp only [Array.size_empty, Int.natCast_zero, Int.sub_zero, Array.empty_append] at he
  simp only [step, Option.elim_none, Scanner.drain]
  cases hbeyond : left[s.limit.toNat]? with
  | none =>
    rw [hbeyond] at he
    refine ⟨⟨s.limit, (left.head h.reads_left.ne_nil).span.start⟩, ⟨_, List.head_mem _, rfl⟩, ?_⟩
    rw [if_pos (hlimit.mp hbeyond)]
    split <;> simp_all
  | some t =>
    rw [hbeyond] at he
    refine ⟨⟨s.limit, t.span.start⟩, ⟨t, List.mem_of_getElem? hbeyond, rfl⟩, ?_⟩
    rw [if_neg (by simp [← hlimit, hbeyond])]
    split <;> simp_all

/-- However a scanner is shared, it has read the first tokens of its text and stands behind the last of
them; only behind all of them its end token may have been read again. A stream that is asked turns the
scanner to the stream's own text, if nothing was asked of it before, and gives what comes next up to the end
token. Reading all tokens gives those that are left, if the limit allows them. -/
theorem streams_in_step {s : SharedScanner} (h : s.Reachable) :
    ∃ (before : List Token) (last : Token) (start stop : Nat → Nat),
      IsTokensOf s.scanner.text (before ++ [last]) ∧ last.kind = .eof ∧
      Covers s.scanner.text.toList (before ++ [last]) start stop ∧ stop 0 = 0 ∧
      (s.scanner.history.toList <+: before ++ [last] ∨
        ∃ n, s.scanner.history.toList = before ++ [last] ++ List.replicate n last) ∧
      s.scanner.offset = stop (min s.scanner.history.size (before ++ [last]).length) ∧
      (∀ stream st n, s.streams[stream]? = some st → st ≠ .ended → 0 < n →
        ∃ tokens, IsTokensOf (s.step (.takeFrom stream n)).2.scanner.text tokens ∧
          (s.step (.takeFrom stream n)).1 = .taken ((List.range n).map fun i =>
            tokens[min (st.turn s.scanner).history.size (tokens.length - 1) + i]?)) ∧
      (∀ stream n, s.streams[stream]? = some .ended →
        (s.step (.takeFrom stream n)).1 = .taken (List.replicate n none)) ∧
      (s.scanner.history.size < (before ++ [last]).length →
        ∃ e, (∃ t ∈ (before ++ [last]).drop s.scanner.history.size, e.position = t.span.start) ∧
          (s.step (.drain none)).1 =
            if ((before ++ [last]).length : Int) ≤ s.scanner.history.size + s.limit then
              .drained ((before ++ [last]).drop s.scanner.history.size)
            else .failed e) := by
  obtain ⟨tokens, left, front, hfollows⟩ := h.inStep
  obtain ⟨before, last, rfl⟩ : ∃ before last, tokens = before ++ [last] :=
    ⟨_, _, (List.dropLast_concat_getLast hfollows.reads.ne_nil).symm⟩
  obtain ⟨start, stop, hfirst, hcovers⟩ := hfollows.reads.exists_covers [] rfl
  have hlast := (hfollows.reads.end_iff_last before.length (by simp)).1.mpr (by simp)
  refine ⟨before, last, start, stop, hfollows.reads.isTokensOf, by simpa using hlast, hcovers, hfirst, ?_,
    hfollows.offset_eq hfirst hcovers,
    fun stream st n hstream hlive => taken_eq h.inStep hstream hlive, ?_, ?_⟩
  · rcases hfollows.split with hall | ⟨last', n, hget, -, hmore⟩
    · exact .inl ⟨left, hall⟩
    · rw [List.getLast?_concat] at hget
      cases hget
      exact .inr ⟨n, hmore⟩
  · intro stream n hstream
    rw [step_takeFrom hstream, TokenStream.take_ended]
  · intro hsize
    obtain ⟨e, hposition, he⟩ := drain_answer hfollows
    obtain rfl := hfollows.left_eq hsize
    refine ⟨e, hposition, he.trans (if_congr ?_ rfl rfl)⟩
    rw [List.length_drop]
    omega

/-- The first of two streams is asked, and then the second one, which has a text of its own. -/
def interleaved : SharedScanner :=
  [.openStream none, .openStream (some "x % y"), .takeFrom 0 1, .takeFrom 1 2].foldl
    (fun s request => (s.step request).2) (ofText 1 "a b")

theorem interleaved_reachable : interleaved.Reachable :=
  .step _ (.step _ (.step _ (.step _ (.ofText _ _))))

theorem streams_in_step_interleaved :
    interleaved.Reachable ∧ interleaved.scanner.text = "x % y" ∧
      interleaved.scanner.history.toList.map (·.text) = ["x", "%"] ∧
      ∃ tokens, IsTokensOf (interleaved.step (.takeFrom 0 3)).2.scanner.text tokens ∧
        (interleaved.step (.takeFrom 0 3)).1 =
          .taken ((List.range 3).map fun i => tokens[min 2 (tokens.length - 1) + i]?) := by
  obtain ⟨_, _, _, _, -, -, -, -, -, -, htake, -⟩ := streams_in_step interleaved_reachable
  exact ⟨interleaved_reachable, by decide +kernel, by decide +kernel,
    htake 0 .running 3 (by decide +kernel) nofun (by decide)⟩

end SharedScanner

end MatrixScript
