import MatrixScript.Proofs.Document.Word
import MatrixScript.Proofs.Symbol.Ranges

/-! The name at a cursor is the name that was scanned there.

The lines of tokens end at newlines only, the lines in which a cursor is looked up end at every line
break. Main statement: where the two agree up to a name, it is found at each of its columns. -/
namespace MatrixScript

namespace Text

/-- The line breaks are newlines, possibly with a carriage return before them. -/
def breaksAtNewlines : List Char → Bool
  | [] => true
  | '\r' :: '\n' :: cs => breaksAtNewlines cs
  | c :: cs => (c == '\n' || !isLineBreak c) && breaksAtNewlines cs

/-- A character other than a carriage return ends the line or goes on with it. -/
theorem linesFrom_cons {c : Char} (h : c ≠ '\r') (current cs : List Char) :
    linesFrom current (c :: cs) =
      if isLineBreak c then current.reverse :: linesFrom [] cs else linesFrom (c :: current) cs := by
  rw [linesFrom.eq_def]
  split
  · contradiction
  · rename_i heq
    cases heq
    contradiction
  · rename_i heq
    cases heq
    rfl

theorem linesFrom_newline (current cs : List Char) :
    linesFrom current ('\n' :: cs) = current.reverse :: linesFrom [] cs := by
  rw [linesFrom_cons (by decide), if_pos (by decide)]

theorem linesFrom_of_not_isLineBreak {c : Char} (h : isLineBreak c = false) (current cs : List Char) :
    linesFrom current (c :: cs) = linesFrom (c :: current) cs := by
  have hne : c ≠ '\r' := by
    intro hreturn
    rw [hreturn] at h
    contradiction
  rw [linesFrom_cons hne, if_neg (by simp [h])]

/-- The present line goes on to the next line break. -/
theorem linesFrom_getElem?_zero {current cs : List Char} (h : current ≠ [] ∨ cs ≠ []) :
    (linesFrom current cs)[0]? = some (current.reverse ++ cs.takeWhile fun c => !isLineBreak c) := by
  induction cs generalizing current with
  | nil =>
    have hne : current ≠ [] := by simpa using h
    have hlast : linesFrom current [] = [current.reverse] := if_neg (by simpa using hne)
    simp [hlast]
  | cons c cs ih =>
    by_cases hbreak : isLineBreak c = true
    · have hline : ∃ more, linesFrom current (c :: cs) = current.reverse :: more := by
        rw [linesFrom.eq_def]
        split
        · contradiction
        · exact ⟨_, rfl⟩
        · rename_i heq
          cases heq
          rw [if_pos hbreak]
          exact ⟨_, rfl⟩
      obtain ⟨more, hmore⟩ := hline
      rw [hmore]
      simp [hbreak]
    · have hnot : isLineBreak c = false := by simpa using hbreak
      rw [linesFrom_of_not_isLineBreak hnot, ih (.inl (List.cons_ne_nil _ _))]
      simp [hnot]

/-- Behind a text that breaks at newlines, lines and columns are those of the lookup. `head` is the part of
the line that stands before. -/
theorem exists_line_head {current before rest : List Char} {p : Position}
    (hcolumn : p.column = current.length) (hbefore : breaksAtNewlines before = true) (hrest : rest ≠ []) :
    ∃ head, head <:+ current.reverse ++ before ∧ (p.advance before).column = head.length ∧
      (linesFrom current (before ++ rest))[before.count '\n']? =
        some (head ++ rest.takeWhile fun c => !isLineBreak c) := by
  fun_induction breaksAtNewlines before generalizing current p with
  | case1 =>
    use current.reverse
    refine ⟨by simp, by simpa using hcolumn, ?_⟩
    exact linesFrom_getElem?_zero (.inr hrest)
  | case2 cs ih =>
    have hfirst : (Position.mk (p.line + 1) 0).column = ([] : List Char).length := rfl
    obtain ⟨head, hsuffix, hlength, hline⟩ := ih hfirst hbefore
    refine ⟨head, ?_, ?_, ?_⟩
    · have hcs : cs <:+ current.reverse ++ '\r' :: '\n' :: cs :=
        ⟨current.reverse ++ ['\r', '\n'], by simp⟩
      exact hsuffix.trans hcs
    · exact hlength
    · have hcount : ('\r' :: '\n' :: cs).count '\n' = cs.count '\n' + 1 := by simp
      rw [hcount]
      exact hline
  | case3 c cs hcrlf ih =>
    rw [Bool.and_eq_true] at hbefore
    obtain ⟨hc, hcs⟩ := hbefore
    by_cases hnewline : c = '\n'
    · subst hnewline
      have hfirst : (Position.mk (p.line + 1) 0).column = ([] : List Char).length := rfl
      obtain ⟨head, hsuffix, hlength, hline⟩ := ih hfirst hcs
      refine ⟨head, ?_, hlength, ?_⟩
      · have hcs : cs <:+ current.reverse ++ '\n' :: cs := ⟨current.reverse ++ ['\n'], by simp⟩
        exact hsuffix.trans hcs
      · rw [List.cons_append, linesFrom_newline, List.count_cons_self, List.getElem?_cons_succ]
        exact hline
    · have hnot : isLineBreak c = false := by simpa [hnewline] using hc
      have hnext : (p.next c).column = (c :: current).length := by
        simp [Position.next, hnewline, hcolumn]
      obtain ⟨head, hsuffix, hlength, hline⟩ := ih hnext hcs
      refine ⟨head, ?_, hlength, ?_⟩
      · simpa using hsuffix
      · rw [List.cons_append, linesFrom_of_not_isLineBreak hnot, List.count_cons_of_ne hnewline]
        exact hline

end Text

namespace Lexeme.IsWord

variable {name : List Char}

theorem isNameChar (h : IsWord name) : ∀ c ∈ name, Lexeme.isNameChar c = true := by
  obtain ⟨hc, hcs⟩ := h
  refine List.forall_mem_cons.mpr ⟨?_, hcs⟩
  simp only [isNameStart, Bool.or_eq_true] at hc
  simp only [Lexeme.isNameChar, Char.isAlphanum, Bool.or_eq_true]
  exact hc.imp_left .inl

theorem isWordChar (h : IsWord name) : ∀ c ∈ name, Text.isWordChar c = true := by
  intro c hc
  have hname := h.isNameChar c hc
  simp only [Lexeme.isNameChar, Bool.or_eq_true] at hname
  simp only [Text.isWordChar, Text.isAlphanumeric, Bool.or_eq_true]
  exact hname.imp_left .inl

theorem not_isLineBreak (h : IsWord name) : ∀ c ∈ name, Text.isLineBreak c = false := by
  intro c hc
  by_contra hbreak
  have hname := h.isNameChar c hc
  simp only [Text.isLineBreak, Bool.not_eq_false, Bool.or_eq_true, beq_iff_eq] at hbreak
  rcases hbreak with ((((((((rfl | rfl) | rfl) | rfl) | rfl) | rfl) | rfl) | rfl) | rfl) | rfl <;>
    exact absurd hname (by decide)

theorem point_not_mem (h : IsWord name) : '.' ∉ name := by
  intro hmem
  exact absurd (h.isNameChar '.' hmem) (by decide)

end Lexeme.IsWord

namespace Word

/-- Between other characters, a name is found at each of its columns. -/
theorem inLine?_name {head name tail : List Char} (hname : Lexeme.IsWord name)
    (hhead : ∀ c ∈ head.getLast?, Text.isWordChar c = false)
    (htail : ∀ c ∈ tail.head?, Text.isWordChar c = false) (line : Nat) {k : Nat} (hk : k ≤ name.length) :
    ∃ w, inLine? (head ++ (name ++ tail)) line (head.length + k) = some w ∧
      w.span.stop = ⟨line, head.length + name.length⟩ ∧
      (Text.fields '.' w.text.toList).getLast? = some name := by
  have hrun : IsRun head name tail := ⟨hname.isWordChar, hhead, htail⟩
  have hpoint := hname.point_not_mem
  obtain ⟨hc, -⟩ := hname
  rename_i c cs
  have hdigit : ¬Text.isDigit c = true := by
    intro hdigit
    rw [Lexeme.isNameStart_eq_false_of_isDigit hdigit] at hc
    contradiction
  refine ⟨_, (inLine?_run hrun line hk).trans (if_neg hdigit), ?_, ?_⟩
  · simp only [Span.ofNats, Int.natCast_add]
  · rw [String.toList_ofList]
    exact getLast?_fields_extendLeft hpoint _ _

theorem at?_name {text : String} {before name after : List Char}
    (htext : text.toList = before ++ name ++ after) (hname : Lexeme.IsWord name)
    (hbefore : ∀ c ∈ before.getLast?, Text.isWordChar c = false)
    (hafter : ∀ c ∈ after.head?, Text.isWordChar c = false)
    (hbreaks : Text.breaksAtNewlines before = true) {k : Nat} (hk : k ≤ name.length) :
    ∃ w, at? text (Position.start.advance before).line ((Position.start.advance before).column + k) = some w ∧
      w.span.stop = (Position.start.advance before).right name.length ∧
      (Text.fields '.' w.text.toList).getLast? = some name := by
  have hne : name ++ after ≠ [] := by
    obtain ⟨_, _⟩ := hname
    simp
  have hstart : Position.start.column = ([] : List Char).length := rfl
  obtain ⟨head, hsuffix, hcolumn, hline⟩ := Text.exists_line_head hstart hbreaks hne
  have hnumber : (Position.start.advance before).line = before.count '\n' := by
    rw [Position.line_advance]
    simp [Position.start]
  have hplace : Position.start.advance before = ⟨before.count '\n', head.length⟩ := by
    rw [← hcolumn, ← hnumber]
  have hhead : ∀ c ∈ head.getLast?, Text.isWordChar c = false := by
    intro c hc
    apply hbefore
    obtain ⟨front, hfront⟩ := hsuffix
    have hlast : before = front ++ head := by simpa using hfront.symm
    rw [Option.mem_def] at hc ⊢
    rw [hlast, List.getLast?_append, hc]
    rfl
  -- what follows the name on its line starts like what follows it in the text
  have htail : ∀ c ∈ (after.takeWhile fun c => !Text.isLineBreak c).head?, Text.isWordChar c = false := by
    intro c hc
    apply hafter
    cases after with
    | nil => exact hc
    | cons d after =>
      rw [List.takeWhile_cons] at hc
      split_ifs at hc
      · exact hc
      · contradiction
  have hrest : (name ++ after).takeWhile (fun c => !Text.isLineBreak c) =
      name ++ after.takeWhile fun c => !Text.isLineBreak c := by
    apply List.takeWhile_append_of_pos
    intro c hc
    simp [hname.not_isLineBreak c hc]
  obtain ⟨w, hw, hstop, hsegment⟩ := inLine?_name hname hhead htail (before.count '\n') hk
  refine ⟨w, ?_, ?_, hsegment⟩
  · have hfound : (Text.lines text.toList)[before.count '\n']? =
        some (head ++ (name ++ after.takeWhile fun c => !Text.isLineBreak c)) := by
      rw [Text.lines, htext, List.append_assoc, hline, hrest]
    have hlength : ¬(head ++ (name ++ after.takeWhile fun c => !Text.isLineBreak c)).length <
        head.length + k := by
      simp only [List.length_append]
      omega
    rw [hplace, at?, if_neg (by simp; omega)]
    have hcolumn : ((head.length : Int) + k).toNat = head.length + k := by omega
    simp only [Int.toNat_natCast, hcolumn, hfound]
    exact (if_neg hlength).trans hw
  · rw [hstop, hplace]
    rfl

end Word

/-- The text is what stands before the token, the token and what stands behind it. -/
structure Token.Between (t : Token) (text : String) (before after : List Char) : Prop where
  text_eq : text.toList = before ++ t.text.toList ++ after
  start_eq : t.span.start = Position.start.advance before

theorem Shows.between {text : String} {t : Token} (h : Shows text t.text t.span) :
    ∃ before after, t.Between text before after := by
  obtain ⟨a, b, hab, hb, hspan, htext⟩ := h
  refine ⟨text.toList.take a, text.toList.drop b, ?_, ?_⟩
  · rw [← htext, List.extract_eq_take_drop, ← List.take_add, Nat.add_sub_cancel' hab,
      List.take_append_drop]
  · have hplace := Position.ofOffset_append (text.toList.take a) (text.toList.drop a)
    rw [List.take_append_drop, List.length_take, Nat.min_eq_left (Nat.le_trans hab hb)] at hplace
    rw [hspan, hplace]

/-- A name stands in the text. If no character of a word touches it there, and the text before it breaks
at newlines, then at each column of the name the lookup finds a word that ends where the name ends and
has it as its last segment. -/
theorem name_found_at_cursor (limit : Int) (text : String) (tokens : List Token)
    (htokens : tokenize limit text = .ok tokens) (t : Token) (ht : t ∈ tokens) (hname : t.isName = true) :
    t.span.stop.line = t.span.start.line ∧ (∃ before after, t.Between text before after) ∧
    ∀ before after : List Char, t.Between text before after →
      (∀ c ∈ before.getLast?, Text.isWordChar c = false) →
      (∀ c ∈ after.head?, Text.isWordChar c = false) → Text.breaksAtNewlines before = true →
      ∀ column : Int, t.span.start.column ≤ column → column ≤ t.span.stop.column →
        ∃ w, Word.at? text t.span.start.line column = some w ∧ w.span.stop = t.span.stop ∧
          (Text.fields '.' w.text.toList).getLast? = some t.text.toList := by
  have hreads := ((tokenize_eq_ok_iff limit text tokens).mp htokens).1
  have hword := ((hreads.wellSpelled t ht).isWord hname).1
  have hshown := tokens_shown hreads t ht
  have hstop : t.span.stop = t.span.start.right t.text.length :=
    congrArg Span.stop (hshown.span_eq_right hword.newline_not_mem)
  have hline : t.span.stop.line = t.span.start.line := by
    rw [hstop]
    rfl
  refine ⟨hline, hshown.between, ?_⟩
  intro before after hbetween hbefore hafter hbreaks column hlow hhigh
  have hlength : t.text.toList.length = t.text.length := String.length_toList
  obtain ⟨k, hcolumn⟩ := Int.le.dest hlow
  have hk : k ≤ t.text.toList.length := by
    rw [hstop, Position.right] at hhigh
    dsimp only at hhigh
    omega
  have hfound := Word.at?_name hbetween.text_eq hword hbefore hafter hbreaks hk
  rwa [← hbetween.start_eq, hcolumn, hlength, ← hstop] at hfound

/-- The tokens of `%` and, on the next line, `s.ab'`. -/
def pathTokens : List Token := [
  ⟨.comment, "%\r", ⟨⟨0, 0⟩, ⟨0, 2⟩⟩⟩, ⟨.newline, "\n", ⟨⟨0, 2⟩, ⟨1, 0⟩⟩⟩,
  ⟨.identifier, "s", ⟨⟨1, 0⟩, ⟨1, 1⟩⟩⟩, ⟨.sign .period, ".", ⟨⟨1, 1⟩, ⟨1, 2⟩⟩⟩,
  ⟨.identifier, "ab", ⟨⟨1, 2⟩, ⟨1, 4⟩⟩⟩, ⟨.transpose, "'", ⟨⟨1, 4⟩, ⟨1, 5⟩⟩⟩,
  ⟨.eof, "", ⟨⟨1, 5⟩, ⟨1, 5⟩⟩⟩]

/-- Inside of the field of a dotted path, behind a carriage return with its newline. -/
theorem name_found_at_cursor_field :
    tokenize 7 "%\r\ns.ab'" = .ok pathTokens ∧
    Token.Between ⟨.identifier, "ab", ⟨⟨1, 2⟩, ⟨1, 4⟩⟩⟩ "%\r\ns.ab'" "%\r\ns.".toList "'".toList ∧
    ∃ w, Word.at? "%\r\ns.ab'" 1 3 = some w ∧ w.span.stop = ⟨1, 4⟩ ∧
      (Text.fields '.' w.text.toList).getLast? = some "ab".toList := by
  have htokens : tokenize 7 "%\r\ns.ab'" = .ok pathTokens := by decide +kernel
  have hbetween : Token.Between ⟨.identifier, "ab", ⟨⟨1, 2⟩, ⟨1, 4⟩⟩⟩ "%\r\ns.ab'" "%\r\ns.".toList
      "'".toList := ⟨by decide +kernel, by decide +kernel⟩
  -- Simplified first: deciding the quantifier as it stands would go through all characters.
  have hbefore : ∀ c ∈ "%\r\ns.".toList.getLast?, Text.isWordChar c = false := by
    simp only [String.reduceToList, List.getLast?_cons_cons, List.getLast?_singleton, Option.mem_some,
      forall_eq']
    decide +kernel
  have hafter : ∀ c ∈ "'".toList.head?, Text.isWordChar c = false := by
    simp only [String.reduceToList, List.head?_cons, Option.mem_some, forall_eq']
    decide +kernel
  exact ⟨htokens, hbetween, (name_found_at_cursor 7 _ pathTokens htokens
    ⟨.identifier, "ab", ⟨⟨1, 2⟩, ⟨1, 4⟩⟩⟩ (by decide +kernel) rfl).2.2 _ _ hbetween hbefore hafter
    (by decide +kernel) 3 (by decide) (by decide)⟩

/-- Behind a form feed, which is a blank between tokens and the end of a line for the lookup, a name is not
found, or another one is found in its place. -/
theorem name_missed_behind_formFeed :
    (tokenize 2 "\x0cx" = .ok [⟨.identifier, "x", ⟨⟨0, 1⟩, ⟨0, 2⟩⟩⟩, ⟨.eof, "", ⟨⟨0, 2⟩, ⟨0, 2⟩⟩⟩] ∧
      Word.at? "\x0cx" 0 1 = none) ∧
    tokenize 5 "x\x0cy\nz" = .ok [⟨.identifier, "x", ⟨⟨0, 0⟩, ⟨0, 1⟩⟩⟩,
      ⟨.identifier, "y", ⟨⟨0, 2⟩, ⟨0, 3⟩⟩⟩, ⟨.newline, "\n", ⟨⟨0, 3⟩, ⟨1, 0⟩⟩⟩,
      ⟨.identifier, "z", ⟨⟨1, 0⟩, ⟨1, 1⟩⟩⟩, ⟨.eof, "", ⟨⟨1, 1⟩, ⟨1, 1⟩⟩⟩] ∧
    Word.at? "x\x0cy\nz" 1 0 = some ⟨"y", ⟨⟨1, 0⟩, ⟨1, 1⟩⟩⟩ := by
  decide +kernel

end MatrixScript
