import MatrixScript.Proofs.Parser.Accounts
import MatrixScript.Proofs.Parser.Enclosure
import MatrixScript.Proofs.Token.Classes

/-! The comments that document a function.

Main statement: the documentation of a function is the whole run of comment lines next above it, or else the one
next below its header. That one lies in the function, unless the function ends before it. -/
namespace MatrixScript

/-! What the lines of a text hold. The rest of a line behind three points is no code. -/

/-- Some code starts on the line. -/
def CodeLine (ts : List Token) (line : Nat) : Prop :=
  ∃ t ∈ (Code.ofTokens ts).tokens, t.kind ≠ .newline ∧ t.line = line

/-- No code starts on the line, but a comment that is no cell separator does. It need not stand alone: behind
three points at the start of the line there may be tokens before it. -/
def CommentLine (ts : List Token) (line : Nat) (text : String) : Prop :=
  ¬CodeLine ts line ∧ ∃ t ∈ ts, t.kind = .comment ∧ t.line = line ∧ text = Layout.commentText t.text

def BlankLine (ts : List Token) (line : Nat) : Prop :=
  ¬CodeLine ts line ∧ ∀ t ∈ ts, t.kind.isComment = true → t.line ≠ line

theorem CommentLine.not_blankLine {ts : List Token} {line : Nat} {text : String}
    (h : CommentLine ts line text) : ¬BlankLine ts line := by
  obtain ⟨-, t, ht, hkind, hline, -⟩ := h
  exact fun hblank => hblank.2 t ht (by rw [hkind]; rfl) hline

/-- The lines from `first` on are comment lines with these texts. -/
def CommentLines (ts : List Token) (first : Nat) (texts : List String) : Prop :=
  ∀ i text, texts[i]? = some text → CommentLine ts (first + i) text

/-- The nearest line above that is not blank is a comment line. -/
def CommentAbove (ts : List Token) (line : Nat) : Prop :=
  ∃ near < line, (∃ text, CommentLine ts near text) ∧ ∀ l, near < l → l < line → BlankLine ts l

/-- All comment lines next above the line; there may be blank lines in between. -/
structure RunAbove (ts : List Token) (line first : Nat) (texts : List String) : Prop where
  ne_nil : texts ≠ []
  le : first + texts.length ≤ line
  lines : CommentLines ts first texts
  maximal : ∀ l, l + 1 = first → ∀ text, ¬CommentLine ts l text
  blank : ∀ l, first + texts.length ≤ l → l < line → BlankLine ts l

/-- All comment lines from the next used line below on. -/
structure RunBelow (ts : List Token) (line first : Nat) (texts : List String) : Prop where
  lt : line < first
  blank : ∀ l, line < l → l < first → BlankLine ts l
  used : BlankLine ts first → ∀ l, first < l → BlankLine ts l
  lines : CommentLines ts first texts
  maximal : ∀ text, ¬CommentLine ts (first + texts.length) text

namespace Layout

/-- The layout knows what the lines hold. -/
structure Describes (layout : Layout) (ts : List Token) : Prop where
  blank_iff : ∀ line, layout.use line = .blank ↔ BlankLine ts line
  comment_iff : ∀ line text, layout.use line = .comment text ↔ CommentLine ts line text
  blank_behind : ∀ line, layout.lastLine < line → BlankLine ts line

namespace Describes

variable {layout : Layout} {ts : List Token} (h : layout.Describes ts)
include h

theorem blank_behind_size (line : Nat) : ∀ l, line + (layout.lines.size - line) ≤ l → BlankLine ts l := by
  intro l hl
  rw [← h.blank_iff, use, Array.getElem?_eq_none (by omega)]
  rfl

theorem lastUsed_spec (n : Nat) : layout.lastUsed n ≤ n ∧
    (∀ l, layout.lastUsed n ≤ l → l < n → BlankLine ts l) ∧
    ∀ l, l + 1 = layout.lastUsed n → ¬BlankLine ts l := by
  induction n with
  | zero => exact ⟨Nat.le_refl _, fun l _ hl => absurd hl (Nat.not_lt_zero l), nofun⟩
  | succ n ih =>
    obtain ⟨hle, hblank, hused⟩ := ih
    rw [lastUsed]
    split_ifs with huse
    · refine ⟨Nat.le_succ_of_le hle, fun l hl hlt => ?_, hused⟩
      obtain hlt | rfl := Nat.lt_succ_iff_lt_or_eq.mp hlt
      · exact hblank l hl hlt
      · exact (h.blank_iff l).mp huse
    · refine ⟨Nat.le_refl _, fun l hl hlt => absurd hlt (Nat.not_lt.mpr hl), fun l hl => ?_⟩
      obtain rfl := Nat.succ.inj hl
      exact mt (h.blank_iff l).mpr huse

theorem runAbove_spec (n : Nat) (below : List String) : ∃ first texts,
    layout.runAbove n below = texts ++ below ∧ first + texts.length = n ∧ CommentLines ts first texts ∧
      ∀ l, l + 1 = first → ∀ text, ¬CommentLine ts l text := by
  induction n generalizing below with
  | zero => exact ⟨0, [], rfl, rfl, nofun, nofun⟩
  | succ n ih =>
    rw [runAbove]
    split
    next text huse =>
      obtain ⟨first, texts, hrun, hlength, hlines, hmaximal⟩ := ih (text :: below)
      refine ⟨first, texts ++ [text], ?_, ?_, fun i line hi => ?_, hmaximal⟩
      · rw [hrun, List.append_assoc, List.singleton_append]
      · rw [List.length_append, List.length_singleton, ← Nat.add_assoc, hlength]
      · rw [List.getElem?_append] at hi
        split_ifs at hi with hlt
        · exact hlines i line hi
        · obtain ⟨hindex, rfl⟩ : i = texts.length ∧ text = line := by
            rw [List.getElem?_singleton] at hi
            split_ifs at hi
            exact ⟨by omega, Option.some.inj hi⟩
          rw [hindex, hlength]
          exact (h.comment_iff n text).mp huse
    next hother =>
      refine ⟨n + 1, [], rfl, rfl, nofun, fun l hl text hcomment => ?_⟩
      obtain rfl := Nat.succ.inj hl
      exact hother text ((h.comment_iff l text).mpr hcomment)

theorem nextUsed_spec (n line : Nat) : line ≤ layout.nextUsed n line ∧
    (∀ l, line ≤ l → l < layout.nextUsed n line → BlankLine ts l) ∧
    (BlankLine ts (layout.nextUsed n line) → line + n ≤ layout.nextUsed n line) := by
  induction n generalizing line with
  | zero => exact ⟨Nat.le_refl _, fun l hl hlt => absurd hlt (Nat.not_lt.mpr hl), fun _ => Nat.le_refl _⟩
  | succ n ih =>
    rw [nextUsed]
    split_ifs with huse
    · obtain ⟨hle, hblank, hend⟩ := ih (line + 1)
      refine ⟨Nat.le_of_succ_le hle, fun l hl hlt => ?_, fun hused => ?_⟩
      · obtain rfl | hl := Nat.eq_or_lt_of_le hl
        · exact (h.blank_iff line).mp huse
        · exact hblank l hl hlt
      · have hfar := hend hused
        omega
    · refine ⟨Nat.le_refl _, fun l hl hlt => absurd hlt (Nat.not_lt.mpr hl), fun hused => ?_⟩
      exact absurd ((h.blank_iff line).mpr hused) huse

theorem runBelow_spec (n line : Nat) (hn : ∀ l, line + n ≤ l → BlankLine ts l) :
    CommentLines ts line (layout.runBelow n line) ∧
      ∀ text, ¬CommentLine ts (line + (layout.runBelow n line).length) text := by
  induction n generalizing line with
  | zero => exact ⟨nofun, fun text hcomment => hcomment.not_blankLine (hn line (Nat.le_refl _))⟩
  | succ n ih =>
    rw [runBelow]
    split
    next text huse =>
      obtain ⟨hlines, hmaximal⟩ := ih (line + 1) fun l hl => hn l (by omega)
      refine ⟨fun i line' hi => ?_, fun text' => ?_⟩
      · cases i with
        | zero =>
          obtain rfl : text = line' := Option.some.inj hi
          exact (h.comment_iff line text).mp huse
        | succ i =>
          have hline := hlines i line' hi
          rwa [Nat.succ_add_eq_add_succ] at hline
      · have hline := hmaximal text'
        rwa [Nat.succ_add_eq_add_succ] at hline
    next hother =>
      exact ⟨nofun, fun text hcomment => hother text ((h.comment_iff line text).mpr hcomment)⟩

theorem commentAbove_iff (line : Nat) :
    CommentAbove ts line ↔ layout.runAbove (layout.lastUsed line) [] ≠ [] := by
  obtain ⟨hle, hblank, hused⟩ := h.lastUsed_spec line
  obtain ⟨first, texts, hrun, hlength, hlines, hmaximal⟩ := h.runAbove_spec (layout.lastUsed line) []
  rw [hrun, List.append_nil]
  constructor
  · rintro ⟨near, hnear, ⟨text, hcomment⟩, hbetween⟩ rfl
    have hlast : near + 1 = layout.lastUsed line := by
      have hlt : near < layout.lastUsed line := by
        by_contra hge
        exact hcomment.not_blankLine (hblank near (Nat.not_lt.mp hge) hnear)
      by_contra hne
      refine hused (layout.lastUsed line - 1) (by omega) (hbetween _ (by omega) (by omega))
    exact hmaximal near (hlast.trans hlength.symm) text hcomment
  · intro hne
    obtain ⟨front, text, rfl⟩ := (List.eq_nil_or_concat texts).resolve_left hne
    rw [List.concat_eq_append, List.length_append, List.length_singleton] at hlength
    refine ⟨first + front.length, by omega, ⟨text, hlines front.length text ?_⟩, fun l hl hlt => ?_⟩
    · rw [List.concat_eq_append, List.getElem?_append_right (Nat.le_refl _), Nat.sub_self]
      rfl
    · exact hblank l (by omega) hlt

/-- The documentation is found above the function, or else below its header. -/
theorem documentation_spec (keywordLine headerLine : Nat) : ∃ first texts,
    layout.documentation keywordLine headerLine = "\n".intercalate texts ∧
      (RunAbove ts keywordLine first texts ∨
        ¬CommentAbove ts keywordLine ∧ RunBelow ts headerLine first texts) := by
  rw [documentation]
  by_cases habove : layout.runAbove (layout.lastUsed keywordLine) [] = []
  · obtain ⟨hle, hblank, hend⟩ := h.nextUsed_spec (layout.lastLine - headerLine) (headerLine + 1)
    obtain ⟨hlines, hmaximal⟩ := h.runBelow_spec _ _ (h.blank_behind_size _)
    refine ⟨_, _, by rw [habove]; rfl, .inr ⟨?_, hle, fun l hl => hblank l hl, fun hused l hl => ?_, hlines,
      hmaximal⟩⟩
    · rwa [h.commentAbove_iff, not_ne_iff]
    · have hfar := hend hused
      exact h.blank_behind l (by omega)
  · obtain ⟨hle, hblank, -⟩ := h.lastUsed_spec keywordLine
    obtain ⟨first, texts, hrun, hlength, hlines, hmaximal⟩ := h.runAbove_spec (layout.lastUsed keywordLine) []
    rw [hrun, List.append_nil] at habove ⊢
    refine ⟨first, texts, ?_, .inl ⟨habove, hlength ▸ hle, hlines, hmaximal, hlength ▸ hblank⟩⟩
    rw [if_neg (by simpa using habove)]

end Describes

/-- The last token on a line decides about its use. -/
theorem getElem?_foldl_setIfInBounds (place : Token → Nat) (use : Token → LineUse) (ts : List Token)
    (lines : Array LineUse) (line : Nat) :
    let marked := ts.foldl (fun lines t => lines.setIfInBounds (place t) (use t)) lines
    (∃ t ∈ ts, place t = line ∧ marked[line]? = lines[line]?.map fun _ => use t) ∨
      (∀ t ∈ ts, place t ≠ line) ∧ marked[line]? = lines[line]? := by
  induction ts generalizing lines with
  | nil => exact .inr ⟨nofun, rfl⟩
  | cons t ts ih =>
    have hset : (lines.setIfInBounds (place t) (use t))[line]? =
        if place t = line then lines[line]?.map fun _ => use t else lines[line]? := by
      rw [Array.getElem?_setIfInBounds]
      split_ifs with hplace hlt
      · rw [← hplace, Array.getElem?_eq_getElem hlt, Option.map_some]
      · rw [← hplace, Array.getElem?_eq_none (Nat.not_lt.mp hlt), Option.map_none]
      · rfl
    rw [List.foldl_cons]
    obtain ⟨u, hu, hplace, huse⟩ | ⟨hnone, hsame⟩ := ih (lines.setIfInBounds (place t) (use t))
    · refine .inl ⟨u, List.mem_cons_of_mem _ hu, hplace, huse.trans ?_⟩
      rw [hset]
      split_ifs
      · rw [Option.map_map]
        rfl
      · rfl
    · rw [hset] at hsame
      split_ifs at hsame with hplace
      · exact .inl ⟨t, List.mem_cons_self, hplace, hsame⟩
      · exact .inr ⟨List.forall_mem_cons.mpr ⟨hplace, hnone⟩, hsame⟩

/-- Code marks its line, and so does a comment if there is no code. -/
theorem ofCode_use (code : Code) (line : Nat) :
    (∃ t ∈ code.tokens, t.kind ≠ .newline ∧ t.line.toNat = line) ∧ (ofCode code).use line = .code ∨
    (∀ t ∈ code.tokens, t.kind ≠ .newline → t.line.toNat ≠ line) ∧
      ((∃ t ∈ code.comments, t.line.toNat = line ∧ (ofCode code).use line =
          if t.kind = .comment then .comment (commentText t.text) else .code) ∨
        (∀ t ∈ code.comments, t.line.toNat ≠ line) ∧ (ofCode code).use line = .blank) := by
  let words := code.tokens.filter (·.kind != .newline)
  let starts := (code.eof :: words ++ code.comments).map fun t => t.line.toNat
  let blank := Array.replicate (starts.foldl max 0 + 1) LineUse.blank
  have hwords : ∀ t, t ∈ words ↔ t ∈ code.tokens ∧ t.kind ≠ .newline := by simp [words]
  have hbound {t : Token} (ht : t ∈ words ∨ t ∈ code.comments) (hline : t.line.toNat = line) :
      blank[line]? = some .blank := by
    have hmem : line ∈ starts := by
      refine hline ▸ List.mem_map_of_mem ?_
      rw [List.cons_append, List.mem_cons, List.mem_append]
      exact .inr ht
    have hle : line ≤ starts.foldl max 0 := by
      rw [List.foldl_max]
      exact Nat.le_trans (List.le_max?_getD_of_mem hmem) (Nat.le_max_right _ _)
    rw [Array.getElem?_replicate, if_pos (Nat.lt_succ_of_le hle)]
  let commented := code.comments.foldl (fun lines t => lines.setIfInBounds t.line.toNat
    (if t.kind = .comment then .comment (commentText t.text) else .code)) blank
  let marked := words.foldl (fun lines t => lines.setIfInBounds t.line.toNat .code) commented
  have huse : (ofCode code).use line = marked[line]?.getD .blank := rfl
  rw [huse]
  have hcommented : (∃ t ∈ code.comments, t.line.toNat = line ∧ commented[line]? =
      blank[line]?.map fun _ => if t.kind = .comment then .comment (commentText t.text) else .code) ∨
      (∀ t ∈ code.comments, t.line.toNat ≠ line) ∧ commented[line]? = blank[line]? :=
    getElem?_foldl_setIfInBounds _ _ _ _ _
  have hmarked : (∃ t ∈ words, t.line.toNat = line ∧ marked[line]? = commented[line]?.map fun _ => .code) ∨
      (∀ t ∈ words, t.line.toNat ≠ line) ∧ marked[line]? = commented[line]? :=
    getElem?_foldl_setIfInBounds _ _ _ _ _
  obtain ⟨t, ht, hline, hcode⟩ | ⟨hnone, hcode⟩ := hmarked
  · refine .inl ⟨⟨t, ((hwords t).mp ht).1, ((hwords t).mp ht).2, hline⟩, ?_⟩
    rw [hcode]
    obtain ⟨u, -, -, hcomment⟩ | ⟨-, hcomment⟩ := hcommented
    all_goals
      rw [hcomment, hbound (.inl ht) hline]
      rfl
  · refine .inr ⟨fun t ht hkind => hnone t ((hwords t).mpr ⟨ht, hkind⟩), ?_⟩
    rw [hcode]
    obtain ⟨u, hu, hline, hcomment⟩ | ⟨hnone, hcomment⟩ := hcommented
    · refine .inl ⟨u, hu, hline, ?_⟩
      rw [hcomment, hbound (.inr hu) hline]
      rfl
    · refine .inr ⟨hnone, ?_⟩
      rw [hcomment, Array.getElem?_replicate]
      split_ifs <;> rfl

end Layout

/-! The comments of a text. -/

theorem Position.line_le {p q : Position} (h : p ≤ q) : p.line ≤ q.line :=
  h.elim Int.le_of_lt fun hsame => Int.le_of_eq hsame.1

theorem Code.mem_comments {ts : List Token} {t : Token} :
    t ∈ (ofTokens ts).comments ↔ t ∈ ts ∧ t.kind.isComment = true := by
  rw [ofTokens_comments, List.mem_filter]

namespace Reads

variable {previous : Option Token.Kind} {p : Position} {cs : List Char} {ts : List Token}

theorem head_of_atLineEnd (h : Reads previous p cs ts) (hcs : Lexeme.AtLineEnd cs) :
    ∀ t ∈ ts.head?, t.kind = .newline ∨ t.kind = .eof := by
  cases h with
  | last => exact fun t ht => .inr (Option.some.inj ht ▸ rfl)
  | @token _ _ blanks cs c l ts hb hc hl _ =>
    rintro _ ⟨⟩
    obtain hnil | hhead := hcs
    · simp at hnil
    · cases blanks with
      | cons b blanks =>
        obtain rfl : b = '\n' := Option.some.inj hhead
        exact absurd (hb _ List.mem_cons_self) (by decide)
      | nil =>
        obtain rfl : c = '\n' := Option.some.inj hhead
        left
        rw [hl]
        rfl

/-- A comment goes to the end of its line. -/
theorem comment_ends (h : Reads previous p cs ts) :
    ts.IsChain fun t u => t.kind.isComment = true → u.kind = .newline ∨ u.kind = .eof := by
  induction h with
  | last => exact .singleton _
  | @token previous p blanks cs c l ts _ _ hl hts ih =>
    obtain ⟨u, us, rfl⟩ := List.exists_cons_of_ne_nil hts.ne_nil
    refine .cons_cons (fun hcomment => hts.head_of_atLineEnd ?_ u rfl) ih
    have hfills := Lexeme.read_fills previous blanks.isEmpty (c :: cs)
    rw [← hl] at hfills
    cases hkind : l.kind with
    | comment =>
      rw [hkind] at hfills
      exact hfills.1.2
    | codeBreak =>
      rw [hkind] at hfills
      exact hfills.1.2
    | _ =>
      rw [Lexeme.token, hkind] at hcomment
      contradiction

end Reads

namespace Reads

variable {text : String} {ts : List Token}

section

variable (h : Reads none .start text.toList ts)
include h

theorem line_nonneg {t : Token} (ht : t ∈ ts) : 0 ≤ t.line :=
  Position.line_le (tokens_shown h t ht).valid.start.start_le

/-- The text ends on its last line. -/
theorem line_le_eof {t : Token} (ht : t ∈ ts) : t.line ≤ (Code.ofTokens ts).eof.span.stop.line := by
  obtain ⟨front, hts, -⟩ := h.ends
  have hordered := h.ordered
  rw [hts, List.pairwise_append] at hordered
  rw [hts, List.mem_append, List.mem_singleton] at ht
  obtain ht | rfl := ht
  · have hle := Position.le_trans (tokens_shown h t (hts ▸ List.mem_append_left _ ht)).start_le
      (hordered.2.2 t ht _ (List.mem_singleton_self _))
    rw [h.laidOut.eof_stop]
    exact Position.line_le hle
  · rw [h.laidOut.eof_stop]
    exact Int.le_refl _

/-- There is one comment on a line at most. -/
theorem comment_unique {t u : Token} (ht : t ∈ ts) (hu : u ∈ ts)
    (hcomment : t.kind.isComment = true) (hcomment' : u.kind.isComment = true)
    (hline : t.line = u.line) : t = u := by
  obtain ⟨i, hi, rfl⟩ := List.mem_iff_getElem.mp ht
  obtain ⟨j, hj, rfl⟩ := List.mem_iff_getElem.mp hu
  wlog hij : i < j generalizing i j
  · obtain rfl | hlt := Nat.eq_or_lt_of_le (Nat.not_lt.mp hij)
    · rfl
    · exact (this j hj hu hcomment' i hi ht hcomment hline.symm hlt).symm
  have hnext : i + 1 < ts.length := by omega
  have hstep := List.isChain_iff_getElem.mp h.lineSteps.2 i hnext
  have hends := List.isChain_iff_getElem.mp h.comment_ends i hnext hcomment
  have hne : ts[i].kind ≠ .newline := ne_of_apply_ne Token.Kind.isComment (by rw [hcomment]; decide)
  rw [Token.LineStep, if_neg hne, Int.add_zero] at hstep
  obtain rfl | hlt : i + 1 = j ∨ i + 1 < j := by omega
  · exfalso
    obtain hkind | hkind := hends
    all_goals
      rw [hkind] at hcomment'
      contradiction
  · have hnewline := hends.resolve_right (List.pairwise_iff_getElem.mp h.endsOnce _ _ hnext hj hlt)
    have hle := Position.line_le (List.pairwise_iff_getElem.mp h.ordered _ _ hnext hj hlt)
    rw [h.newline_stop (List.getElem_mem hnext) hnewline] at hle
    unfold Token.line at hline hstep hle
    dsimp only at hle
    omega

theorem use_cases (line : Nat) :
    let use := (Layout.ofCode (Code.ofTokens ts)).use line
    CodeLine ts line ∧ use = .code ∨ ¬CodeLine ts line ∧
      ((∃ t ∈ ts, t.kind.isComment = true ∧ t.line = line ∧
          use = if t.kind = .comment then .comment (Layout.commentText t.text) else .code) ∨
        (∀ t ∈ ts, t.kind.isComment = true → t.line ≠ line) ∧ use = .blank) := by
  have hnat {t : Token} (ht : t ∈ ts) : t.line.toNat = line ↔ t.line = line := by
    have hnonneg := h.line_nonneg ht
    omega
  have hsubset := (Code.tokens_sublist ts).subset
  obtain ⟨⟨t, ht, hkind, hline⟩, huse⟩ | ⟨hcode, hcomments⟩ := Layout.ofCode_use (Code.ofTokens ts) line
  · exact .inl ⟨⟨t, ht, hkind, (hnat (hsubset ht)).mp hline⟩, huse⟩
  refine .inr ⟨?_, ?_⟩
  · rintro ⟨t, ht, hkind, hline⟩
    exact hcode t ht hkind ((hnat (hsubset ht)).mpr hline)
  obtain ⟨t, ht, hline, huse⟩ | ⟨hnone, huse⟩ := hcomments
  · obtain ⟨hmem, hcomment⟩ := Code.mem_comments.mp ht
    exact .inl ⟨t, hmem, hcomment, (hnat hmem).mp hline, huse⟩
  · refine .inr ⟨fun t ht hcomment hline => ?_, huse⟩
    exact hnone t (Code.mem_comments.mpr ⟨ht, hcomment⟩) ((hnat ht).mpr hline)

theorem describes :
    (Layout.ofCode (Code.ofTokens ts)).Describes ts where
  blank_iff line := by
    obtain ⟨hcode, huse⟩ | ⟨hcode, ⟨t, ht, hcomment, hline, huse⟩ | ⟨hnone, huse⟩⟩ := h.use_cases line
    · exact iff_of_false (by rw [huse]; exact nofun) fun hblank => hblank.1 hcode
    · refine iff_of_false ?_ fun hblank => hblank.2 t ht hcomment hline
      rw [huse]
      split_ifs <;> exact nofun
    · exact iff_of_true huse ⟨hcode, hnone⟩
  comment_iff line text := by
    obtain ⟨hcode, huse⟩ | ⟨hcode, ⟨t, ht, hcomment, hline, huse⟩ | ⟨hnone, huse⟩⟩ := h.use_cases line
    · exact iff_of_false (by rw [huse]; exact nofun) fun hcomment => hcomment.1 hcode
    · -- The comment on the line is the only one.
      have hunique {u : Token} (hu : u ∈ ts) (hkind : u.kind = .comment) (hsame : u.line = line) : u = t :=
        h.comment_unique hu ht (by rw [hkind]; rfl) hcomment (hsame.trans hline.symm)
      rw [huse]
      split_ifs with hkind
      · rw [LineUse.comment.injEq]
        constructor
        · rintro rfl
          exact ⟨hcode, t, ht, hkind, hline, rfl⟩
        · rintro ⟨-, u, hu, hkind', hsame, rfl⟩
          rw [hunique hu hkind' hsame]
      · refine iff_of_false nofun ?_
        rintro ⟨-, u, hu, hkind', hsame, -⟩
        exact hkind (hunique hu hkind' hsame ▸ hkind')
    · exact iff_of_false (by rw [huse]; exact nofun) fun hcomment => hcomment.not_blankLine ⟨hcode, hnone⟩
  blank_behind line hlt := by
    have hlast {t : Token} (ht : t ∈ ts) : t.line ≠ line := by
      have hle := h.line_le_eof ht
      have hlt' : (Code.ofTokens ts).eof.span.stop.line.toNat < line := hlt
      omega
    refine ⟨?_, fun t ht _ => hlast ht⟩
    rintro ⟨t, ht, -, hline⟩
    exact hlast ((Code.tokens_sublist ts).subset ht) hline

end

end Reads

/-! Where functions end. -/

theorem Code.token_mem {code : Code} {k : Nat} (h : k < code.tokens.length) : code.token k ∈ code.tokens := by
  rw [token, List.getElem?_eq_getElem h]
  exact List.getElem_mem h

theorem Code.exists_token {code : Code} {t : Token} (ht : t ∈ code.tokens) :
    ∃ k < code.tokens.length, code.token k = t := by
  obtain ⟨k, hk, rfl⟩ := List.mem_iff_getElem.mp ht
  exact ⟨k, hk, by rw [token, List.getElem?_eq_getElem hk, Option.getD_some]⟩

/-- The header behind the keyword that starts at the place is read up to the line. -/
def FunctionHeader.EndsOn (ts : List Token) (header : FunctionHeader) (start : Position) (line : Nat) : Prop :=
  ∃ first last, header.StandsAt (Code.ofTokens ts) first last ∧
    ((Code.ofTokens ts).token first).span.start = start ∧
    ((Code.ofTokens ts).token last).span.stop.line = line

/-- The function goes around the comments on these lines. -/
def EnclosesComments (ts : List Token) (span : Span) (first : Nat) (texts : List String) : Prop :=
  ∀ t ∈ ts, t.kind = .comment → first ≤ t.line → t.line < first + texts.length → span.Encloses t.span

section

variable {text : String} {ts : List Token} {header : FunctionHeader} {span : Span} {closed : Bool}
  {first last behind line run place : Nat} {texts : List String}

/-- Code below the header stands on its last line or behind the comments. -/
theorem RunBelow.line_of_code (h : RunBelow ts line run texts) (hreads : Reads none .start text.toList ts)
    (hline : ((Code.ofTokens ts).token last).span.stop.line = line) (hlt : last < place)
    (hplace : place < (Code.ofTokens ts).tokens.length)
    (hkind : ((Code.ofTokens ts).token place).kind ≠ .newline) :
    ((Code.ofTokens ts).token place).line = line ∨
      run + texts.length ≤ ((Code.ofTokens ts).token place).line := by
  have hle := Position.line_le (hreads.laidOut.token_stop_le hlt (Nat.le_of_lt hplace))
  obtain ⟨l, hl⟩ : ∃ l : Nat, ((Code.ofTokens ts).token place).line = l :=
    Int.eq_ofNat_of_zero_le (hreads.line_nonneg (Code.all_subset hreads _ (Code.token_mem_all _ _)))
  have hcode : CodeLine ts l := ⟨_, Code.token_mem hplace, hkind, hl⟩
  rw [hline] at hle
  change _ ≤ ((Code.ofTokens ts).token place).line at hle
  rw [hl] at hle ⊢
  by_contra hbetween
  by_cases hrun : run ≤ l
  · have hin : l - run < texts.length := by omega
    have hcomment := h.lines (l - run) _ (List.getElem?_eq_getElem hin)
    rw [Nat.add_sub_cancel' hrun] at hcomment
    exact hcomment.1 hcode
  · exact (h.blank l (by omega) (by omega)).1 hcode

theorem EnclosesComments.of_lines (hreads : Reads none .start text.toList ts) (hstart : span.start.line < run)
    (hstop : run + texts.length ≤ span.stop.line) : EnclosesComments ts span run texts := by
  intro t ht hkind hle hlt
  have hline := hreads.stop_line t ht
  rw [hkind, if_neg (by decide), Int.add_zero] at hline
  refine ⟨Position.le_iff.mpr (.inl ?_), Position.le_iff.mpr (.inl ?_)⟩
  · exact Int.lt_of_lt_of_le hstart hle
  · rw [hline]
    exact Int.lt_of_lt_of_le hlt hstop

/-- The comments below a header lie in the function. Else the function ends on the last line of its header, or it
is not closed and there is no newline of the code behind the last comment. -/
theorem FunctionHeader.ReadAt.encloses_or
    (h : header.ReadAt (Code.ofTokens ts) span closed first last behind)
    (hreads : Reads none .start text.toList ts)
    (hend : Parser.isSeparator ((Code.ofTokens ts).token behind).kind = false)
    (hline : ((Code.ofTokens ts).token last).span.stop.line = line) (hbelow : RunBelow ts line run texts) :
    EnclosesComments ts span run texts ∨ span.stop.line ≤ line ∨ closed = false ∧
      ∀ t ∈ (Code.ofTokens ts).tokens, t.kind = .newline → t.line + 1 ≠ run + texts.length := by
  have hlaid := hreads.laidOut
  have hbehind : ((Code.ofTokens ts).token behind).kind ≠ .newline := by
    intro hkind
    rw [hkind] at hend
    contradiction
  have hstart : span.start.line < run := by
    have hvalid := hlaid.valid (Code.token_mem_all (Code.ofTokens ts) last)
    have hle := Position.line_le (Position.le_trans
      (hlaid.token_start_le h.first_le (Nat.le_trans (Nat.le_of_lt h.lt) h.le)) hvalid.start_le)
    rw [hline] at hle
    rw [h.span_eq]
    exact Int.lt_of_le_of_lt hle (Int.ofNat_lt.mpr hbelow.lt)
  have hsame (hlt : behind < (Code.ofTokens ts).tokens.length) :=
    hbelow.line_of_code hreads hline h.lt hlt hbehind
  cases closed with
  | true =>
    -- The last token closes the function.
    have hstop : span.stop.line = ((Code.ofTokens ts).token behind).line := by
      rw [h.span_eq, if_pos rfl]
      have hstop := hreads.stop_line _ (Code.all_subset hreads _ (Code.token_mem_all (Code.ofTokens ts) behind))
      rwa [if_neg hbehind, Int.add_zero] at hstop
    obtain hheader | hbelow := hsame (h.lt_of_closed rfl)
    · exact .inr (.inl (Int.le_of_eq (hstop.trans hheader)))
    · exact .inl (.of_lines hreads hstart (hstop ▸ hbelow))
  | false =>
    by_cases hnewline : ∃ t ∈ (Code.ofTokens ts).tokens, t.kind = .newline ∧ t.line + 1 = run + texts.length
    · obtain ⟨t, ht, hkind, hlast⟩ := hnewline
      obtain ⟨place, hplace, rfl⟩ := Code.exists_token ht
      have hstop := hreads.stop_line _ (Code.all_subset hreads _ (Code.token_mem_all (Code.ofTokens ts) place))
      rw [if_pos hkind, hlast] at hstop
      obtain hlt | rfl | hlt := Nat.lt_trichotomy place behind
      · -- The newline is part of the function.
        have hle := Position.line_le (hlaid.stop_le_stop (Nat.le_sub_one_of_lt hlt)
          (Code.getElem?_all (Nat.le_of_lt hplace)) (Code.getElem?_all (by have := h.le; omega)))
        refine .inl (.of_lines hreads hstart ?_)
        rw [h.span_eq, if_neg Bool.false_ne_true, ← hstop]
        exact hle
      · exact absurd hkind hbehind
      · -- Code stands between the function and the newline, so it stands on the last line of the header.
        have hline' := Position.line_le (hlaid.token_start_le (Nat.le_of_lt hlt) (Nat.le_of_lt hplace))
        have hheader := (hsame (Nat.lt_trans hlt hplace)).resolve_right fun hle => by
          unfold Token.line at hle hlast
          omega
        refine .inr (.inl ?_)
        rw [h.span_eq, if_neg Bool.false_ne_true, ← hheader]
        have hpos := h.lt
        exact Position.line_le (hlaid.token_stop_le (by omega) h.le)
    · exact .inr (.inr ⟨rfl, fun t ht hkind hlast => hnewline ⟨t, ht, hkind, hlast⟩⟩)

end

/-- A function is documented by all the comment lines next above it. If the nearest used line above is no comment
line, those next below its header document it. They lie in the function, unless it ends on the last line of
its header, or it is not closed and there is no newline behind the last comment. -/
theorem function_documentation (text : String) : ∃ tokens : List Token,
    (∀ limit : Int, tokenize limit text = .ok tokens ↔ tokens.length ≤ limit) ∧
    ∀ (header : FunctionHeader) (body : List Stmt) (span : Span) (documentation : String) (closed : Bool),
      .stmt (.function header body span documentation closed) ∈ (parse tokens).program.nodes →
      ∃ (keywordLine headerLine first : Nat) (texts : List String),
        span.start.line = keywordLine ∧ header.EndsOn tokens span.start headerLine ∧
        documentation = "\n".intercalate texts ∧
        (RunAbove tokens keywordLine first texts ∨
          ¬CommentAbove tokens keywordLine ∧ RunBelow tokens headerLine first texts ∧
            (EnclosesComments tokens span first texts ∨ span.stop.line ≤ headerLine ∨
              closed = false ∧ ∀ t ∈ (Code.ofTokens tokens).tokens, t.kind = .newline →
                t.line + 1 ≠ first + texts.length)) := by
  obtain ⟨tokens, hreads⟩ := Reads.exists_tokens none .start text.toList
  refine ⟨tokens, fun limit => by rw [tokenize_eq_ok_iff, and_iff_right hreads],
    fun header body span documentation closed hn => ?_⟩
  obtain ⟨firstPlace, lastPlace, behind, hread, hend, hdocumentation⟩ :=
    (hreads.laidOut.nests (Position.start_isIn _) (fun _ hp => hp.start_le) _ hn).2
  have hnonneg (place : Nat) : 0 ≤ ((Code.ofTokens tokens).token place).span.start.line :=
    hreads.line_nonneg (Code.all_subset hreads _ (Code.token_mem_all _ _))
  have hvalid := hreads.laidOut.valid (Code.token_mem_all (Code.ofTokens tokens) lastPlace)
  obtain ⟨keywordLine, hkeyword⟩ := Int.eq_ofNat_of_zero_le (hnonneg firstPlace)
  obtain ⟨headerLine, hheader⟩ := Int.eq_ofNat_of_zero_le
    (Int.le_trans (hnonneg lastPlace) (Position.line_le hvalid.start_le))
  rw [hkeyword, hheader, Int.toNat_natCast, Int.toNat_natCast] at hdocumentation
  obtain ⟨first, texts, htexts, hrun⟩ := hreads.describes.documentation_spec keywordLine headerLine
  refine ⟨keywordLine, headerLine, first, texts, ?_, ⟨firstPlace, lastPlace, hread.header, ?_, hheader⟩,
    hdocumentation.trans htexts, hrun.imp_right fun ⟨hnone, hbelow⟩ => ⟨hnone, hbelow, ?_⟩⟩
  · rw [hread.span_eq, hkeyword]
  · rw [hread.span_eq]
  · exact hread.encloses_or hreads (hend.resolve_left id) hheader hbelow

def Node.documentation : Node → String
  | .stmt (.function _ _ _ documentation _) => documentation
  | _ => ""

/-- A function of the text has documentation, but all comments stand behind it. -/
def DocumentedBehind (text : String) : Prop :=
  tokenize 100 text = .ok (tokensOf text) ∧
    ∃ n ∈ (parse (tokensOf text)).program.nodes, n.documentation ≠ "" ∧
      ∀ t ∈ tokensOf text, t.kind.isComment = true → n.span.stop ≤ t.span.start

instance (text : String) : Decidable (DocumentedBehind text) :=
  inferInstanceAs (Decidable (_ ∧ ∃ n ∈ (parse (tokensOf text)).program.nodes, _))

/-- The exceptions occur: behind a function on one line, behind an open one at the end of the text, and on a line
that is joined with the next one. -/
theorem documentation_behind_function : DocumentedBehind "function f, end\n% doc" ∧
    DocumentedBehind "function f\n% doc" ∧ DocumentedBehind "function f\n... % doc\nfunction g\nend" := by
  decide +kernel

end MatrixScript
