import MatrixScript.Proofs.Parser.Layout

/-! What becomes of the tokens of a text before they are parsed.

Main statement: the tokens, also where some are missing at the end, fall into tokens of the code, comments
and the ends of continued lines. Only the latter are left out, and the code then has no three points in a
row and its one end token at its end. -/
namespace MatrixScript

/-- A part of the tokens: a token of the code, a comment, or the end of a continued line, from its points
up to its newline, if there is one. -/
inductive Stretch where
  | plain (t : Token)
  | comment (t : Token)
  | continued (body : List Token) (newline : Option Token)

namespace Stretch

def tokens : Stretch → List Token
  | .plain t | .comment t => [t]
  | .continued body newline => body ++ newline.toList

def code : Stretch → List Token
  | .plain t => [t]
  | _ => []

/-- The comments at the end of a continued line are kept. -/
def comments : Stretch → List Token
  | .plain _ => []
  | .comment t => [t]
  | .continued body _ => body.filter (·.kind.isComment)

def removed : Stretch → List Token
  | .continued body newline => body.filter (!·.kind.isComment) ++ newline.toList
  | _ => []

/-- A continued line ends with a newline, or else before the end token or with the last token there is. -/
def Closes (behind : List Token) (newline : Option Token) : Prop :=
  newline.elim (∀ t ∈ behind.head?, t.kind = .eof) (·.kind = .newline)

/-- The part can stand before the tokens `behind`. -/
def Fits (behind : List Token) : Stretch → Prop
  | .plain t => t.kind.isComment = false
  | .comment t => t.kind.isComment = true
  | .continued body newline => Code.startsContinuation body = true ∧
    (∀ t ∈ body, t.kind ≠ .newline ∧ t.kind ≠ .eof) ∧ Closes behind newline

/-- Each part fits before those behind it. -/
def AllFit : List Stretch → Prop
  | [] => True
  | part :: parts => part.Fits (parts.flatMap tokens) ∧ AllFit parts

theorem flatMap_comments {parts : List Stretch} (h : AllFit parts) :
    parts.flatMap comments = (parts.flatMap tokens).filter (·.kind.isComment) := by
  induction parts with
  | nil => rfl
  | cons part parts ih =>
    have hpart : part.comments = part.tokens.filter (·.kind.isComment) := by
      cases part with
      | plain t => simp [comments, tokens, show t.kind.isComment = false from h.1]
      | comment t => simp [comments, tokens, show t.kind.isComment = true from h.1]
      | continued body newline =>
        cases newline with
        | none => simp [comments, tokens]
        | some line =>
          have hline : line.kind = .newline := h.1.2.2
          simp [comments, tokens, hline, Token.Kind.isComment]
    rw [List.flatMap_cons, List.flatMap_cons, List.filter_append, ih h.2, hpart]

/-- Nothing is lost and nothing is taken twice. -/
theorem perm_flatMap (parts : List Stretch) : (parts.flatMap tokens).Perm
    (parts.flatMap code ++ parts.flatMap comments ++ parts.flatMap removed) := by
  induction parts with
  | nil => exact .refl _
  | cons part parts ih =>
    have hpart : part.tokens.Perm (part.code ++ part.comments ++ part.removed) := by
      cases part with
      | plain | comment => exact .refl _
      | continued body newline =>
        have hbody := (List.filter_append_perm (·.kind.isComment) body).symm.append_right newline.toList
        rwa [List.append_assoc] at hbody
    rw [← Multiset.coe_eq_coe] at hpart ih ⊢
    simp only [List.flatMap_cons, ← Multiset.coe_add] at hpart ih ⊢
    rw [hpart, ih, add_add_add_comm, add_add_add_comm (part.code : Multiset Token)]

end Stretch

namespace Code

/-- While lines are joined, all is left out up to the newline. -/
theorem separate_joining (ts : List Token) : ∃ (body : List Token) (newline : Option Token) (rest : List Token),
    ts = body ++ newline.toList ++ rest ∧ (∀ t ∈ body, t.kind ≠ .newline ∧ t.kind ≠ .eof) ∧
    Stretch.Closes rest newline ∧ (separate true ts).1 = (separate false rest).1 := by
  induction ts with
  | nil => exact ⟨[], none, [], rfl, List.forall_mem_nil _, by simp [Stretch.Closes], rfl⟩
  | cons t ts ih =>
    obtain ⟨body, newline, rest, rfl, hbody, hends, hcode⟩ := ih
    rw [separate_cons]
    by_cases hcomment : t.kind.isComment = true
    · have hkind {kind : Token.Kind} (h : kind.isComment = false) : t.kind ≠ kind :=
        ne_of_apply_ne Token.Kind.isComment (by rw [hcomment, h]; decide)
      refine ⟨t :: body, newline, rest, rfl, List.forall_mem_cons.mpr ⟨⟨hkind rfl, hkind rfl⟩, hbody⟩, hends, ?_⟩
      rw [if_pos hcomment, hcode]
    rw [if_neg hcomment]
    by_cases heof : t.kind = .eof
    · refine ⟨[], none, t :: _, rfl, List.forall_mem_nil _, fun u hu => Option.some.inj hu ▸ heof, ?_⟩
      rw [separate_cons false, if_neg hcomment, heof]
      rfl
    rw [if_pos (by simpa using heof)]
    by_cases hline : t.kind = .newline
    · refine ⟨[], some t, _, rfl, List.forall_mem_nil _, hline, ?_⟩
      rw [hline]
      rfl
    · refine ⟨t :: body, newline, rest, rfl, List.forall_mem_cons.mpr ⟨⟨hline, heof⟩, hbody⟩, hends, ?_⟩
      rw [bne_iff_ne.mpr hline, hcode]

/-- The points of a continued line stand before its end. -/
theorem startsContinuation_body {t : Token} {body rest : List Token} {newline : Option Token}
    (hends : Stretch.Closes rest newline)
    (hstarts : startsContinuation (t :: (body ++ newline.toList ++ rest)) = true) :
    startsContinuation (t :: body) = true := by
  rw [List.append_assoc, ← List.cons_append] at hstarts
  cases newline with
  | some line =>
    have hline : line.kind = .newline := hends
    exact (startsContinuation_append (by rw [Token.is, hline]; rfl) _ _).symm.trans hstarts
  | none =>
    cases rest with
    | nil => rwa [Option.toList_none, List.append_nil, List.append_nil] at hstarts
    | cons x rest =>
      have hx : x.kind = .eof := hends x rfl
      exact (startsContinuation_append (by rw [Token.is, hx]; rfl) _ _).symm.trans hstarts

theorem exists_parts (ts : List Token) : ∃ parts, ts = parts.flatMap Stretch.tokens ∧
    (separate false ts).1 = parts.flatMap Stretch.code ∧ Stretch.AllFit parts := by
  -- A continued line is one part, so the induction is on the number of tokens left.
  induction hlength : ts.length using Nat.strong_induction_on generalizing ts with
  | _ n ih =>
    subst hlength
    cases ts with
    | nil => exact ⟨[], rfl, rfl, trivial⟩
    | cons t ts =>
      rw [separate_cons]
      obtain ⟨parts, htokens, hcode, hfit⟩ := ih ts.length (Nat.lt_succ_self _) ts rfl
      split_ifs with hcomment hjoining hstarts
      · exact ⟨.comment t :: parts, congrArg (t :: ·) htokens, hcode, hcomment, hfit⟩
      · contradiction
      · obtain ⟨body, newline, rest, rfl, hbody, hends, hskip⟩ := separate_joining ts
        have hlt : rest.length < (t :: (body ++ newline.toList ++ rest)).length := by
          rw [List.length_cons, List.length_append]
          omega
        obtain ⟨parts, rfl, hcode, hfit⟩ := ih rest.length hlt rest rfl
        have hperiod : t.kind ≠ .newline ∧ t.kind ≠ .eof := by
          rw [beq_iff_eq.mp (is_period_of_startsContinuation hstarts)]
          exact ⟨by decide, by decide⟩
        exact ⟨.continued (t :: body) newline :: parts, rfl, hskip.trans hcode,
          ⟨startsContinuation_body hends hstarts, List.forall_mem_cons.mpr ⟨hperiod, hbody⟩, hends⟩, hfit⟩
      · exact ⟨.plain t :: parts, congrArg (t :: ·) htokens, congrArg (t :: ·) hcode,
          Bool.eq_false_iff.mpr hcomment, hfit⟩

/-! No three points in a row are left in the code. -/

/-- The first token is not empty, and the second one stands behind it. -/
def Precedes (t u : Token) : Prop := ¬t.span.stop ≤ t.span.start ∧ t.span.stop ≤ u.span.start

theorem Precedes.ne {t u : Token} (h : Precedes t u) : t ≠ u := by
  rintro rfl
  exact h.1 h.2

theorem Precedes.not_adjacent {t x u : Token} (h : Precedes t x) (h' : Precedes x u) :
    t.adjacent u = false := by
  refine beq_eq_false_iff_ne.mpr fun heq => h'.1 ?_
  exact Position.le_trans h'.2 (heq ▸ h.2)

/-- What touches a token in the code has touched it before. -/
theorem separate_adjacent {t u : Token} {ts code : List Token} (h : (t :: ts).Pairwise Precedes)
    (hcode : (separate false ts).1 = u :: code) (htouches : t.adjacent u = true) :
    ∃ rest, ts = u :: rest ∧ (separate false rest).1 = code := by
  cases ts with
  | nil => contradiction
  | cons x ts =>
    have hgap (joining : Bool) : (separate joining ts).1 ≠ u :: code := by
      intro heq
      have hmem : u ∈ ts := (separate_sublist joining ts).subset (heq ▸ List.mem_cons_self)
      obtain ⟨ht, hts⟩ := List.pairwise_cons.mp h
      rw [(ht x List.mem_cons_self).not_adjacent (List.rel_of_pairwise_cons hts hmem)] at htouches
      contradiction
    rw [separate_cons] at hcode
    split_ifs at hcode
    · exact absurd hcode (hgap _)
    · contradiction
    · exact absurd hcode (hgap _)
    · obtain ⟨rfl, rfl⟩ := List.cons.inj hcode
      exact ⟨ts, rfl, rfl⟩

theorem hasContinuation_separate {ts : List Token} (h : ts.Pairwise Precedes) (joining : Bool) :
    hasContinuation (separate joining ts).1 = false := by
  induction ts generalizing joining with
  | nil => rfl
  | cons t ts ih =>
    have hts := (List.pairwise_cons.mp h).2
    rw [separate_cons]
    split_ifs with _ _ hstarts
    · exact ih hts _
    · exact ih hts _
    · exact ih hts _
    · rw [hasContinuation, ih hts, Bool.or_false, Bool.eq_false_iff]
      intro hjoined
      apply hstarts
      unfold startsContinuation at hjoined
      split at hjoined
      case h_2 => contradiction
      case h_1 a b c code heq =>
        obtain ⟨rfl, hcode⟩ := List.cons.inj heq
        simp only [Bool.and_eq_true] at hjoined
        obtain ⟨rest, rfl, hrest⟩ := separate_adjacent h hcode hjoined.1.2
        obtain ⟨rest, rfl, -⟩ := separate_adjacent hts hrest hjoined.2
        simp [startsContinuation, hjoined]

/-! The end token. -/

/-- An end token is put behind the code only where there is none among the tokens. -/
theorem ofTokens_all {ts : List Token} (h : EndsOnce ts) :
    (∃ t ∈ ts, t.kind = .eof) ∧ (ofTokens ts).all = (separate false ts).1 ∨
    (∀ t ∈ ts, t.kind ≠ .eof) ∧ (ofTokens ts).all = (separate false ts).1 ++
      [Token.endAt ((separate false ts).1.getLast?.elim .start (·.span.stop))] := by
  by_cases hend : ∃ t ∈ ts, t.kind = .eof
  · refine .inl ⟨hend, ?_⟩
    obtain ⟨t, ht, hkind⟩ := hend
    obtain ⟨front, behind, rfl⟩ := List.append_of_mem ht
    obtain rfl : behind = [] := by
      refine List.eq_nil_iff_forall_not_mem.mpr fun u hu => ?_
      exact List.rel_of_pairwise_cons (List.pairwise_append.mp h).2.1 hu hkind
    obtain ⟨code, hcode⟩ := separate_concat false front hkind
    obtain ⟨htokens, heof⟩ := ofTokens_of_concat hcode hkind
    rw [all, htokens, heof, hcode]
  · have hkinds : ∀ t ∈ ts, t.kind ≠ .eof := fun t ht hkind => hend ⟨t, ht, hkind⟩
    refine .inr ⟨hkinds, ?_⟩
    rw [all, ofTokens]
    dsimp only
    cases hlast : (separate false ts).1.getLast? with
    | none =>
      rw [List.getLast?_eq_none_iff.mp hlast]
      rfl
    | some last =>
      have hmem := (separate_sublist false ts).subset (List.mem_of_getLast? hlast)
      dsimp only
      rw [if_neg (hkinds last hmem)]
      rfl

/-- What the tokens `ts` are made into. -/
structure Prepares (ts : List Token) (code : Code) (parts : List Stretch) : Prop where
  tokens_eq : ts = parts.flatMap Stretch.tokens
  fit : Stretch.AllFit parts
  /-- Every token is in one place only. -/
  nodup : ts.Nodup
  perm : ts.Perm (parts.flatMap Stretch.code ++ parts.flatMap Stretch.comments ++ parts.flatMap Stretch.removed)
  code_sublist : (parts.flatMap Stretch.code).Sublist ts
  comments_sublist : code.comments.Sublist ts
  comments_eq : code.comments = parts.flatMap Stretch.comments
  all_eq : (∃ t ∈ ts, t.kind = .eof) ∧ code.all = parts.flatMap Stretch.code ∨
    (∀ t ∈ ts, t.kind ≠ .eof) ∧ code.all = parts.flatMap Stretch.code ++
      [Token.endAt ((parts.flatMap Stretch.code).getLast?.elim .start (·.span.stop))]
  isComment_eq : ∀ t ∈ code.all, t.kind.isComment = false
  hasContinuation_eq : hasContinuation code.all = false
  eof_kind : code.eof.kind = .eof
  kind_ne : ∀ t ∈ code.tokens, t.kind ≠ .eof

end Code

theorem Stretch.isComment_of_mem_code {parts : List Stretch} (h : AllFit parts) {t : Token}
    (ht : t ∈ parts.flatMap code) : t.kind.isComment = false := by
  induction parts with
  | nil => contradiction
  | cons part parts ih =>
    rw [List.flatMap_cons, List.mem_append] at ht
    refine ht.elim (fun hpart => ?_) (ih h.2)
    cases part with
    | plain u => exact List.mem_singleton.mp hpart ▸ h.1
    | _ => contradiction

/-- Tokens of a text stand behind each other, and none before the last one is empty. -/
theorem Reads.precedes {text : String} {tokens : List Token} (h : Reads none .start text.toList tokens) :
    tokens.Pairwise Code.Precedes :=
  (h.ordered.and h.endsOnce).imp_of_mem fun ht _ hboth => ⟨h.not_stop_le_start ht hboth.2, hboth.1⟩

/-- The tokens of a text, or the first `n` of them, fall into parts. -/
theorem Code.tokens_partitioned (limit : Int) (text : String) (tokens : List Token) (n : Nat)
    (htokens : tokenize limit text = .ok tokens) :
    ∃ parts, Prepares (tokens.take n) (ofTokens (tokens.take n)) parts := by
  have hreads := ((tokenize_eq_ok_iff limit text tokens).mp htokens).1
  have hends := hreads.endsOnce.sublist (List.take_sublist n tokens)
  have hprecedes := hreads.precedes.sublist (List.take_sublist n tokens)
  obtain ⟨parts, hts, hcode, hfit⟩ := exists_parts (tokens.take n)
  have hcomments := ofTokens_comments (tokens.take n)
  have hall := ofTokens_all hends
  have hjoined := hasContinuation_separate hprecedes false
  have hsublist := separate_sublist false (tokens.take n)
  rw [hcode] at hall hjoined hsublist
  refine ⟨parts, hts, hfit, hprecedes.imp Precedes.ne,
    hts ▸ Stretch.perm_flatMap parts, hsublist, hcomments ▸ List.filter_sublist, ?_, hall, ?_, ?_,
    eof_kind _, kind_ne_of_mem_tokens hends⟩
  · rw [hcomments, Stretch.flatMap_comments hfit, ← hts]
  · obtain ⟨-, heq⟩ | ⟨-, heq⟩ := hall
    · exact heq ▸ fun t ht => Stretch.isComment_of_mem_code hfit ht
    · rw [heq]
      exact List.forall_mem_append.mpr ⟨fun t ht => Stretch.isComment_of_mem_code hfit ht,
        List.forall_mem_singleton.mpr rfl⟩
  · obtain ⟨-, heq⟩ | ⟨-, heq⟩ := hall
    · rw [heq, hjoined]
    · rw [heq, hasContinuation_append rfl, hjoined]
      rfl

/-- The tokens of the lines `a ... b # c` and `d`. -/
def continuedLine : List Token := [
  ⟨.identifier, "a", ⟨⟨0, 0⟩, ⟨0, 1⟩⟩⟩, ⟨.sign .period, ".", ⟨⟨0, 2⟩, ⟨0, 3⟩⟩⟩,
  ⟨.sign .period, ".", ⟨⟨0, 3⟩, ⟨0, 4⟩⟩⟩, ⟨.sign .period, ".", ⟨⟨0, 4⟩, ⟨0, 5⟩⟩⟩,
  ⟨.identifier, "b", ⟨⟨0, 6⟩, ⟨0, 7⟩⟩⟩, ⟨.comment, "# c", ⟨⟨0, 8⟩, ⟨0, 11⟩⟩⟩,
  ⟨.newline, "\n", ⟨⟨0, 11⟩, ⟨1, 0⟩⟩⟩, ⟨.identifier, "d", ⟨⟨1, 0⟩, ⟨1, 1⟩⟩⟩,
  ⟨.eof, "", ⟨⟨1, 1⟩, ⟨1, 1⟩⟩⟩]

/-- Without the end token. -/
theorem Code.tokens_partitioned_continuedLine :
    tokenize 9 "a ... b # c\nd" = .ok continuedLine ∧
    ∃ parts, Prepares (continuedLine.take 8) (ofTokens (continuedLine.take 8)) parts :=
  have htokens : tokenize 9 "a ... b # c\nd" = .ok continuedLine := by decide +kernel
  ⟨htokens, tokens_partitioned 9 _ continuedLine 8 htokens⟩

end MatrixScript
