import MatrixScript.Proofs.Parser.BlockExtent
import MatrixScript.Proofs.Token.Placement
import MatrixScript.Proofs.Token.Spelling

/-! The layout of the code of a text: its tokens stand behind each other, at places of the text that show
them. -/
namespace MatrixScript

/-- Between the two ends of the span, the text reads `word`. -/
def Shows (text word : String) (span : Span) : Prop :=
  ∃ a b, a ≤ b ∧ b ≤ text.toList.length ∧
    span = ⟨.ofOffset text.toList a, .ofOffset text.toList b⟩ ∧
    text.toList.extract a b = word.toList

namespace Shows

variable {text word more : String} {span next : Span}

theorem stop_eq (h : Shows text word span) : span.stop = span.start.advance word.toList := by
  obtain ⟨a, b, hab, hb, rfl, hword⟩ := h
  rw [← hword]
  exact Position.ofOffset_eq_advance _ hab hb

theorem start_le (h : Shows text word span) : span.start ≤ span.stop := by
  rw [h.stop_eq]
  exact Position.le_advance _ _

/-- The span of a word that stays on its line has its length. -/
theorem span_eq_right (h : Shows text word span) (hline : '\n' ∉ word.toList) :
    span = ⟨span.start, span.start.right word.length⟩ := by
  have hstop := h.stop_eq
  rw [Position.advance_of_not_mem _ hline, String.length_toList] at hstop
  rw [← hstop]

/-- What stands behind each other without a gap is read together. -/
theorem append (h : Shows text word span) (h' : Shows text more next)
    (hstop : span.stop = next.start) : Shows text (word ++ more) ⟨span.start, next.stop⟩ := by
  obtain ⟨a, b, hab, hb, rfl, hword⟩ := h
  obtain ⟨b', c, hbc, hc, rfl, hmore⟩ := h'
  obtain rfl := Position.ofOffset_inj _ hb (Nat.le_trans hbc hc) hstop
  refine ⟨a, c, Nat.le_trans hab hbc, hc, rfl, ?_⟩
  rw [String.toList_append, ← hword, ← hmore]
  simp only [List.extract_eq_take_drop]
  have hdrop : text.toList.drop b = (text.toList.drop a).drop (b - a) := by
    rw [List.drop_drop, Nat.add_sub_cancel' hab]
  rw [hdrop, ← List.take_add]
  congr 1
  omega

end Shows

/-- The text shows every token at its place. -/
theorem tokens_shown {text : String} {tokens : List Token}
    (h : Reads none .start text.toList tokens) : ∀ t ∈ tokens, Shows text t.text t.span := by
  obtain ⟨start, stop, _, hcovers⟩ := h.exists_covers [] rfl
  rw [List.nil_append] at hcovers
  intro t ht
  obtain ⟨i, hi, rfl⟩ := List.mem_iff_getElem.mp ht
  exact ⟨start i, stop (i + 1), hcovers.start_le_stop i hi, hcovers.stop_le_length hi,
    hcovers.token_span i hi, (hcovers.token_text i hi).symm⟩

/-- The last token of a whole text is the end of its code. -/
theorem Reads.ends {text : List Char} {tokens : List Token} (h : Reads none .start text tokens) :
    ∃ front, tokens = front ++ [(Code.ofTokens tokens).eof] ∧
      (Code.separate false tokens).1 = (Code.ofTokens tokens).all := by
  obtain ⟨front, last, rfl⟩ := (List.eq_nil_or_concat tokens).resolve_left h.ne_nil
  rw [List.concat_eq_append] at h ⊢
  have hlast : last.kind = .eof := by
    have hend := (h.end_iff_last front.length (by simp)).1
    simpa using hend
  obtain ⟨code, hcode⟩ := Code.separate_concat false front hlast
  obtain ⟨htokens, heof⟩ := Code.ofTokens_of_concat hcode hlast
  exact ⟨front, by rw [heof], by rw [Code.all, htokens, heof, hcode]⟩

/-- The code of a whole text is what is left of its tokens, with their end. -/
theorem Code.all_sublist {text : List Char} {tokens : List Token} (h : Reads none .start text tokens) :
    (ofTokens tokens).all.Sublist tokens := by
  obtain ⟨front, -, hcode⟩ := h.ends
  exact hcode ▸ separate_sublist false tokens

theorem Code.all_subset {text : List Char} {tokens : List Token} (h : Reads none .start text tokens) :
    ∀ t ∈ (ofTokens tokens).all, t ∈ tokens :=
  fun _ ht => (all_sublist h).subset ht

namespace Position

/-- The place of an offset in the text. -/
def IsIn (text : List Char) (p : Position) : Prop :=
  ∃ offset ≤ text.length, p = ofOffset text offset

theorem start_isIn (text : List Char) : start.IsIn text :=
  ⟨0, Nat.zero_le _, rfl⟩

theorem ofOffset_le_ofOffset (text : List Char) {a b : Nat} (hab : a ≤ b) (hb : b ≤ text.length) :
    ofOffset text a ≤ ofOffset text b := by
  rw [ofOffset_eq_advance text hab hb]
  exact le_advance _ _

theorem IsIn.start_le {text : List Char} {p : Position} (h : p.IsIn text) : start ≤ p := by
  obtain ⟨offset, hoffset, rfl⟩ := h
  exact ofOffset_le_ofOffset text (Nat.zero_le _) hoffset

/-- Without characters between them there is no way from one place to a later one. -/
theorem not_advance_le {p : Position} {cs : List Char} (h : cs ≠ []) : ¬p.advance cs ≤ p :=
  fun hle => h ((advance_eq_self_iff p cs).mp (le_antisymm hle (le_advance p cs)))

end Position

theorem Shows.valid {text word : String} {span : Span} (h : Shows text word span) :
    span.Valid (Position.IsIn text.toList) := by
  have hle := h.start_le
  obtain ⟨a, b, hab, hb, rfl, _⟩ := h
  exact ⟨hle, ⟨a, Nat.le_trans hab hb, rfl⟩, ⟨b, hb, rfl⟩⟩

theorem Covers.stop_mono {text : List Char} {tokens : List Token} {start stop : Nat → Nat}
    (h : Covers text tokens start stop) {i j : Nat} (hij : i ≤ j) (hj : j ≤ tokens.length) :
    stop i ≤ stop j := by
  induction hij with
  | refl => exact Nat.le_refl _
  | @step j hij ih =>
    calc stop i ≤ stop j := ih (Nat.le_of_succ_le hj)
      _ ≤ start j := h.stop_le_start j hj
      _ ≤ stop (j + 1) := h.start_le_stop j hj

namespace Reads

variable {text : String} {tokens : List Token}

section

variable (h : Reads none .start text.toList tokens)
include h

/-- Tokens of a text stand behind each other. -/
theorem ordered : tokens.Pairwise fun t u => t.span.stop ≤ u.span.start := by
  obtain ⟨start, stop, _, hcovers⟩ := h.exists_covers [] rfl
  rw [List.nil_append] at hcovers
  refine List.pairwise_iff_getElem.mpr fun i j hi hj hij => ?_
  rw [hcovers.token_span i hi, hcovers.token_span j hj]
  refine Position.ofOffset_le_ofOffset _ ?_ ?_
  · exact Nat.le_trans (hcovers.stop_mono hij (Nat.le_of_lt hj)) (hcovers.stop_le_start j hj)
  · exact Nat.le_trans (hcovers.start_le_stop j hj) (hcovers.stop_le_length hj)

theorem text_eq_empty_iff {t : Token} (ht : t ∈ tokens) : t.text = "" ↔ t.kind = .eof := by
  obtain ⟨i, hi, rfl⟩ := List.mem_iff_getElem.mp ht
  obtain ⟨hkind, hempty⟩ := h.end_iff_last i hi
  rw [hkind, hempty]

/-- Only the end token is empty. -/
theorem not_stop_le_start {t : Token} (ht : t ∈ tokens) (hkind : t.kind ≠ .eof) :
    ¬t.span.stop ≤ t.span.start := by
  have hne := mt (h.text_eq_empty_iff ht).mp hkind
  rw [(tokens_shown h t ht).stop_eq]
  exact Position.not_advance_le (by simpa using hne)

/-- The code of a text is laid out at places of the text. -/
theorem laidOut : (Code.ofTokens tokens).LaidOut (Position.IsIn text.toList) := by
  have hshows : ∀ t ∈ (Code.ofTokens tokens).all, Shows text t.text t.span :=
    fun t ht => tokens_shown h t (Code.all_subset h t ht)
  have hspelled : ∀ t ∈ (Code.ofTokens tokens).all, t.WellSpelled :=
    fun t ht => h.wellSpelled t (Code.all_subset h t ht)
  have heof : (Code.ofTokens tokens).eof ∈ (Code.ofTokens tokens).all :=
    List.mem_append_right _ (List.mem_singleton_self _)
  have hkinds := Code.kind_ne_of_mem_tokens h.endsOnce
  refine ⟨Code.eof_kind tokens, hkinds, ?_, h.ordered.sublist (Code.all_sublist h), ?_,
    fun t ht => ⟨(hshows t ht).valid.start, (hshows t ht).valid.stop⟩, ?_, ?_⟩
  · have hempty := (h.text_eq_empty_iff (Code.all_subset h _ heof)).mpr (Code.eof_kind tokens)
    rw [(hshows _ heof).stop_eq, hempty]
    rfl
  · exact fun t ht =>
      h.not_stop_le_start (Code.all_subset h t (List.mem_append_left _ ht)) (hkinds t ht)
  · intro t ht hname
    have hline := ((hspelled t ht).isWord hname).1.newline_not_mem
    rw [(hshows t ht).stop_eq, Position.advance_of_not_mem _ hline, String.length_toList]
  · intro t ht hperiod
    have hchars : t.text.toList = ['.'] := by
      have hspells := hspelled t ht
      rw [Token.WellSpelled, beq_iff_eq.mp hperiod] at hspells
      exact hspells
    rw [(hshows t ht).stop_eq, hchars]
    exact Position.advance_of_not_mem _ (by decide)

/-- The names and literals in the tree of a text stand at tokens of the text. -/
theorem nodes_placed : ∀ n ∈ (parse tokens).program.nodes, n.Placed (Code.ofTokens tokens) := by
  obtain ⟨⟨lo, hi, hbody⟩, _⟩ := Parser.parse_lies h.laidOut (Position.start_isIn _)
    (fun _ hp => hp.start_le)
  exact List.forall_mem_cons.mpr ⟨trivial, fun n hn => (hbody.nodes n hn).2⟩

end

end Reads

end MatrixScript
