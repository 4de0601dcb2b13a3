import MatrixScript.Proofs.Parser.FunctionLines
import MatrixScript.Proofs.Token.Classes

/-! Which strings are reported to be open.

Main statement: of the strings that the parser reads, it reports those whose line ends before their
closing quote, unless the last thing in them is a doubled quote. -/
namespace MatrixScript

namespace Code

/-- The tokens that are read as strings in expressions. -/
def readStrings (code : Code) : List Token :=
  (Parser.runProgram code (code.tokens.length + 1)).2.strings.map code.token

end Code

/-- What is known at the end of the run over the code of a text. -/
theorem Reads.runProgram_sound {text : String} {tokens : List Token}
    (h : Reads none .start text.toList tokens) :
    (Parser.runProgram (Code.ofTokens tokens) ((Code.ofTokens tokens).tokens.length + 1)).2.Sound
      (Position.IsIn text.toList) (Code.ofTokens tokens) :=
  (Parser.parseProgram_lies h.laidOut (Position.start_isIn _) (fun _ hp => hp.start_le) _).sound

theorem Reads.reports_iff {text : String} {tokens : List Token} (h : Reads none .start text.toList tokens)
    (span : Span) : ReportsOpen (parse tokens).diagnostics span ↔
      ∃ t ∈ (Code.ofTokens tokens).readStrings, Parser.isClosedString t.text = false ∧ t.span = span := by
  simp only [Code.readStrings, List.mem_map, exists_exists_and_eq_and]
  exact h.runProgram_sound.reports_iff span

theorem Reads.kind_of_mem_readStrings {text : String} {tokens : List Token}
    (h : Reads none .start text.toList tokens) {t : Token} (ht : t ∈ (Code.ofTokens tokens).readStrings) :
    t.kind = .string := by
  obtain ⟨place, hplace, rfl⟩ := List.mem_map.mp ht
  exact h.runProgram_sound.strings place hplace

/-! Strings that are not closed -/

namespace Lexeme

/-- The string ends with its own quote, doubled. -/
inductive EndsDoubled : List Char → Prop where
  | mk (quote : Char) (front : List Char) : EndsDoubled (quote :: (front ++ [quote, quote]))

theorem Doubled.exists_pair {quote : Char} {body : List Char} (h : Doubled quote body)
    (hlast : body.getLast? = some quote) : ∃ front, body = front ++ [quote, quote] := by
  induction h with
  | nil => contradiction
  | @pair cs _ ih =>
    cases cs with
    | nil => exact ⟨[], rfl⟩
    | cons d ds =>
      obtain ⟨front, hfront⟩ := ih (by simpa using hlast)
      exact ⟨quote :: quote :: front, by rw [hfront]; rfl⟩
  | @other c cs hc _ ih =>
    cases cs with
    | nil => exact absurd (by simpa using hlast) hc
    | cons d ds =>
      obtain ⟨front, hfront⟩ := ih (by simpa using hlast)
      exact ⟨c :: front, by rw [hfront]; rfl⟩

end Lexeme

theorem Parser.isClosedString_iff {text : String} {quote : Char} {body : List Char}
    (h : text.toList = quote :: body) : isClosedString text = true ↔ body.getLast? = some quote := by
  unfold isClosedString
  rw [← String.length_toList, h]
  cases body with
  | nil => simp
  | cons c body => simpa using eq_comm

/-- The check for the last character sees through all strings but those that end with a pair of quotes. -/
theorem Parser.isClosedString_eq_false_iff {text : String} {rest : List Char}
    (h : Lexeme.ClosedString text.toList rest ∨ Lexeme.OpenString text.toList rest) :
    isClosedString text = false ↔
      Lexeme.OpenString text.toList rest ∧ ¬Lexeme.EndsDoubled text.toList := by
  rw [← Bool.not_eq_true]
  obtain hclosed | hopen := h
  · refine iff_of_false ?_ fun hopen => hclosed.not_open hopen.1
    generalize hchars : text.toList = chars at hclosed
    obtain @⟨quote, body, rest, -, -, -, -⟩ := hclosed
    rw [isClosedString_iff hchars]
    simp
  · rw [and_iff_right hopen, not_iff_not]
    generalize hchars : text.toList = chars at hopen
    obtain @⟨quote, body, rest, -, -, hbody, -⟩ := hopen
    rw [isClosedString_iff hchars]
    constructor
    · intro hlast
      obtain ⟨front, rfl⟩ := hbody.exists_pair hlast
      exact .mk quote front
    · intro hends
      cases hends
      simp

theorem Shows.word_eq {text word other : String} {span : Span} (h : Shows text word span)
    (h' : Shows text other span) : word = other := by
  obtain ⟨a, b, hab, hb, rfl, hword⟩ := h
  obtain ⟨c, d, hcd, hd, hspan, hother⟩ := h'
  injection hspan with hstart hstop
  obtain rfl := Position.ofOffset_inj _ (Nat.le_trans hab hb) (Nat.le_trans hcd hd) hstart
  obtain rfl := Position.ofOffset_inj _ hb hd hstop
  rw [← String.toList_inj, ← hword, hother]

/-- Of the strings that are read, those are reported whose line ends before their closing quote, unless they
end with a doubled one. -/
theorem open_strings_reported (text : String) :
    ∃ (tokens : List Token) (start stop : Nat → Nat),
      (∀ limit : Int, tokenize limit text = .ok tokens ↔ tokens.length ≤ limit) ∧
      stop 0 = 0 ∧ Covers text.toList tokens start stop ∧
      (∀ t ∈ (Code.ofTokens tokens).readStrings, t ∈ tokens ∧ t.kind = .string) ∧
      (∀ i (hi : i < tokens.length), tokens[i] ∈ (Code.ofTokens tokens).readStrings →
        (ReportsOpen (parse tokens).diagnostics tokens[i].span ↔
          Lexeme.OpenString tokens[i].text.toList (text.toList.drop (stop (i + 1))) ∧
            ¬Lexeme.EndsDoubled tokens[i].text.toList)) ∧
      ∀ span, ReportsOpen (parse tokens).diagnostics span →
        ∃ t ∈ (Code.ofTokens tokens).readStrings, t.span = span := by
  obtain ⟨tokens, hreads⟩ := Reads.exists_tokens none .start text.toList
  obtain ⟨start, stop, hfirst, hcovers, hoff⟩ := hreads.exists_offsets [] rfl
  rw [List.nil_append] at hcovers hoff
  have hmem {t : Token} (ht : t ∈ (Code.ofTokens tokens).readStrings) : t ∈ tokens := by
    obtain ⟨place, -, rfl⟩ := List.mem_map.mp ht
    exact Code.all_subset hreads _ (Code.token_mem_all _ place)
  refine ⟨tokens, start, stop, fun limit => ?_, hfirst, hcovers, fun t ht => ?_, fun i hi hread => ?_,
    fun span hspan => ?_⟩
  · rw [tokenize_eq_ok_iff, and_iff_right hreads]
  · exact ⟨hmem ht, hreads.kind_of_mem_readStrings ht⟩
  · have hstring : Lexeme.ClosedString tokens[i].text.toList (text.toList.drop (stop (i + 1))) ∨
        Lexeme.OpenString tokens[i].text.toList (text.toList.drop (stop (i + 1))) := by
      have hfills := hoff.fills hi
      rwa [hreads.kind_of_mem_readStrings hread] at hfills
    rw [← Parser.isClosedString_eq_false_iff hstring]
    refine (hreads.reports_iff _).trans ⟨?_, fun hopen => ⟨_, hread, hopen, rfl⟩⟩
    rintro ⟨t, ht, hopen, hspan⟩
    have hshown := tokens_shown hreads
    have htext := (hshown t (hmem ht)).word_eq (hspan ▸ hshown _ (List.getElem_mem hi))
    rwa [← htext]
  · obtain ⟨t, ht, -, rfl⟩ := (hreads.reports_iff span).mp hspan
    exact ⟨t, ht, rfl⟩

/-- A string whose line ends behind a doubled quote. -/
def doubledEnd : String := "x = 'abc''"

/-- It is read and it is open, but it is not reported. -/
theorem doubled_end_unreported : tokenize 100 doubledEnd = .ok (tokensOf doubledEnd) ∧
    ⟨.string, "'abc''", .ofNats 0 4 0 10⟩ ∈ (Code.ofTokens (tokensOf doubledEnd)).readStrings ∧
    doubledEnd.toList = "x = ".toList ++ "'abc''".toList ∧ Lexeme.OpenString "'abc''".toList [] ∧
    ¬ReportsOpen (parse (tokensOf doubledEnd)).diagnostics (.ofNats 0 4 0 10) := by
  have hdoubled : Lexeme.Doubled Lexeme.quoteMark ['a', 'b', 'c', Lexeme.quoteMark, Lexeme.quoteMark] :=
    .other (by decide) (.other (by decide) (.other (by decide) (.pair .nil)))
  have hfacts : tokenize 100 doubledEnd = .ok (tokensOf doubledEnd) ∧
      ⟨.string, "'abc''", .ofNats 0 4 0 10⟩ ∈ (Code.ofTokens (tokensOf doubledEnd)).readStrings ∧
      ∀ d ∈ (parse (tokensOf doubledEnd)).diagnostics, d.code ≠ .unterminatedString := by
    decide +kernel
  obtain ⟨htokens, hread, hnone⟩ := hfacts
  refine ⟨htokens, hread, rfl, .mk (.inl rfl) (by decide) hdoubled (.inl rfl), ?_⟩
  rintro ⟨d, hd, hcode, -⟩
  exact hnone d hd hcode

end MatrixScript
