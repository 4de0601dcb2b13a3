import MatrixScript.Document
import MatrixScript.Proofs.Parser.Layout
import MatrixScript.Proofs.Symbol.Gathering

/-! Where the parts of a document stand in its text.

Main statements: the symbols of a document come in the order of the text, and they lie in the text, dotted
names that are spread over several lines apart. -/
namespace MatrixScript

namespace Position

/-- The line is one of the text, and the column is no larger than its length. -/
def OnLine (text : List Char) (p : Position) : Prop :=
  ∃ (i j : Nat) (line : List Char),
    (text.splitOn '\n')[i]? = some line ∧ j ≤ line.length ∧ p = ⟨i, j⟩

/-- Reading some of the text from any place leads to a column of one of its lines. -/
theorem exists_line (text : List Char) {n : Nat} (hn : n ≤ text.length) :
    ∃ (i j : Nat) (line : List Char), (text.splitOn '\n')[i]? = some line ∧ j ≤ line.length ∧
      ∀ p : Position, p.advance (text.take n) = if i = 0 then p.right j else ⟨p.line + i, j⟩ := by
  induction text generalizing n with
  | nil => exact ⟨0, 0, [], rfl, Nat.le_refl _, fun p => by simp [right]⟩
  | cons c cs ih =>
    cases n with
    | zero =>
      obtain ⟨line, lines, hlines⟩ :=
        List.exists_cons_of_ne_nil (List.splitOnP_ne_nil (· == '\n') (c :: cs))
      refine ⟨0, 0, line, ?_, Nat.zero_le _, fun p => by simp [right]⟩
      rw [List.splitOn, hlines, List.getElem?_cons_zero]
    | succ n =>
      obtain ⟨i, j, line, hline, hj, hadvance⟩ := ih (Nat.le_of_succ_le_succ hn)
      rw [List.splitOn] at hline ⊢
      rw [List.splitOnP_cons_eq_if_modifyHead]
      by_cases hc : c = '\n'
      · refine ⟨i + 1, j, line, by simpa [hc] using hline, hj, fun p => ?_⟩
        rw [List.take_succ_cons, advance_cons, hadvance, next, if_pos hc, if_neg (Nat.succ_ne_zero i)]
        split_ifs with hi
        · simp [hi, right]
        · simp only [mk.injEq, and_true]
          omega
      · obtain ⟨first, lines, hlines⟩ :=
          List.exists_cons_of_ne_nil (List.splitOnP_ne_nil (· == '\n') cs)
        rw [hlines] at hline
        rw [if_neg (by simpa using hc), hlines, List.modifyHead_cons]
        -- the character belongs to the first line and moves the columns of no other one
        cases i with
        | zero =>
          obtain rfl : first = line := by simpa using hline
          refine ⟨0, j + 1, c :: first, rfl, Nat.succ_le_succ hj, fun p => ?_⟩
          rw [List.take_succ_cons, advance_cons, hadvance, next, if_neg hc, if_pos rfl, if_pos rfl]
          simp only [right, mk.injEq, true_and]
          omega
        | succ i =>
          refine ⟨i + 1, j, line, hline, hj, fun p => ?_⟩
          rw [List.take_succ_cons, advance_cons, hadvance, next, if_neg hc, if_neg (Nat.succ_ne_zero i),
            if_neg (Nat.succ_ne_zero i)]

theorem IsIn.onLine {text : List Char} {p : Position} (h : p.IsIn text) : p.OnLine text := by
  obtain ⟨n, hn, rfl⟩ := h
  obtain ⟨i, j, line, hline, hj, hadvance⟩ := exists_line text hn
  refine ⟨i, j, line, hline, hj, ?_⟩
  have hplace := ofOffset_append (text.take n) (text.drop n)
  rw [List.take_append_drop, List.length_take, Nat.min_eq_left hn, hadvance] at hplace
  rw [hplace]
  split_ifs with hi
  · simp [hi, right, start]
  · simp [start]

/-- Between two places on one line there are only places on this line. -/
theorem OnLine.between {text : List Char} {p q r : Position} (hp : p.OnLine text) (hr : r.OnLine text)
    (hpq : p ≤ q) (hqr : q ≤ r) (hline : r.line ≤ p.line) : q.OnLine text := by
  obtain ⟨i, j, _, _, _, rfl⟩ := hp
  obtain ⟨i', j', line, hget, hj', rfl⟩ := hr
  obtain ⟨l, c⟩ := q
  rw [le_iff] at hpq hqr
  refine ⟨i', c.toNat, line, hget, ?_, ?_⟩
  · dsimp only at *
    omega
  · simp only [mk.injEq] at *
    omega

end Position

/-- Neither calls nor the token limit are checked by the parser. -/
theorem Problem.code_ne (problem : Problem) :
    problem.code ≠ .tooManyArguments ∧ problem.code ≠ .tokenLimit := by
  cases problem with
  | conditionMissing keyword | conditionInvalid keyword | blockOpen keyword =>
    cases keyword <;> exact ⟨nofun, nofun⟩
  | extraComma kind | inMatrix kind _ => cases kind <;> exact ⟨nofun, nofun⟩
  | _ => exact ⟨nofun, nofun⟩

/-- A span that lies in the text. -/
structure Span.InText (text : String) (span : Span) : Prop where
  start_le : span.start ≤ span.stop
  start : span.start.OnLine text.toList
  stop : span.stop.OnLine text.toList

theorem Span.Valid.inText {text : String} {span : Span} (h : span.Valid (Position.IsIn text.toList)) :
    span.InText text :=
  ⟨h.start_le, h.start.onLine, h.stop.onLine⟩

/-- The tree of a document stands at its tokens, and all its spans have places in the text. -/
structure Snapshot.LaidOut (s : Snapshot) : Prop where
  body : ∃ lo hi, Lies (Position.IsIn s.text.toList) (Node.PathEnds s.tokens) lo hi
    (stmtNodes s.program.body) (stmtOccurrences s.program.body)
  program : s.program.span.Valid (Position.IsIn s.text.toList)
  diagnostics : ∀ d ∈ s.diagnostics, d.span.Valid (Position.IsIn s.text.toList)
  codes : ∀ d ∈ s.diagnostics, d.code ≠ .tooManyArguments
  tokens : ∀ t ∈ s.tokens, Shows s.text t.text t.span
  references : s.references = s.program.symbols.references
  definitions : s.definitions = s.program.symbols.definitions

namespace Snapshot

theorem tooLong_laidOut {limit : Int} {uri text : String} {version : Int} {e : TokenLimitError}
    (h : tokenize limit text = .error e) : (tooLong uri text version e).LaidOut where
  body := ⟨.start, .start, .nil (Position.le_refl _)⟩
  program := ⟨Position.le_refl _, Position.start_isIn _, Position.start_isIn _⟩
  diagnostics d hd := by
    obtain ⟨ts, hreads, t, ht, hposition⟩ := tokenize_error h
    have hplace : e.position.IsIn text.toList := hposition ▸ (tokens_shown hreads t ht).valid.start
    obtain rfl := List.mem_singleton.mp hd
    exact ⟨Position.le_refl _, hplace, hplace⟩
  codes := List.forall_mem_singleton.mpr nofun
  tokens := List.forall_mem_nil _
  references := rfl
  definitions := rfl

theorem analyze_laidOut (limit : Int) (uri text : String) (version : Int) :
    (analyze limit uri text version).LaidOut := by
  unfold analyze
  split
  next e he => exact tooLong_laidOut he
  next tokens htokens =>
    have hreads := ((tokenize_eq_ok_iff limit text tokens).mp htokens).1
    obtain ⟨⟨lo, hi, hbody⟩, hspan, hdiagnostics⟩ := Parser.parse_lies hreads.laidOut
      (Position.start_isIn _) (fun _ hp => hp.start_le)
    refine ⟨⟨lo, hi, hbody.imp fun _ hn => hn.pathEnds (Code.all_subset hreads)⟩, hspan,
      fun d hd => (hdiagnostics d hd).1, fun d hd => ?_, tokens_shown hreads, rfl, rfl⟩
    obtain ⟨problem, hcode⟩ := (hdiagnostics d hd).2
    exact hcode ▸ problem.code_ne.1

namespace LaidOut

variable {s : Snapshot} (h : s.LaidOut)
include h

theorem nodes_valid : ∀ n ∈ s.program.nodes, n.span.Valid (Position.IsIn s.text.toList) := by
  obtain ⟨lo, hi, hbody⟩ := h.body
  exact List.forall_mem_cons.mpr ⟨h.program, fun n hn => (hbody.nodes n hn).1.toValid⟩

theorem occurrences_ordered (hcases : ∀ n ∈ s.program.nodes, n.CasesFirst) :
    s.program.occurrences.Pairwise Occurrence.Before := by
  obtain ⟨lo, hi, hbody⟩ := h.body
  exact hbody.sorted (List.forall_mem_cons.mp hcases).2

theorem references_ordered (hcases : ∀ n ∈ s.program.nodes, n.CasesFirst) :
    s.references.Pairwise fun r r' => r.span.start ≤ r'.span.start := by
  have hspans : (s.references.map (·.span)).Pairwise fun a b => a.start ≤ b.start := by
    rw [h.references, s.program.reference_spans]
    exact List.pairwise_map.mpr ((h.occurrences_ordered hcases).filter _)
  rwa [List.pairwise_map] at hspans

theorem definitions_ordered (hcases : ∀ n ∈ s.program.nodes, n.CasesFirst) :
    s.definitions.Pairwise fun d d' => d.span.start ≤ d'.span.start := by
  have hspans : (s.definitions.map (·.span)).Pairwise fun a b => a.start ≤ b.start := by
    rw [h.definitions, s.program.definition_spans]
    exact List.pairwise_map.mpr ((h.occurrences_ordered hcases).filter _)
  rwa [List.pairwise_map] at hspans

theorem definition_valid {d : Definition} (hd : d ∈ s.definitions) :
    d.span.Valid (Position.IsIn s.text.toList) := by
  obtain ⟨lo, hi, hbody⟩ := h.body
  rw [h.definitions] at hd
  obtain ⟨o, ho, hbinding, hrecords⟩ := Program.exists_occurrence_of_definition hd
  rw [hrecords.span_eq]
  exact (hbody.names o ho).valid (by rw [beq_iff_eq.mp hbinding]; exact nofun)

/-- Only the reference to a whole dotted name may leave the text. -/
theorem reference_valid_or_path {r : Reference} (hr : r ∈ s.references) :
    r.span.Valid (Position.IsIn s.text.toList) ∨ r.kind = .variable ∧ ∃ use,
      .expr (.name use) ∈ s.program.nodes ∧ use.isDotted = true ∧ r.name = use.name ∧
        r.span = use.nameSpan := by
  obtain ⟨lo, hi, hbody⟩ := h.body
  rw [h.references] at hr
  obtain ⟨o, ho, _, hrecords⟩ := Program.exists_occurrence_of_reference hr
  by_cases hrole : o.role = .path
  · obtain ⟨use, huse, hdotted, hname, hspan⟩ := (hbody.names o ho).path hrole
    exact .inr ⟨hrecords.kind_eq hrole, use, List.mem_cons_of_mem _ huse, hdotted,
      hrecords.name_eq.trans hname, hrecords.span_eq.trans hspan⟩
  · rw [hrecords.span_eq]
    exact .inl ((hbody.names o ho).valid hrole)

/-- A dotted name lies in the text if its last field stands on its first line. -/
theorem path_in_text {use : NameUse Expr} (huse : .expr (.name use) ∈ s.program.nodes)
    (hdotted : use.isDotted = true) :
    use.nameSpan.start ≤ use.nameSpan.stop ∧ use.nameSpan.start.OnLine s.text.toList ∧
      (use.nameSpan.stop.OnLine s.text.toList ∨
        ∃ t ∈ s.tokens, use.EndsAt t ∧ use.span.start.line < t.span.stop.line) := by
  obtain ⟨lo, hi, hbody⟩ := h.body
  obtain ⟨hspan, hpath⟩ := hbody.nodes _ ((List.mem_cons.mp huse).resolve_left nofun)
  obtain ⟨t, ht, hends, hstop⟩ := hpath (by simpa [NameUse.isDotted] using hdotted)
  have hle : use.nameSpan.start ≤ use.nameSpan.stop := Position.le_right _ _
  have hstart : use.nameSpan.start.OnLine s.text.toList := hspan.start.onLine
  refine ⟨hle, hstart, ?_⟩
  by_cases hline : use.span.start.line < t.span.stop.line
  · exact .inr ⟨t, ht, hends, hline⟩
  · exact .inl (hstart.between (h.tokens t ht).valid.stop.onLine hle hstop (Int.not_lt.mp hline))

end LaidOut

/-- The reference to a dotted name whose last field stands on a later line than its first letter. -/
def HasSpreadName (s : Snapshot) (r : Reference) : Prop :=
  ∃ use, .expr (.name use) ∈ s.program.nodes ∧ use.isDotted = true ∧ r.name = use.name ∧
    r.span = use.nameSpan ∧ ∃ t ∈ s.tokens, use.EndsAt t ∧ use.span.start.line < t.span.stop.line

/-- The symbols of a document lie in its text. Only a dotted name that is spread over lines may reach
beyond the end of the line that it starts on. -/
theorem symbols_in_text (limit : Int) (uri text : String) (version : Int) :
    (∀ d ∈ (analyze limit uri text version).definitions, d.span.InText text) ∧
      ∀ r ∈ (analyze limit uri text version).references, r.span.start ≤ r.span.stop ∧
        r.span.start.OnLine text.toList ∧ (r.span.stop.OnLine text.toList ∨
          (analyze limit uri text version).HasSpreadName r) := by
  have hlaid := analyze_laidOut limit uri text version
  constructor
  · intro d hd
    have hvalid := hlaid.definition_valid hd
    rw [analyze_text] at hvalid
    exact hvalid.inText
  · intro r hr
    obtain hvalid | ⟨-, use, huse, hdotted, hname, hspan⟩ := hlaid.reference_valid_or_path hr
    · rw [analyze_text] at hvalid
      exact ⟨hvalid.start_le, hvalid.start.onLine, .inl hvalid.stop.onLine⟩
    · obtain ⟨hle, hstart, hstop⟩ := hlaid.path_in_text huse hdotted
      rw [analyze_text] at hstart hstop
      rw [hspan]
      exact ⟨hle, hstart, hstop.imp_right fun hspread => ⟨use, huse, hdotted, hname, hspan, hspread⟩⟩

/-- An element of `s` is chosen by a list of two lines, and its field `abc` stands on the second one. -/
def indexedField : String := "s([1\n2]).abc = 3;"

theorem indexedField_read :
    (indexedField.toList.splitOn '\n')[0]? = some ['s', '(', '[', '1'] ∧
      .plain "s" .variable (.ofNats 0 0 0 1) [] ∈ (analyze 100 "" indexedField 0).definitions ∧
      ⟨"s.abc", .variable, .ofNats 0 0 0 5, "", none⟩ ∈ (analyze 100 "" indexedField 0).references := by
  decide +kernel

theorem indexedField_not_onLine : ¬Position.OnLine indexedField.toList ⟨0, 5⟩ := by
  rintro ⟨i, j, line, hline, hj, hplace⟩
  obtain ⟨rfl, rfl⟩ : i = 0 ∧ j = 5 := by
    simp only [Position.mk.injEq] at hplace
    omega
  cases indexedField_read.1.symm.trans hline
  exact absurd hj (by decide)

theorem symbols_in_text_indexedField :
    (.plain "s" .variable (.ofNats 0 0 0 1) [] ∈ (analyze 100 "" indexedField 0).definitions ∧
      (Span.ofNats 0 0 0 1).InText indexedField) ∧
    ⟨"s.abc", .variable, .ofNats 0 0 0 5, "", none⟩ ∈ (analyze 100 "" indexedField 0).references ∧
      (analyze 100 "" indexedField 0).HasSpreadName ⟨"s.abc", .variable, .ofNats 0 0 0 5, "", none⟩ := by
  obtain ⟨-, hdefinition, hreference⟩ := indexedField_read
  obtain ⟨hdefinitions, hreferences⟩ := symbols_in_text 100 "" indexedField 0
  exact ⟨⟨hdefinition, hdefinitions _ hdefinition⟩, hreference,
    (hreferences _ hreference).2.2.resolve_left indexedField_not_onLine⟩

/-- The reference to `s.abc` ends in column 5 of a line with four characters. -/
theorem spread_name_beyond_line : ∃ r ∈ (analyze 100 "" indexedField 0).references,
    r.name = "s.abc" ∧ ¬r.span.stop.OnLine indexedField.toList :=
  ⟨_, indexedField_read.2.2, rfl, indexedField_not_onLine⟩

theorem nodes_placed (limit : Int) (uri text : String) (version : Int) :
    ∀ n ∈ (analyze limit uri text version).program.nodes,
      n.Placed (Code.ofTokens (analyze limit uri text version).tokens) := by
  unfold analyze
  split
  next => exact List.forall_mem_singleton.mpr trivial
  next tokens htokens => exact ((tokenize_eq_ok_iff limit text tokens).mp htokens).1.nodes_placed

/-- In a text where each `otherwise` stands behind the cases of its switch, so do its statements. -/
theorem casesFirst_of_otherwiseLast (limit : Int) (uri text : String) (version : Int)
    (h : ∀ n ∈ (analyze limit uri text version).program.nodes,
      n.OtherwiseLast (Code.ofTokens (analyze limit uri text version).tokens)) :
    ∀ n ∈ (analyze limit uri text version).program.nodes, n.CasesFirst :=
  fun n hn => (h n hn).casesFirst (nodes_placed limit uri text version n hn)

/-- The references and the definitions of a document come in the order of its text. -/
theorem symbols_in_document_order (limit : Int) (uri text : String) (version : Int)
    (hcases : ∀ n ∈ (analyze limit uri text version).program.nodes, n.CasesFirst) :
    (analyze limit uri text version).references.Pairwise (fun r r' => r.span.start ≤ r'.span.start) ∧
      (analyze limit uri text version).definitions.Pairwise fun d d' => d.span.start ≤ d'.span.start := by
  have hlaid := analyze_laidOut limit uri text version
  exact ⟨hlaid.references_ordered hcases, hlaid.definitions_ordered hcases⟩

/-- A switch with two brackets that are never closed. -/
def openBrackets : String := "switch a\ncase b(\n  c = (1\notherwise\n  d = @(e) e\nend"

theorem symbols_in_document_order_openBrackets :
    (∀ n ∈ (analyze 100 "" openBrackets 0).program.nodes, n.CasesFirst) ∧
      (analyze 100 "" openBrackets 0).references.map (·.name) = ["a", "b", "c", "d", "e", "e"] ∧
      (analyze 100 "" openBrackets 0).references.Pairwise (fun r r' => r.span.start ≤ r'.span.start) ∧
      (analyze 100 "" openBrackets 0).definitions.Pairwise fun d d' => d.span.start ≤ d'.span.start := by
  have hcases : ∀ n ∈ (analyze 100 "" openBrackets 0).program.nodes, n.CasesFirst := by decide +kernel
  exact ⟨hcases, by decide +kernel, symbols_in_document_order 100 "" openBrackets 0 hcases⟩

end Snapshot

end MatrixScript
