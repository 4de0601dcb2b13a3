import MatrixScript.Proofs.Parser.FunctionLines

/-! The nodes of a parsed program enclose their parts, but for those that escape. -/
namespace MatrixScript

/-- In a parsed program the nodes enclose their parts, but for those that escape, and functions have their
documentation. -/
theorem Code.LaidOut.nests {B : Position → Prop} {code : Code} (hlaid : code.LaidOut B) (hstart : B .start)
    (hfirst : ∀ p, B p → .start ≤ p) :
    ∀ n ∈ code.parse.program.nodes,
      n.Nests (· ∈ code.parse.diagnostics) code.eof ∧ n.Documented code False := by
  obtain ⟨-, _, ⟨hbody, _, hprogram⟩, -⟩ :=
    Parser.parseProgram_lies hlaid hstart hfirst (code.tokens.length + 1)
  have hwell := Parser.goesWell hlaid.eof_kind hlaid.kind_ne (Nat.lt_succ_self code.tokens.length)
  refine List.forall_mem_cons.mpr ⟨⟨hprogram.mono fun d hd => hd hwell.faults_eq, trivial⟩, fun n hn => ?_⟩
  obtain ⟨_, _, hformed⟩ := hbody.nodes n hn
  exact ⟨hformed.nests.mono fun d hd => hd hwell.faults_eq, hformed.documented.mono (· hwell.faults_eq)⟩

/-- Whatever the text is, a node encloses its name and its parts. The exceptions are named arguments behind a
bracket that is not closed, and assignments of several values that are read to the end of the text. -/
theorem nodes_enclose_parts (text : String) :
    ∃ (tokens : List Token) (eof : Token),
      (∀ limit : Int, tokenize limit text = .ok tokens ↔ tokens.length ≤ limit) ∧
      eof ∈ tokens ∧ eof.kind = .eof ∧
      ∀ n ∈ (parse tokens).program.nodes, (∀ span ∈ n.nameSpan?, n.span.Encloses span) ∧
        ∀ part ∈ n.parts, n.span.start ≤ part.span.start ∧
          (part.span.stop ≤ n.span.stop ∨ n.Escapes (· ∈ (parse tokens).diagnostics) eof part) := by
  obtain ⟨tokens, hreads⟩ := Reads.exists_tokens none .start text.toList
  refine ⟨tokens, (Code.ofTokens tokens).eof, fun limit => ?_, ?_, Code.eof_kind tokens, fun n hn => ?_⟩
  · rw [tokenize_eq_ok_iff, and_iff_right hreads]
  · exact Code.all_subset hreads _ (List.mem_append_right _ (List.mem_singleton.mpr rfl))
  · have hnests := (hreads.laidOut.nests (Position.start_isIn _) (fun _ hp => hp.start_le) n hn).1
    exact ⟨hnests.name, fun part hpart => ⟨hnests.starts part hpart, hnests.stops part hpart⟩⟩

/-- A call whose arguments are not closed. -/
def openCall : String := "f(a = 1"

/-- A block that is not closed. The bracket in it is not closed either. -/
def openTargets : String := "if x\n[a) = 1 "

/-- A node of the text does not enclose one of its parts. -/
def Unnested (text : String) : Prop :=
  tokenize 100 text = .ok (tokensOf text) ∧
    ∃ n ∈ (parse (tokensOf text)).program.nodes, ∃ part ∈ n.parts, ¬n.span.Encloses part.span

instance (text : String) : Decidable (Unnested text) :=
  inferInstanceAs (Decidable (_ ∧ _))

theorem open_brackets_unnested : Unnested openCall ∧ Unnested openTargets := by
  decide +kernel

end MatrixScript
