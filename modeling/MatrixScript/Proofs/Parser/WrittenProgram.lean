import MatrixScript.Proofs.Parser.WrittenBlock

/-! Parsing written functions and whole programs.

Main statement: a program that is written line by line is parsed without any problem into the tree that it
was written from, whichever words its blocks are closed by. -/
namespace MatrixScript.Parser

open Piece Source

variable {s : State} {gas : Nat} {glued : Bool} {name : Name} {ns : List Name} {qs : List Piece}

/-! Outputs of functions. -/

/-- One round of the loop over outputs takes a name. -/
theorem yields_output {ps rs : List Piece} {R : List Output → Prop}
    (h : s.Starts (.word glued name.text :: ps)) (outputs : List Output)
    (hnext : ∀ s' span, s'.Sees ps →
      Yields s' rs R (parseOutputsFrom gas (.variable ⟨name.text, span⟩ :: outputs) s')) :
    Yields s rs R (parseOutputsFrom (gas + 1) outputs s) := by
  have htext : s.current.text = name.text := h.current_text
  have hkind : s.current.kind = .identifier ∨ s.current.kind = .native := by
    rw [h.current_kind]
    exact name.isName.kind_cases
  have houtputs : isOutputsEnd s.current.kind = false := by rcases hkind with hk | hk <;> rw [hk] <;> rfl
  rw [parseOutputsFrom]
  refine .read rfl (.no (by rw [houtputs]; decide) (.next h fun s₁ h₁ _ _ => ?_))
  rw [htext]
  rcases hkind with hk | hk <;> rw [hk] <;> exact hnext s₁ _ h₁

theorem yields_moreOutputs
    (h : s.Sees (moreNamePieces (Header.names ns) ++ .sign true .closeBracket :: qs))
    (hgas : (moreNamePieces (Header.names ns) ++ .sign true .closeBracket :: qs).length < gas)
    (outputs : List Output) :
    Yields s (.sign true .closeBracket :: qs) (fun result => result.map Output.unplaced =
        outputs.reverse.map Output.unplaced ++ ns.map fun n => .variable ⟨n.text, .zero⟩)
      (parseOutputsFrom gas outputs s) := by
  induction ns generalizing s gas outputs with
  | nil =>
    obtain ⟨gas, rfl⟩ := Nat.exists_eq_succ_of_ne_zero (Nat.ne_of_gt (Nat.zero_lt_of_lt hgas))
    rw [parseOutputsFrom]
    refine .read rfl (.yes ?_ (.pure h (by simp)))
    rw [h.starts.current_kind]
    rfl
  | cons n ns ih =>
    simp only [Header.names_cons, moreNamePieces, List.cons_append, List.length_cons] at h hgas
    obtain ⟨gas, rfl⟩ : ∃ gas', gas = gas' + 2 := ⟨gas - 2, by omega⟩
    have hkind : s.current.kind = .sign .comma := h.starts.current_kind
    rw [parseOutputsFrom]
    refine .read rfl (.no (by rw [hkind]; decide) (.next h.starts fun s₁ h₁ _ _ => ?_))
    rw [hkind]
    refine yields_output h₁.starts outputs fun s₂ span h₂ => (ih h₂ (by omega) _).mono ?_
    intro result hresult
    rw [hresult]
    simp [Output.unplaced, Variable.unplaced]

theorem yields_headerOutputs
    (h : s.Sees (Header.outputPieces ns ++ .word false name.text :: .sign true .openParen :: qs))
    (hgas : (Header.outputPieces ns ++ .word false name.text :: .sign true .openParen :: qs).length < gas) :
    Yields s (.word false name.text :: .sign true .openParen :: qs)
      (fun result => result.map Output.unplaced = ns.map fun n => .variable ⟨n.text, .zero⟩)
      (parseHeaderOutputs gas s) := by
  cases ns with
  | nil =>
    have hopen : (s.current.kind == .sign .openBracket) = false := by
      rw [h.starts.current_kind, beq_eq_false_iff_ne]
      exact Lexeme.nameKind_ne_sign _ _
    have hequals : (s.ahead 1).is .equals = false := by
      rw [Token.is, h.starts.kind_ahead 1]
      rfl
    refine .read rfl (.no (Bool.eq_false_iff.mp hopen) (.read rfl (.read rfl (.no ?_ (.pure h rfl)))))
    simp [hequals]
  | cons n ns =>
    simp only [Header.outputPieces, List.isEmpty_cons, Bool.false_eq_true, if_false, Header.names_cons,
      namePieces, List.cons_append, List.append_assoc, List.nil_append,
      List.length_cons] at h hgas
    refine .read rfl (.yes (by rw [h.starts.current_kind]; rfl) (.next h.starts fun s₁ h₁ _ _ => ?_))
    obtain ⟨gas, rfl⟩ : ∃ gas', gas = gas' + 1 := ⟨gas - 1, by omega⟩
    have houtputs : Yields s₁ (.sign true .closeBracket :: .sign false .equals :: .word false name.text ::
        .sign true .openParen :: qs)
        (fun result => result.map Output.unplaced = (n :: ns).map fun n => .variable ⟨n.text, .zero⟩)
        (parseOutputsFrom (gas + 1) [] s₁) := by
      refine yields_output h₁.starts [] fun s₂ span h₂ => ?_
      refine (yields_moreOutputs h₂ (by omega) _).mono ?_
      intro result hresult
      rw [hresult]
      simp [Output.unplaced, Variable.unplaced]
    refine .bind houtputs fun outputs s₂ h₂ _ houtputs => ?_
    refine .bind (.expectSign h₂.starts) fun _ s₃ h₃ _ _ => .acceptYes h₃.starts rfl fun s₄ h₄ _ => ?_
    exact .no Bool.false_ne_true (.pure h₄ houtputs)

/-! Parameters of functions. -/

theorem yields_namedParam {ps : List Piece} (h : s.Starts (.word glued name.text :: ps))
    (hps : isCloser (kindAt ps 0) = true) (gas : Nat) :
    Yields s ps (fun param => ∃ span, param = some (.plain ⟨name.text, span⟩)) (parseParam gas s) := by
  have htext : s.current.text = name.text := h.current_text
  have hkind : s.current.kind = .identifier ∨ s.current.kind = .native := by
    rw [h.current_kind]
    exact name.isName.kind_cases
  refine .next h fun s₁ h₁ _ _ => ?_
  have hnamed : Yields s₁ ps (fun param => ∃ span, param = .plain ⟨name.text, span⟩)
      (parseNamedParam gas s.current s₁) := by
    refine .read rfl (.no ?_ (.pure h₁ ⟨s.current.span, by rw [htext]⟩))
    rw [h₁.starts.current_kind]
    intro hequals
    rw [eq_of_beq hequals] at hps
    contradiction
  have hsome : Yields s₁ ps (fun param => ∃ span, param = some (.plain ⟨name.text, span⟩))
      ((some <$> parseNamedParam gas s.current) s₁) := by
    refine hnamed.map ?_
    rintro _ ⟨span, rfl⟩
    exact ⟨span, rfl⟩
  rcases hkind with hk | hk <;> rw [hk] <;> exact hsome

/-- One round of the loop over parameters takes a name. -/
theorem yields_headerParam {ps rs : List Piece} {R : List Param → Prop}
    (h : s.Starts (.word glued name.text :: ps)) (hps : isCloser (kindAt ps 0) = true)
    {exprGas : Nat} {openSpan : Span} (params : List Param)
    (hnext : ∀ s' span, s'.Sees ps → Yields s' rs R
      ((parseParamEnd >>= fun _ =>
        parseParamsFrom exprGas openSpan gas (.plain ⟨name.text, span⟩ :: params)) s')) :
    Yields s rs R (parseParamsFrom exprGas openSpan (gas + 1) params s) := by
  have hcloser : isCloser (kindAt (.word glued name.text :: ps) 0) = false :=
    Expr.isCloser_of_isName name.isName.isName
  rw [parseParamsFrom]
  refine .acceptNo h (beq_of_isCloser hcloser rfl) (.no Bool.false_ne_true (.read rfl (.no ?_ ?_)))
  · rw [h.current_kind, isNewlineOrEnd_of_isCloser hcloser]
    decide
  refine .bind (yields_namedParam h hps exprGas) ?_
  rintro _ s₁ h₁ - ⟨span, rfl⟩
  exact hnext s₁ span h₁

theorem yields_paramsEnd (h : s.Starts (.sign true .closeParen :: qs)) (exprGas gas : Nat)
    (openSpan : Span) (params : List Param) :
    Yields s qs (fun result => result = params.reverse)
      (parseParamsFrom exprGas openSpan (gas + 1) params s) := by
  rw [parseParamsFrom]
  exact .acceptYes h rfl fun s₁ h₁ _ => .yes rfl (.pure h₁ rfl)

theorem yields_moreHeaderParams (h : s.Starts (.word glued name.text ::
      (moreNamePieces (Header.names ns) ++ .sign true .closeParen :: qs))) {exprGas : Nat}
    (hgas : (moreNamePieces (Header.names ns) ++ .sign true .closeParen :: qs).length + 1 < gas)
    (openSpan : Span) (params : List Param) :
    Yields s qs (fun result => result.map Param.unplaced =
        params.reverse.map Param.unplaced ++ (name :: ns).map fun n => .plain ⟨n.text, .zero⟩)
      (parseParamsFrom exprGas openSpan gas params s) := by
  induction ns generalizing name glued s gas params with
  | nil =>
    obtain ⟨gas, rfl⟩ : ∃ gas', gas = gas' + 2 := ⟨gas - 2, by omega⟩
    refine yields_headerParam h rfl params fun s₁ span h₁ => ?_
    have hend : Yields s₁ (.sign true .closeParen :: qs) (fun _ => True) (parseParamEnd s₁) := by
      refine .acceptNo h₁.starts rfl (.no Bool.false_ne_true (.read rfl (.yes ?_ (.pure h₁ trivial))))
      rw [h₁.starts.current_kind]
      rfl
    refine .bind hend fun _ s₂ h₂ _ _ => (yields_paramsEnd h₂.starts exprGas gas openSpan _).mono ?_
    rintro _ rfl
    simp [Param.unplaced, Variable.unplaced]
  | cons n ns ih =>
    simp only [Header.names_cons, moreNamePieces, List.cons_append, List.length_cons] at h hgas
    obtain ⟨gas, rfl⟩ : ∃ gas', gas = gas' + 1 := ⟨gas - 1, by omega⟩
    refine yields_headerParam h rfl params fun s₁ span h₁ => ?_
    have hend : Yields s₁ (.word false n.text ::
        (moreNamePieces (Header.names ns) ++ .sign true .closeParen :: qs)) (fun _ => True)
        (parseParamEnd s₁) :=
      .acceptYes h₁.starts rfl fun s₂ h₂ _ => .yes rfl (.pure h₂ trivial)
    refine .bind hend fun _ s₂ h₂ _ _ => (ih h₂.starts (by omega) _).mono ?_
    intro result hresult
    rw [hresult]
    simp [Param.unplaced, Variable.unplaced]

theorem yields_headerParams (h : s.Starts (Header.paramPieces ns ++ qs))
    (hgas : (Header.paramPieces ns ++ qs).length < gas) :
    Yields s qs (fun result => result.map Param.unplaced = ns.map fun n => .plain ⟨n.text, .zero⟩)
      (parseParams gas s) := by
  simp only [Header.paramPieces, List.cons_append, List.append_assoc, List.nil_append,
    List.length_cons] at h hgas
  refine .read rfl (.yes (by rw [h.current_kind]; rfl) (.next h fun s₁ h₁ _ _ => ?_))
  cases ns with
  | nil =>
    obtain ⟨gas, rfl⟩ : ∃ gas', gas = gas' + 1 := ⟨gas - 1, by omega⟩
    refine (yields_paramsEnd h₁.starts _ gas _ []).mono ?_
    rintro _ rfl
    rfl
  | cons n ns =>
    simp only [Header.names_cons, namePieces, List.cons_append, List.length_cons] at h₁ hgas
    exact yields_moreHeaderParams h₁.starts (by omega) _ []

/-! Functions. -/

theorem yields_header {header : Header} (h : s.Sees (Header.outputPieces header.outputs ++
      .word false header.name.text :: (Header.paramPieces header.params ++ qs)))
    (hgas : (Header.outputPieces header.outputs ++
      .word false header.name.text :: (Header.paramPieces header.params ++ qs)).length < gas)
    (keyword : Token) :
    Yields s qs (fun found => found.unplaced = header.toHeader.unplaced) (parseHeader gas keyword s) := by
  refine .bind (yields_headerOutputs h hgas) fun outputs s₁ h₁ _ houtputs => ?_
  have htext : s₁.current.text = header.name.text := h₁.starts.current_text
  have hisName : s₁.current.isName = true := by
    rw [Token.isName, h₁.starts.current_kind]
    exact header.name.isName.isName
  have hname : Yields s₁ (Header.paramPieces header.params ++ qs)
      (fun found => found.name = header.name.text) (parseFunctionName keyword s₁) :=
    .read rfl (.yes hisName (.next h₁.starts fun s₂ h₂ _ _ => .pure h₂ htext))
  refine .bind hname fun name s₂ h₂ _ hfound => ?_
  simp only [List.length_cons, List.length_append] at hgas
  refine .bind (yields_headerParams h₂.starts (by simp; omega)) fun params s₃ h₃ _ hparams => .pure h₃ ?_
  simp [FunctionHeader.unplaced, Header.toHeader, hfound, houtputs, hparams, Output.unplaced,
    Param.unplaced, Variable.unplaced]

section

variable {block : BlockParser} {n : Nat} {layout : Layout}

theorem yields_function (hblock : BlockReads block n) {header : Header} {body : List Tree}
    {close : Closer .function} (hfits : (Item.function header body close).fits = true)
    (h : s.Starts (Line.allPieces (Item.function header body close).lines ++ qs))
    (hlength : (Line.allPieces (Item.function header body close).lines ++ qs).length ≤ n) :
    Yields s (.newline :: qs)
      (fun stmt => stmt.unplaced = (Item.function header body close).toStmt.unplaced)
      (parseFunction layout (n + 1) block s) := by
  simp only [Item.fits, Bool.and_eq_true, decide_eq_true_eq] at hfits
  simp only [Item.lines, Line.allPieces_cons, Line.allPieces_append, Line.allPieces_nil, Line.function,
    Line.word, List.cons_append, List.append_assoc, List.nil_append] at h hlength
  simp only [List.length_cons, List.length_append] at hlength
  refine .next h fun s₁ h₁ _ _ => ?_
  refine .bind (yields_header h₁ (by simp; omega) _) fun header' s₂ h₂ _ hheader => .read rfl ?_
  have hfinish : Yields s₂ (.newline :: (Line.allPieces (Tree.blockLines body) ++
      .word true close.1.spelling :: .newline :: qs)) (fun _ => True) (finishHeader s₂) := by
    refine .read rfl (.no ?_ (.pure h₂ trivial))
    rw [h₂.starts.current_kind]
    exact Bool.false_ne_true
  refine .bind hfinish fun _ s₃ h₃ _ _ => ?_
  have hends := (StartsWith.closer close (.newline :: qs)).endsBlock functionBodyEnds (by decide)
  refine .bind (hblock h₃ (by simp; omega) hfits (by decide) hends) fun body' s₄ h₄ _ hbody => ?_
  have hclose : s₄.current.isWord Keyword.function.terminators = true := by
    rw [isWord_of_kind h₄.starts.word_kind]
    exact List.contains_iff_mem.mpr close.2
  refine .read rfl (.yes hclose (.next h₄.starts fun s₅ h₅ _ _ => .pure h₅ ?_))
  simp only [Item.toStmt, Stmt.unplaced, hheader, hbody]

theorem written_item (hblock : BlockReads block n) {item : Item} (hfits : item.fits = true)
    (hlength : (Line.allPieces item.lines ++ qs).length ≤ n) :
    Written (parseStatement layout (n + 1) block) [] (Line.allPieces item.lines ++ qs) (.newline :: qs)
      item.toStmt := by
  cases item with
  | statement tree => exact written_tree hblock layout (by decide) hfits hlength
  | function header body close =>
    refine written_keyword rfl (Lexeme.nameKind_spelling .function) ?_ (fun _ => rfl) fun s h =>
      yields_function hblock hfits h hlength
    simp [Item.lines, Line.function]
    omega

end

/-! Programs. -/

theorem yields_items {code : Code} {items : List Item} (hcount : items.length ≤ maxStatements)
    (hitems : ∀ item ∈ items, item.fits = true) (heof : code.eof.kind = .eof)
    (hfits : AllFit none (Line.allPieces (items.flatMap Item.lines)) code.tokens) :
    Yields (.ofCode code) []
      (fun body => body.map Stmt.unplaced = items.map fun item => item.toStmt.unplaced)
      (runBlock code (code.tokens.length + 1)) := by
  have hlength : (Line.allPieces (items.flatMap Item.lines) ++ []).length = code.tokens.length := by
    rw [List.append_nil, hfits.length_eq]
  have hstart : (State.ofCode code).Starts ([] ++ (Line.allPieces (items.flatMap Item.lines) ++ [])) := by
    rw [List.nil_append, List.append_nil]
    exact ⟨heof, hfits⟩
  have hwritten : ∀ item ∈ items, ∀ qs, (Line.allPieces item.lines ++ qs).length ≤ code.tokens.length →
      Written (parseStatement (.ofCode code) (code.tokens.length + 1)
          (parseBlock (.ofCode code) code.tokens.length)) []
        (Line.allPieces item.lines ++ qs) (.newline :: qs) item.toStmt :=
    fun item hitem qs hlength => written_item (blockReads _ _) (hitems item hitem) hlength
  rw [runBlock, parseBlock]
  refine (yields_statements hwritten rfl [] (List.forall_mem_nil _) hstart ?_ (by omega) (by omega)
    (by omega) []).mono ?_
  · rintro rfl
    exact ⟨heof, hfits⟩
  · intro body hbody
    rw [hbody]
    simp

end MatrixScript.Parser

namespace MatrixScript

open Source

/-- A program that is written line by line, with each block closed by any word that can close it, is
parsed without any problem into the tree that it was written from. -/
theorem written_program_parsed (items : List Item) (hcount : items.length ≤ maxStatements)
    (hfits : ∀ item ∈ items, item.fits = true) :
    ∃ tokens, (∀ limit, tokenize limit (Line.join (items.flatMap Item.lines)) = .ok tokens ↔
        tokens.length ≤ limit) ∧
      (parse tokens).diagnostics = [] ∧
      (parse tokens).program.body.map Stmt.unplaced = items.map fun item => item.toStmt.unplaced := by
  have hlegible : Piece.AllLegible none (Line.allPieces (items.flatMap Item.lines)) [] :=
    Line.legible_allPieces _ rfl
  obtain ⟨tokens, htokens, heof, hpieces⟩ := hlegible.tokenize (Line.spell_allPieces _).symm
  exact ⟨tokens, htokens, Parser.parse_of_yields (Parser.yields_items hcount hfits heof hpieces)⟩

/-! A program with one block of every kind. -/

namespace Source

def Value.ofName {place : Expr.Place} (name : Name) : Value place where
  expr := .name ⟨name.text, [], .zero, none, Lexeme.nameKind name.text == .native, false⟩
  bare := .name nofun
  lexical := lexical_name ⟨name.isName, List.forall_mem_nil _, rfl, rfl⟩ nofun

def Value.one : Value .outside where
  expr := .number "1" .zero
  bare := .number _ _
  lexical := by
    intro n hn
    rw [Expr.nodes, List.mem_singleton] at hn
    have hdigit : Lexeme.IsDigits ['1'] := ⟨by decide, List.all_eq_true.mp rfl⟩
    exact ⟨_, hn, .mk hdigit .none .none⟩

def Name.x : Name := ⟨"x", .mk rfl nofun, by decide⟩

def Name.f : Name := ⟨"f", .mk rfl nofun, by decide⟩

def Tree.set : Tree := .assign .x .one

def Tree.callF : Tree := .call .f [.ofName .x]

/-- A function with an `if` and a loop in it, then a `switch` with a `try` and a `do` in it. -/
def mixedItems : List Item := [
  .function ⟨[.x], .f, [.x, .f]⟩ [
      .ifElse (.ofName .x) [.set] [⟨.one, [.callF]⟩] (some []) ⟨.endIf, by decide⟩,
      .whileLoop (.ofName .x) [.jump .breakOut] ⟨.endAny, by decide⟩]
    ⟨.endFunction, by decide⟩,
  .statement (.switch (.ofName .x) [
      ⟨.one, [.tryCatch [.forLoop .x .one [.callF] ⟨.endFor, by decide⟩] (some .x) []
        ⟨.endTryCatch, by decide⟩]⟩]
    (some [.doUntil [.set] (.ofName .x)]) ⟨.endAny, by decide⟩)]

def mixedText : String :=
  "function [x] = f(x, f)\nif x\nx = 1;\nelseif 1\nf(x);\nelse\nendif\nwhile x\nbreak;\nend\nendfunction\n" ++
  "switch x\ncase 1\ntry\nfor x = 1\nf(x);\nendfor\ncatch x\nend_try_catch\notherwise\ndo\nx = 1;\nuntil x\nend\n"

end Source

theorem written_program_parsed_mixedItems :
    Line.join (mixedItems.flatMap Item.lines) = mixedText ∧
      mixedItems.length ≤ maxStatements ∧ (∀ item ∈ mixedItems, item.fits = true) ∧
      ∃ tokens, (∀ limit, tokenize limit (Line.join (mixedItems.flatMap Item.lines)) = .ok tokens ↔
          tokens.length ≤ limit) ∧
        (parse tokens).diagnostics = [] ∧
        (parse tokens).program.body.map Stmt.unplaced = mixedItems.map fun item => item.toStmt.unplaced := by
  have hcount : mixedItems.length ≤ maxStatements := by decide
  have hfits : ∀ item ∈ mixedItems, item.fits = true := by decide
  exact ⟨by decide +kernel, hcount, hfits, written_program_parsed mixedItems hcount hfits⟩

end MatrixScript
