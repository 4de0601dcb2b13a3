import MatrixScript.Proofs.Document.Layout
import MatrixScript.Proofs.Token.Shared

/-! The token limit. It allows as many tokens as it says, the end token among them, and the first token beyond it
is where the analysis of a longer text gives up. -/
namespace MatrixScript

namespace Snapshot

/-- The parser never reports the token limit. -/
theorem code_ne_tokenLimit {limit : Int} {text : String} {tokens : List Token}
    (h : tokenize limit text = .ok tokens) (uri : String) (version : Int) :
    ∀ d ∈ (analyze limit uri text version).diagnostics, d.code ≠ .tokenLimit := by
  intro d hd
  have hreads := ((tokenize_eq_ok_iff limit text tokens).mp h).1
  rw [analyze, h] at hd
  obtain ⟨-, -, hdiagnostics⟩ := Parser.parse_lies hreads.laidOut (Position.start_isIn _)
    (fun _ hp => hp.start_le)
  obtain ⟨problem, hcode⟩ := (hdiagnostics d hd).2
  rw [hcode]
  exact problem.code_ne.2

/-- The tokens that a text has without a limit are at most one more than its characters. If the limit allows
them all, they are the tokens of the text and of its document. Otherwise the text is refused at the first token
beyond the limit, and its document is empty but for a report at that place. -/
theorem token_limit_exact (text : String) : ∃ tokens : List Token,
    (∀ n s, (TokenStream.take n (.fresh (some text)) s).1 = (List.range n).map (tokens[·]?)) ∧
    tokens.length ≤ text.length + 1 ∧
    ∀ (limit : Int) (uri : String) (version : Int),
      (tokens.length ≤ limit → tokenize limit text = .ok tokens ∧
        (analyze limit uri text version).tokens = tokens ∧
        ∀ d ∈ (analyze limit uri text version).diagnostics, d.code ≠ .tokenLimit) ∧
      (limit < tokens.length → ∃ beyond, tokens[(max limit 0).toNat]? = some beyond ∧
        tokenize limit text = .error ⟨limit, beyond.span.start⟩ ∧
        analyze limit uri text version = ⟨uri, text, version, [], ⟨[], .zero⟩, [], [],
          [⟨.tokenLimit, "Token limit of " ++ toString limit ++ " exceeded",
            ⟨beyond.span.start, beyond.span.start⟩, .error⟩]⟩) := by
  obtain ⟨tokens, h⟩ := Scanner.exists_follows_ofText text
  have hreads : Reads none .start text.toList tokens := h.reads
  refine ⟨tokens, ?_, ?_, ?_⟩
  · intro n s
    have hlive : TokenStream.fresh (some text) ≠ .ended := nofun
    rw [TokenStream.take_eq hlive h]
    apply List.map_congr_left
    intro i _
    have hsize : ((TokenStream.fresh (some text)).turn s).history.size = 0 := rfl
    rw [hsize, Nat.zero_min, Nat.zero_add]
  · rw [← String.length_toList]
    exact hreads.length_le
  · intro limit uri version
    constructor
    · intro hle
      have hok := (tokenize_eq_ok_iff limit text tokens).mpr ⟨hreads, hle⟩
      refine ⟨hok, ?_, code_ne_tokenLimit hok uri version⟩
      rw [analyze, hok]
    · intro hlt
      have hindex : (max limit 0).toNat = limit.toNat := by omega
      have hbeyond : tokens[limit.toNat]? ≠ none := by
        rw [ne_eq, hreads.getElem?_limit]
        omega
      obtain ⟨beyond, hbeyond⟩ := Option.ne_none_iff_exists'.mp hbeyond
      have herror : tokenize limit text = .error ⟨limit, beyond.span.start⟩ := by
        rw [hreads.tokenize, hbeyond]
        rfl
      refine ⟨beyond, hindex ▸ hbeyond, herror, ?_⟩
      rw [analyze, herror]
      rfl

end Snapshot

end MatrixScript
