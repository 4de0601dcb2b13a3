import MatrixScript.Document.Word
import MatrixScript.Parser.Statement
import MatrixScript.Symbol.Collection
import MatrixScript.Token.Scanner

/-! Documents: all that is known about one text at one moment. -/
namespace MatrixScript

/-- The analysis of a text. `version` is the number of the edit that the text belongs to. -/
structure Snapshot where
  uri : String
  text : String
  version : Int
  tokens : List Token
  program : Program
  references : List Reference
  definitions : List Definition
  diagnostics : List Diagnostic

namespace Snapshot

/-- A text with too many tokens is not analysed any further. -/
def tooLong (uri text : String) (version : Int) (e : TokenLimitError) : Snapshot :=
  ⟨uri, text, version, [], ⟨[], .zero⟩, [], [],
    [⟨.tokenLimit, e.message, ⟨e.position, e.position⟩, .error⟩]⟩

def analyze (limit : Int) (uri text : String) (version : Int) : Snapshot :=
  match tokenize limit text with
  | .error e => tooLong uri text version e
  | .ok tokens =>
    let parsed := parse tokens
    let symbols := parsed.program.symbols
    ⟨uri, text, version, tokens, parsed.program, symbols.references, symbols.definitions,
      parsed.diagnostics⟩

@[simp] theorem analyze_uri (limit : Int) (uri text : String) (version : Int) :
    (analyze limit uri text version).uri = uri := by
  unfold analyze; split <;> rfl

@[simp] theorem analyze_version (limit : Int) (uri text : String) (version : Int) :
    (analyze limit uri text version).version = version := by
  unfold analyze; split <;> rfl

@[simp] theorem analyze_text (limit : Int) (uri text : String) (version : Int) :
    (analyze limit uri text version).text = text := by
  unfold analyze; split <;> rfl

def lines (s : Snapshot) : List String :=
  (Text.lines s.text.toList).map String.ofList

def definitionsNamed (s : Snapshot) (name : String) : List Definition :=
  s.definitions.filter (·.name == name)

/-- The functions that other documents see. -/
def topLevelFunctions (s : Snapshot) : List Definition :=
  s.definitions.filter fun d => d.isFunction && d.isTopLevel

def referencesNamed (s : Snapshot) (name : String) : List Reference :=
  s.references.filter (·.name == name)

def wordAt? (s : Snapshot) (line column : Int) : Option Word :=
  Word.at? s.text line column

end Snapshot

end MatrixScript
