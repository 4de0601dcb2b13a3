import MatrixScript.Settings
import MatrixScript.Symbol.Signature
import MatrixScript.Token.Vocabulary

/-! Single offers, and those for the words of the language itself. -/
namespace MatrixScript

inductive Completion.Kind where
  | function | variable | keyword
deriving DecidableEq, Repr

/-- The numbers by which editors know the kinds. -/
def Completion.Kind.number : Kind → Nat
  | .function => 3
  | .variable => 6
  | .keyword => 14

/-- An offer of an editor. `data` is for the one who made the offer and comes back unchanged. -/
structure Completion where
  label : String
  kind : Option Completion.Kind
  /-- What is put into the text in place of the label. -/
  snippet : Option String
  detail : Option String
  documentation : Option String
  data : Payload

namespace Completion

open Definition (tabStop)

/-- What a keyword that starts a block expands to, and the page that describes it. -/
def template? : Keyword → Option (String × String)
  | .forLoop => some ("for " ++ tabStop 1 "var" ++ " = " ++ tabStop 2 "range" ++ "\n\t$0\nend",
      "The-for-Statement.html")
  | .whileLoop => some ("while " ++ tabStop 1 "condition" ++ "\n\t$0\nend", "The-while-Statement.html")
  | .ifBlock => some ("if " ++ tabStop 1 "condition" ++ "\n\t$0\nend", "The-if-Statement.html")
  | .switchBlock => some ("switch " ++ tabStop 1 "value" ++ "\n\tcase " ++ tabStop 2 "label" ++
      "\n\t\t$0\n\totherwise\nend", "The-switch-Statement.html")
  | .doBlock => some ("do\n\t$0\nuntil " ++ tabStop 1 "condition", "The-do_002duntil-Statement.html")
  | .tryBlock => some ("try\n\t$0\ncatch " ++ tabStop 1 "err" ++ "\nend", "The-try-Statement.html")
  | .function => some ("function " ++ tabStop 1 "output" ++ " = " ++ tabStop 2 "name" ++ "(" ++
      tabStop 3 "args" ++ ")\n\t$0\nend", "Defining-Functions.html")
  | _ => none

def link (text address : String) : String := "[" ++ text ++ "](" ++ address ++ ")"

def ofKeyword (k : Keyword) : Completion :=
  let template := template? k
  { label := k.spelling
    kind := some .keyword
    snippet := template.map (·.1)
    detail := some "keyword"
    documentation := template.map fun (_, page) =>
      link (k.spelling ++ " statement") ("https://docs.octave.org/latest/" ++ page)
    data := .null }

def ofNative (name : String) : Completion :=
  { label := name
    kind := some .function
    snippet := none
    detail := some "native function"
    documentation := some (link (name ++ " function")
      ("https://octave.sourceforge.io/octave/function/" ++ name ++ ".html"))
    data := .null }

def sortByLabel (items : List Completion) : List Completion :=
  items.mergeSort fun a b => !(b.label < a.label)

def keywordCompletions : List Completion := sortByLabel (Keyword.all.map ofKeyword)

def nativeCompletions : List Completion := sortByLabel (nativeFunctions.map ofNative)

end Completion

end MatrixScript
