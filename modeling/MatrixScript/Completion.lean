import MatrixScript.Completion.Item
import MatrixScript.Index.Lookup
import MatrixScript.Symbol.Signature

/-! What an editor offers while a name is typed, and what it shows about a chosen offer. -/
namespace MatrixScript

namespace Completion

/-- Definition items carry the place and the name that they are about. -/
def target (uri name : String) : Payload :=
  .object [("uri", .string uri), ("name", .string name)]

/-- What the data of an offer are about. -/
inductive Subject where
  /-- A name in a document, or outside of all documents. -/
  | name (uri : Option String) (name : String)
  /-- The first document whose file has no stem. -/
  | nameless
  /-- Something that has no definition. -/
  | other

def documentOf? : Payload → Except LookupError (Option String)
  | .string uri => .ok (some uri)
  | .list _ | .object _ => .error .unusableUri
  | _ => .ok none

/-- Only data with a place and a name have a subject. -/
def subject? : Payload → Except LookupError (Option Subject)
  | .object fields =>
    match fields.lookup "uri", fields.lookup "name" with
    | some uri, some name => do
      let uri ← documentOf? uri
      match name with
      | .string name => return some (.name uri name)
      | .null => return some .nameless
      | _ => return some .other
    | _, _ => .ok none
  | _ => .ok none

def isCallable (d : Definition) : Bool :=
  d.kind == .function || d.kind == .anonymousFunction

/-- The offer of a definition; functions come with a snippet that calls them. -/
def ofDefinition (uri : String) (definitions : List Definition) (d : Definition) : Completion :=
  { label := d.name
    kind := some (if isCallable d then .function else .variable)
    snippet := if d.isFunction then some (d.snippet (d.defaults definitions)) else none
    detail := none
    documentation := none
    data := target uri d.name }

/-- Offers with different labels: of those with the same label only the first. -/
def firstOfEach (seen : List String) : List Completion → List Completion
  | [] => []
  | item :: rest =>
    if seen.contains item.label then firstOfEach seen rest
    else item :: firstOfEach (item.label :: seen) rest

/-- How a missing text is shown. -/
def missing : String := "None"

/-- What kind of thing a name stands for, or how it is called. -/
def describe (definitions : List Definition) (d : Definition) : String :=
  match d.kind with
  | .function | .anonymousFunction => "function " ++ d.signature (d.defaults definitions)
  | .defaultArgument => d.name ++ " = " ++ d.content.getD missing
  | .variable => "variable"
  | .argument => "argument"

/-- Comments are shown as they were written. -/
def fence (text : String) : String := "```\n" ++ text ++ "\n```"

end Completion

namespace Index

open Completion

def definitionsIn (i : Index) (uri : String) : List Definition :=
  (i.snapshot? uri).elim [] (·.definitions)

/-- Offers for the names defined in a document, then for the functions of the others. -/
def definitionCompletions (i : Index) (uri : String) : List Completion :=
  let own := (i.definitionsIn uri).map (ofDefinition uri (i.definitionsIn uri))
  let others := (i.topLevelFunctions (some uri)).map fun d =>
    ofDefinition d.uri (i.definitionsIn d.uri) d.value
  firstOfEach [] (own ++ others)

def completions (i : Index) (uri : String) : List Completion :=
  i.definitionCompletions uri ++ keywordCompletions ++ nativeCompletions

/-- The nearest meaning of a subject. -/
def meaning? (i : Index) : Subject → Option (InDocument Definition)
  | .name uri name => (i.meanings uri name).head?
  | .nameless => (i.urisWithStem none).head?.map (⟨·, fileFunction missing⟩)
  | .other => none

/-- An offer with what is known about a definition. -/
def explain (i : Index) (item : Completion) (found : InDocument Definition) : Completion :=
  let comment := found.value.documentation
  { item with
    detail := some (describe (i.definitionsIn found.uri) found.value)
    documentation := if comment.isEmpty then item.documentation else some (fence comment) }

/-- Explains the offer of a definition; others stay as they are. -/
def resolve (i : Index) (item : Completion) : Except LookupError Completion := do
  match ← subject? item.data with
  | none => return item
  | some subject => return (← i.lookup (i.meaning? subject)).elim item (i.explain item)

end Index

end MatrixScript
