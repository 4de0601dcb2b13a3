import MatrixScript.Completion
import MatrixScript.Index.Clock
import MatrixScript.Index.Discovery

/-! The conversation with an editor.

The editor tells which documents it has open and what their texts are; the server answers questions
about names and sends the problems of open documents. -/
namespace MatrixScript

/-- The problems of a document, as they are sent to the editor. -/
structure Notification where
  uri : String
  diagnostics : List EditorDiagnostic
deriving DecidableEq, Repr

/-- A place in a document. -/
structure Location where
  uri : String
  span : Span
deriving DecidableEq, Repr

/-- What the server says about itself. -/
structure Capabilities where
  /-- How texts are kept in step: 2 stands for changes of parts of a text. -/
  sync : Nat
  /-- Characters after which the editor asks for completions. -/
  triggers : List String
  resolvesCompletions : Bool
  findsDefinitions : Bool
  findsReferences : Bool
  name : String
  version : String
deriving DecidableEq, Repr

/-- Why a request has no answer. -/
inductive RequestError where
  | lookup (e : LookupError)
  /-- The file of a document that is not open cannot be read. -/
  | read (e : FileTree.ReadError)
  /-- A document that is not open is in no file. -/
  | noFile
deriving DecidableEq, Repr

structure Server where
  index : Index
  /-- The documents that the editor has open. -/
  opened : List String
  /-- The editor's texts. -/
  texts : Registry String
  /-- All that has been sent, oldest first. -/
  sent : List Notification

namespace Server

def new (settings : Settings) : Server :=
  ⟨.empty settings true, [], .empty, []⟩

def capabilities : Capabilities :=
  ⟨2, [".", "@", "("], true, true, true, "mlang-lsp", "0.1.0"⟩

def settings (s : Server) : Settings := s.index.settings

def isOpen (s : Server) (uri : String) : Bool := s.opened.contains uri

/-- Sends what the index has published; closed documents are passed over. -/
def deliver (s : Server) : Server :=
  let notices := s.index.notices.filter fun n => s.isOpen n.uri
  { s with
    index := { s.index with notices := [] }
    sent := s.sent ++ notices.map fun n => ⟨n.uri, n.diagnostics.map (·.forEditor)⟩ }

/-- Works on the index and sends what it publishes. -/
def onIndex (s : Server) (step : Index → Index) : Server :=
  { s with index := step s.index }.deliver

def addOpened (s : Server) (uri : String) : List String :=
  if s.isOpen uri then s.opened else s.opened ++ [uri]

/-- Why a document is neither opened nor changed. -/
def refusal? (uri : String) : Option LookupError :=
  if Uri.isWellFormed uri then none else some .malformedUri

/-- A document was opened. It may be known from its file, perhaps with another text. Where its name is
refused, nothing happens. -/
def didOpen (s : Server) (uri text : String) : Server :=
  if (refusal? uri).isSome then s
  else
    let s := { s with opened := s.addOpened uri, texts := s.texts.put uri text }
    s.onIndex fun i =>
      if (i.snapshot? uri).any (·.text != text) then i.update uri text
      else (i.register uri text).publish uri

/-- Why a document was not opened, or why its problems are not sent. -/
def openError? (s : Server) (uri : String) : Option LookupError :=
  (refusal? uri).or (s.index.publishError? uri)

/-- The text of a document was changed. Where its name is refused, nothing happens. -/
def didChange (s : Server) (uri text : String) : Server :=
  if (refusal? uri).isSome then s
  else { s with texts := s.texts.put uri text }.onIndex (·.change uri text)

/-- A document was closed. Its problems are cleared. -/
def didClose (s : Server) (uri : String) : Server :=
  let s := s.onIndex (·.close uri)
  { s with
    sent := if s.isOpen uri then s.sent ++ [⟨uri, []⟩] else s.sent
    opened := s.opened.filter (· != uri)
    texts := s.texts.erase uri }

def applySettings (s : Server) (payload : Payload) : Except DelayOverflow Server := do
  let settings ← s.settings.update payload
  return { s with index := { s.index with settings } }

def sortedOpened (s : Server) : List String :=
  s.opened.mergeSort fun a b => !(b < a)

/-- The settings were changed, so the problems of all open documents are sent again, up to one whose
problems cannot be found out. -/
def configure (s : Server) (payload : Payload) : Except DelayOverflow Server := do
  let s ← s.applySettings payload
  return s.onIndex fun i =>
    (s.sortedOpened.takeWhile fun uri => (i.publishError? uri).isNone).foldl Index.publish i

/-- Why some problems are not sent after a change of the settings. -/
def configureError? (s : Server) : Option LookupError :=
  s.sortedOpened.findSome? s.index.publishError?

/-- Takes in the source files below a directory, and tells which paths could not be read. -/
def discover (s : Server) (t : FileTree.View) (root : Option String) : Server × List String :=
  match root with
  | none | some "" => (s, [])
  | some root =>
    let (index, failures) := s.index.discover t root
    ({ s with index }, failures)

def advance (s : Server) (duration : Nat) : Server := s.onIndex (·.advance duration)

def shutdown (s : Server) : Server := s.onIndex Index.shutdown

/-- The editor's text of a document; one that is not open is read from its file. -/
def text (s : Server) (t : FileTree.View) (uri : String) : Except RequestError String :=
  match s.texts.get? uri with
  | some text => .ok text
  | none =>
    match refusal? uri, Uri.toPath? uri with
    | some e, _ => .error (.lookup e)
    | none, none => .error .noFile
    | none, some path => (t.readText path).mapError .read

/-- The word at a place of a text. -/
def wordAt? (s : Server) (t : FileTree.View) (uri : String) (line column : Int) :
    Except RequestError (Option Word) := do
  return Word.at? (← s.text t uri) line column

/-- The meanings of a word; those of a field are looked for under the variable before it. -/
def meanings (s : Server) (uri word : String) : List (InDocument Definition) :=
  match s.index.meanings (some uri) word with
  | [] =>
    let root := String.ofList (word.toList.takeWhile (· != '.'))
    if root == word then [] else s.index.meanings (some uri) root
  | found => found

/-- Where the word at a place is defined. -/
def definition (s : Server) (t : FileTree.View) (uri : String) (line column : Int) :
    Except RequestError (List Location) := do
  match ← s.wordAt? t uri line column with
  | none => return []
  | some word =>
    let found ← (s.index.lookup (s.meanings uri word.text)).mapError RequestError.lookup
    return found.map fun d => ⟨d.uri, d.value.span⟩

/-- Where the word at a place is used in its document, with or without its definitions. -/
def references (s : Server) (t : FileTree.View) (uri : String) (line column : Int)
    (declaration : Bool) : Except RequestError (List Location) := do
  match ← s.wordAt? t uri line column with
  | none => return []
  | some word =>
    let declared := (s.index.definitionsNamed uri word.text).map (·.span)
    let found := s.index.findReferences uri word.text
    return (found.filter fun r => declaration || !declared.contains r.span).map fun r =>
      ⟨uri, r.span⟩

end Server

end MatrixScript
