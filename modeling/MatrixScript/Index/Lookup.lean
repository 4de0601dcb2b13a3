import MatrixScript.Index
import MatrixScript.Uri

/-! What names mean across documents. -/
namespace MatrixScript

/-- Something found in a document. -/
structure InDocument (α : Type) where
  uri : String
  value : α

/-- Why names could not be looked up. -/
inductive LookupError where
  /-- A document has a name that is not well formed. -/
  | malformedUri
  /-- Something else was given than the name of a document. -/
  | unusableUri
deriving DecidableEq, Repr

namespace Index

/-- A lookup reads the names of all documents, so it fails if one of them is not well formed. -/
def lookup (i : Index) (answer : α) : Except LookupError α :=
  if i.uris.all Uri.isWellFormed then .ok answer else .error .malformedUri

def definitionsNamed (i : Index) (uri name : String) : List Definition :=
  (i.snapshot? uri).elim [] (·.definitionsNamed name)

/-- The definitions of a name in a document itself, whatever their scope. -/
def localDefinitions (i : Index) (uri name : String) : List (InDocument Definition) :=
  (i.definitionsNamed uri name).map (⟨uri, ·⟩)

/-- The definitions of a name that documents share, but for those of one document. -/
def sharedDefinitions (i : Index) (exclude : Option String) (name : String) :
    List (InDocument Definition) :=
  (i.snapshots.entries.filter (some ·.1 != exclude)).flatMap fun (uri, snapshot) =>
    ((snapshot.definitionsNamed name).filter (·.isTopLevel)).map (⟨uri, ·⟩)

/-- A file as a function of the same name, at the start of the file. -/
def fileFunction (name : String) : Definition :=
  .plain name .function .zero []

/-- The documents whose files have this stem, or none. -/
def urisWithStem (i : Index) (stem : Option String) : List String :=
  i.uris.filter fun uri => Uri.stem? uri i.settings.extension == stem

/-- The documents in files called like a name. -/
def fileDefinitions (i : Index) (name : String) : List (InDocument Definition) :=
  (i.urisWithStem (some name)).map (⟨·, fileFunction name⟩)

/-- All that a name can mean in a document or outside of all documents, the nearest first. -/
def meanings (i : Index) (uri : Option String) (name : String) : List (InDocument Definition) :=
  uri.elim [] (i.localDefinitions · name) ++ i.sharedDefinitions uri name ++ i.fileDefinitions name

/-- All that a name in a document can mean, the nearest first. -/
def findDefinitions (i : Index) (uri name : String) :
    Except LookupError (List (InDocument Definition)) :=
  i.lookup (i.meanings (some uri) name)

/-- The uses of a name in a document. -/
def findReferences (i : Index) (uri name : String) : List Reference :=
  (i.snapshot? uri).elim [] (·.referencesNamed name)

/-- The function that a call reaches. A whole file is no function with known arguments. -/
def callee? (i : Index) (uri name : String) : Option Definition :=
  ((i.meanings (some uri) name).map (·.value)).find? fun d => d.isFunction && d.span != .zero

def findFunction (i : Index) (uri name : String) : Except LookupError (Option Definition) :=
  i.lookup (i.callee? uri name)

/-- The functions that documents share, but for those of one document. -/
def topLevelFunctions (i : Index) (exclude : Option String) : List (InDocument Definition) :=
  (i.snapshots.entries.filter (some ·.1 != exclude)).flatMap fun (uri, snapshot) =>
    snapshot.topLevelFunctions.map (⟨uri, ·⟩)

end Index

end MatrixScript
