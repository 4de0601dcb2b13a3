import MatrixScript.Index.Lookup

/-! Problems of a document that only show next to the other documents. -/
namespace MatrixScript

/-- The functions whose name one before them has. -/
def repeatedNames (seen : List String) : List Definition → List Definition
  | [] => []
  | d :: rest =>
    if seen.contains d.name then d :: repeatedNames seen rest
    else repeatedNames (d.name :: seen) rest

/-- The first `n` elements, or all but the last ones if `n` is negative. -/
def takeAtMost (n : Int) (xs : List α) : List α :=
  if 0 ≤ n then xs.take n.toNat else xs.take (xs.length - n.natAbs)

namespace Index

def duplicates (s : Snapshot) : List Diagnostic :=
  (repeatedNames [] s.topLevelFunctions).map fun d => .duplicate d.name d.span

/-- The problem of a call with more arguments than its function has parameters. -/
def argumentProblem? (i : Index) (uri : String) (r : Reference) : Option Diagnostic := do
  guard (r.kind == .function)
  let given ← r.argumentCount
  let function ← i.callee? uri r.name
  guard (!function.isVariadic && function.arguments.length < given)
  return .tooManyArguments r.name r.span given function.requiredArguments function.optionalArguments

/-- Words of the language are known without a lookup. -/
def isBuiltIn (name : String) : Bool :=
  nativeFunctions.contains name || (Keyword.ofSpelling? name).isSome

def isKnown (i : Index) (uri name : String) : Bool :=
  isBuiltIn name || !(i.meanings (some uri) name).isEmpty

/-- The calls of functions that are nowhere defined. -/
def unresolved (i : Index) (s : Snapshot) : List Diagnostic :=
  (s.references.filter fun r => r.kind == .function && !i.isKnown s.uri r.name).map fun r =>
    .unresolved r.name r.span

/-- All problems of a document: those of its syntax, repeated functions, calls with too many
arguments and, if they are wanted, unknown functions. -/
def problems (i : Index) (s : Snapshot) : List Diagnostic :=
  s.diagnostics ++ duplicates s ++ s.references.filterMap (i.argumentProblem? s.uri) ++
    if i.settings.reportUnresolved then i.unresolved s else []

/-- Whether the problems of a document take a lookup. -/
def needsLookup (i : Index) (s : Snapshot) : Bool :=
  s.references.any fun r => r.kind == .function &&
    (r.argumentCount.isSome || i.settings.reportUnresolved && !isBuiltIn r.name)

/-- The problems to be shown, no more of them than the settings allow. -/
def documentDiagnostics (i : Index) (uri : String) : Except LookupError (List Diagnostic) :=
  match i.snapshot? uri with
  | none => .ok []
  | some s =>
    let shown := takeAtMost i.settings.maxProblems (i.problems s)
    if i.needsLookup s then i.lookup shown else .ok shown

end Index

end MatrixScript
