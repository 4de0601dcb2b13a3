import MatrixScript.Document
import MatrixScript.Registry
import MatrixScript.Settings

/-! The index of all known documents, with the analyses that wait to be run. -/
namespace MatrixScript

/-- How long an analysis waits. Time is counted in nanoseconds. -/
inductive Wait where
  /-- The clock has not been looked at since the edit. -/
  | unstarted
  | till (time : Nat)
  | forever
deriving DecidableEq, Repr

/-- An edit whose analysis waits for the text to rest. -/
structure Task where
  id : Nat
  uri : String
  text : String
  version : Nat
  wait : Wait
deriving DecidableEq, Repr

/-- The problems of a document, as they are published. -/
structure Notice where
  uri : String
  diagnostics : List Diagnostic

structure Index where
  settings : Settings
  /-- Whether problems are published at all. -/
  publishes : Bool
  /-- The latest analysis of each document, in the order in which the documents were registered. -/
  snapshots : Registry Snapshot
  /-- How many edits each document has seen. -/
  versions : Registry Nat
  /-- The task that each document's latest edit waits in. -/
  pending : Registry Nat
  /-- The tasks that have neither run nor been cancelled, in the order of their edits. -/
  tasks : List Task
  nextTask : Nat
  now : Nat
  /-- All that has been published, oldest first. -/
  notices : List Notice

namespace Index

def empty (settings : Settings) (publishes : Bool) : Index :=
  ⟨settings, publishes, .empty, .empty, .empty, [], 0, 0, []⟩

def uris (i : Index) : List String := i.snapshots.names

def snapshot? (i : Index) (uri : String) : Option Snapshot := i.snapshots.get? uri

def contains (i : Index) (uri : String) : Bool := i.snapshots.contains uri

def size (i : Index) : Nat := i.snapshots.size

def hasPending (i : Index) (uri : String) : Bool := i.pending.contains uri

end Index

end MatrixScript
