import MatrixScript.Index.Problems

/-! How documents enter the index and how their analyses are kept up to date.

Each edit of a document gets the next version number. An edit is analysed at once or by a task that
waits; a later edit cancels the task of an earlier one, and an analysis that is no longer of the
latest version is dropped. -/
namespace MatrixScript.Index

/-- What is to be published about a document: nothing unless it has been analysed. -/
def notice? (i : Index) (uri : String) : Except LookupError (Option Notice) := do
  if i.publishes && i.contains uri then return some ⟨uri, ← i.documentDiagnostics uri⟩
  else return none

/-- Publishes the problems of a document, unless they cannot be found out. -/
def publish (i : Index) (uri : String) : Index :=
  match i.notice? uri with
  | .ok notice => { i with notices := i.notices ++ notice.toList }
  | .error _ => i

/-- Why the problems of a document cannot be published. -/
def publishError? (i : Index) (uri : String) : Option LookupError :=
  match i.notice? uri with
  | .ok _ => none
  | .error e => some e

/-- The number of the next edit. -/
def nextVersion (i : Index) (uri : String) : Nat :=
  (i.versions.get? uri).getD 0 + 1

/-- Counts an edit. -/
def stamp (i : Index) (uri : String) : Index :=
  { i with versions := i.versions.put uri (i.nextVersion uri) }

/-- Analyses a text and keeps the outcome. -/
def install (i : Index) (uri text : String) (version : Nat) : Index :=
  { i with snapshots := i.snapshots.put uri (.analyze defaultTokenLimit uri text version) }

/-- Withdraws the waiting analysis of a document. -/
def cancel (i : Index) (uri : String) : Index :=
  match i.pending.get? uri with
  | none => i
  | some id =>
    { i with pending := i.pending.erase uri, tasks := i.tasks.filter (·.id != id) }

/-- Takes in a document that is not known yet. -/
def register (i : Index) (uri text : String) : Index :=
  if i.contains uri then i else (i.stamp uri).install uri text (i.nextVersion uri)

/-- Analyses a new text at once. -/
def update (i : Index) (uri text : String) : Index :=
  (((i.cancel uri).stamp uri).install uri text (i.nextVersion uri)).publish uri

/-- Has a new text analysed later, in place of a text that still waits. -/
def change (i : Index) (uri text : String) : Index :=
  let j := (i.stamp uri).cancel uri
  { j with
    pending := j.pending.put uri j.nextTask
    tasks := j.tasks ++ [⟨j.nextTask, uri, text, i.nextVersion uri, .unstarted⟩]
    nextTask := j.nextTask + 1 }

/-- Runs a waiting task. Its analysis is dropped if there has been another edit. -/
def fire (i : Index) (task : Task) : Index :=
  let j := { i with tasks := i.tasks.filter (·.id != task.id) }
  if j.versions.get? task.uri = some task.version then
    (j.install task.uri task.text task.version).publish task.uri
  else j

/-- A task that is done is no longer pending, unless another one has taken its place. -/
def forget (i : Index) (uri : String) (id : Nat) : Index :=
  if i.pending.get? uri = some id then { i with pending := i.pending.erase uri } else i

def finish (i : Index) (task : Task) : Index :=
  (i.fire task).forget task.uri task.id

/-- Drops a document and its waiting analysis. -/
def close (i : Index) (uri : String) : Index :=
  let j := i.cancel uri
  { j with snapshots := j.snapshots.erase uri, versions := j.versions.erase uri }

/-- Withdraws all waiting analyses. -/
def shutdown (i : Index) : Index :=
  { i with
    pending := .empty
    tasks := i.tasks.filter fun task => !i.pending.entries.any (·.2 == task.id) }

end MatrixScript.Index
