import MatrixScript.Index.Analysis

/-! The passing of time: waiting analyses run when they are due, in the order of their due times and
of their edits. -/
namespace MatrixScript

/-- A delay in seconds as whole nanoseconds. A negative one is over at once, an infinite one or one
that is no number never. -/
def nanoseconds? (delay : Float) : Option Nat :=
  match Number.decode? delay with
  | some (m, e) => some (Number.roundDiv (Number.shift m.toNat e * 1000000000) (Number.shift 1 (-e)))
  | none => if delay.toBits = (Number.infinity true).toBits then some 0 else none

def Wait.start (until? : Option Nat) : Wait → Wait
  | .unstarted => until?.elim .forever .till
  | wait => wait

/-- The time when a wait is over that is on at `now`. -/
def Wait.stop (now : Nat) : Wait → Nat
  | .till due => max now due
  | _ => now

def Task.isDueBy (time : Nat) (task : Task) : Bool :=
  match task.wait with
  | .till due => due ≤ time
  | _ => false

/-- Whether a task is due no later than another one. -/
def Task.precedes (a b : Task) : Bool :=
  match a.wait, b.wait with
  | .till s, .till t => s ≤ t
  | _, .till _ => false
  | _, _ => true

namespace Index

/-- The tasks of edits since the last look at the clock begin to wait, by the delay that is set now.
Without a delay they run before all others. -/
def startWaiting (i : Index) : Index :=
  match nanoseconds? i.settings.delay with
  | some 0 => (i.tasks.filter (·.wait == .unstarted)).foldl finish i
  | delay =>
    { i with tasks := i.tasks.map fun task =>
        { task with wait := task.wait.start (delay.map (i.now + ·)) } }

/-- The waiting tasks, in the order in which they run. -/
def queue (i : Index) : List Task := i.tasks.mergeSort Task.precedes

def dueBy (i : Index) (time : Nat) : List Task := i.queue.filter (·.isDueBy time)

/-- Lets time pass. -/
def advance (i : Index) (duration : Nat) : Index :=
  let j := i.startWaiting
  { (j.dueBy (j.now + duration)).foldl finish j with now := j.now + duration }

def pendingTask? (i : Index) (uri : String) : Option Task :=
  (i.pending.get? uri).bind fun id => i.tasks.find? (·.id == id)

/-- Lets time pass until the waiting analysis of a document has run, and those before it. -/
def flush (i : Index) (uri : String) : Index :=
  let j := i.startWaiting
  match j.pendingTask? uri with
  | none => j
  | some task =>
    let earlier := j.queue.takeWhile (·.id != task.id)
    { (earlier ++ [task]).foldl finish j with now := task.wait.stop j.now }

/-- Why the analysis that `flush` waits for was not published. -/
def flushError? (i : Index) (uri : String) : Option LookupError :=
  let j := i.flush uri
  if i.hasPending uri && !j.hasPending uri then j.publishError? uri else none

end Index

end MatrixScript
