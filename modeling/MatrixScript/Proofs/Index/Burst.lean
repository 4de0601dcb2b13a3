import MatrixScript.Proofs.Index.Clock

/-! A burst of edits of one document is analysed once, with the text of the last edit, whatever
happens to other documents meanwhile. -/
namespace MatrixScript

/-- What can be done with an index. -/
inductive Action where
  | register (uri text : String)
  | update (uri text : String)
  | change (uri text : String)
  | close (uri : String)
  | publish (uri : String)
  | configure (settings : Settings)
  | shutdown
  | advance (duration : Nat)
  | flush (uri : String)

namespace Action

def apply (i : Index) : Action → Index
  | .register uri text => i.register uri text
  | .update uri text => i.update uri text
  | .change uri text => i.change uri text
  | .close uri => i.close uri
  | .publish uri => i.publish uri
  | .configure settings => { i with settings }
  | .shutdown => i.shutdown
  | .advance duration => i.advance duration
  | .flush uri => i.flush uri

/-- The indexes that come about in the course of an action. While time passes there is one for each
task that runs. -/
def moments (i : Index) (a : Action) : List Index :=
  let j := i.startWaiting
  match a with
  | .advance duration => i.elapsing (j.dueBy (j.now + duration)) ++ [a.apply i]
  | .flush uri => i.elapsing (j.upTo uri) ++ [a.apply i]
  | _ => [a.apply i]

/-- An action that is not about a document. The analysis of another one may be waited for, unless it
waits forever. -/
def IsBeside (uri : String) (i : Index) : Action → Prop
  | .register other _ | .update other _ | .change other _ | .close other | .publish other => other ≠ uri
  | .flush other => other ≠ uri ∧ ∀ t ∈ i.tasks, t.uri = other → t.wait ≠ .forever
  | .advance _ => True
  | .configure _ | .shutdown => False

theorem scheduled {i : Index} (h : i.Scheduled []) (a : Action) : (a.apply i).Scheduled [] := by
  have hevent (e : Event) (he : (⟨i, .empty, [], []⟩ : Session).Allows e) : (e.apply i).Scheduled [] :=
    (Session.scheduled_step (s := ⟨i, .empty, [], []⟩) h he).mono (List.nil_subset _)
  cases a with
  | register uri text => exact hevent (.register uri text) trivial
  | update uri text => exact hevent (.update uri text) trivial
  | change uri text => exact hevent (.change uri text) trivial
  | close uri => exact hevent (.close uri) trivial
  | shutdown => exact hevent .shutdown trivial
  | publish uri => exact h.publish uri
  | configure settings => exact h.congr rfl rfl rfl
  | advance duration => exact h.advance duration
  | flush uri => exact h.flush uri

end Action

namespace Index

def run (i : Index) (actions : List Action) : Index := actions.foldl Action.apply i

/-- All indexes that come about in the course of some actions. -/
def trace (i : Index) : List Action → List Index
  | [] => []
  | a :: rest => a.moments i ++ (a.apply i).trace rest

def Beside (uri : String) (i : Index) : List Action → Prop
  | [] => True
  | a :: rest => a.IsBeside uri i ∧ (a.apply i).Beside uri rest

/-- The indexes that come about by any sequence of actions. -/
inductive Operated : Index → Prop where
  | empty (settings : Settings) (publishes : Bool) : Operated (.empty settings publishes)
  | action {i : Index} (a : Action) : Operated i → Operated (a.apply i)

theorem Operated.scheduled {i : Index} (h : i.Operated) : i.Scheduled [] := by
  induction h with
  | empty settings publishes => exact ⟨nofun, nofun, nofun, nofun, .nil, nofun, nofun⟩
  | action a _ ih => exact a.scheduled ih

/-- Tasks are in order, and the settings have been the same since `start`. -/
structure Steady (start i : Index) : Prop where
  scheduled : i.Scheduled []
  settings : i.settings = start.settings
  publishes : i.publishes = start.publishes

/-- Since `start` no analysis of a document has been made. -/
structure Untouched (start : Index) (uri : String) (passed : List Index) (i : Index) : Prop extends
    Steady start i where
  snapshot : i.snapshot? uri = start.snapshot? uri
  notices : i.noticesOf uri = start.noticesOf uri
  passed : ∀ m ∈ passed, m.snapshot? uri = start.snapshot? uri

/-- The latest edit of a document is to be analysed at the time `due`. -/
structure Waiting (start : Index) (uri text : String) (v delay due : Nat) (passed : List Index)
    (i : Index) : Prop extends Untouched start uri passed i where
  version : i.versions.get? uri = some v
  task : ∃ t ∈ i.tasks, t.uri = uri ∧ t.text = text ∧ t.version = v ∧
    t.wait.start (some (i.now + delay)) = .till due

/-- The latest edit of a document has been analysed, and what could be found out about it has been
published. -/
structure Analysed (start : Index) (uri text : String) (v : Nat) (passed : List Index) (i : Index) :
    Prop extends Steady start i where
  version : i.versions.get? uri = some v
  pending : i.pending.get? uri = none
  tasks : ∀ t ∈ i.tasks, t.uri ≠ uri
  notices : ∃ m ∈ passed, m.publishes = start.publishes ∧
    m.snapshot? uri = some (.analyze defaultTokenLimit uri text v) ∧
    i.noticesOf uri = start.noticesOf uri ++ m.published uri
  snapshot : i.snapshot? uri = some (.analyze defaultTokenLimit uri text v)
  passed : ∀ m ∈ passed, m.snapshot? uri = start.snapshot? uri ∨
    m.snapshot? uri = some (.analyze defaultTokenLimit uri text v)

/-- The latest edit waits, or it has been analysed by `time` but not before it was due. -/
def Progress (start : Index) (uri text : String) (v delay due time : Nat) (passed : List Index)
    (i : Index) : Prop :=
  Waiting start uri text v delay due passed i ∨ due ≤ time ∧ Analysed start uri text v passed i

variable {start i j : Index} {uri text : String} {v delay due time : Nat} {passed : List Index}

/-- An index in which a document has the same tasks as in another one, perhaps at another time. -/
structure Resembles (uri : String) (delay due : Nat) (i j : Index) : Prop where
  scheduled : j.Scheduled []
  about : { j.about uri with now := i.now, tasks := (i.about uri).tasks } = i.about uri
  tasks : ∀ t ∈ j.tasks, t.uri = uri → ∃ u ∈ i.tasks, u.uri = uri
  waiting : ∀ t ∈ i.tasks, t.uri = uri → t.wait.start (some (i.now + delay)) = .till due →
    ∃ u ∈ j.tasks, u.uri = uri ∧ u.text = t.text ∧ u.version = t.version ∧
      u.wait.start (some (j.now + delay)) = .till due

theorem Steady.frame (h : Steady start i) (hj : i.Resembles uri delay due j) : Steady start j :=
  ⟨hj.scheduled, (congrArg Part.settings hj.about).trans h.settings,
    (congrArg Part.publishes hj.about).trans h.publishes⟩

theorem Waiting.frame (h : Waiting start uri text v delay due passed i) (hj : i.Resembles uri delay due j) :
    Waiting start uri text v delay due (passed ++ [j]) j where
  toSteady := h.toSteady.frame hj
  snapshot := (congrArg Part.snapshot? hj.about).trans h.snapshot
  notices := (congrArg Part.notices hj.about).trans h.notices
  passed := List.forall_mem_append.mpr
    ⟨h.passed, List.forall_mem_singleton.mpr ((congrArg Part.snapshot? hj.about).trans h.snapshot)⟩
  version := (congrArg Part.version? hj.about).trans h.version
  task := by
    obtain ⟨t, ht, huri, rfl, rfl, hwait⟩ := h.task
    exact hj.waiting t ht huri hwait

theorem Analysed.frame (h : Analysed start uri text v passed i) (hj : i.Resembles uri delay due j) :
    Analysed start uri text v (passed ++ [j]) j where
  toSteady := h.toSteady.frame hj
  version := (congrArg Part.version? hj.about).trans h.version
  pending := (congrArg Part.pending? hj.about).trans h.pending
  tasks t ht huri := by
    obtain ⟨u, hu, huri⟩ := hj.tasks t ht huri
    exact h.tasks u hu huri
  notices := by
    obtain ⟨m, hm, hpublishes, hsnapshot, hnotices⟩ := h.notices
    exact ⟨m, List.mem_append_left _ hm, hpublishes, hsnapshot,
      (congrArg Part.notices hj.about).trans hnotices⟩
  snapshot := (congrArg Part.snapshot? hj.about).trans h.snapshot
  passed := List.forall_mem_append.mpr
    ⟨h.passed, List.forall_mem_singleton.mpr (.inr ((congrArg Part.snapshot? hj.about).trans h.snapshot))⟩

/-- What does not concern the document changes nothing about its edit. -/
theorem Progress.frame (h : Progress start uri text v delay due time passed i)
    (hj : i.Resembles uri delay due j) :
    Progress start uri text v delay due time (passed ++ [j]) j :=
  h.imp (·.frame hj) (And.imp_right (·.frame hj))

theorem Resembles.of_about (hj : j.Scheduled []) (habout : j.about uri = i.about uri) :
    i.Resembles uri delay due j := by
  have hnow : j.now = i.now := congrArg Part.now habout
  refine ⟨hj, by rw [habout]; rfl, fun t ht huri => ⟨t, (mem_tasks_of_about habout huri).mp ht, huri⟩, ?_⟩
  intro t ht huri hwait
  exact ⟨t, (mem_tasks_of_about habout huri).mpr ht, huri, rfl, rfl, hnow ▸ hwait⟩

theorem Progress.steady (h : Progress start uri text v delay due time passed i) : Steady start i :=
  h.elim (·.toSteady) (·.2.toSteady)

/-- The task of the latest edit runs. -/
theorem Waiting.analysed (h : Waiting start uri text v delay due passed i) {t : Task} (ht : t ∈ i.tasks)
    (huri : t.uri = uri) (hdue : t.isDueBy time = true) :
    due ≤ time ∧ Analysed start uri text v (passed ++ [i.finish t]) (i.finish t) := by
  subst huri
  obtain ⟨t', ht', huri', rfl, rfl, hwait⟩ := h.task
  obtain rfl : t' = t := h.scheduled.eq_of_uri ht' ht huri'
  constructor
  · unfold Task.isDueBy at hdue
    split at hdue
    · rename_i s hs
      rw [hs] at hwait
      cases hwait
      exact of_decide_eq_true hdue
    · cases hdue
  have habout := h.scheduled.about_finish_self ht h.version
  have hsnapshot := congrArg Part.snapshot? habout
  have hpublishes := (congrArg Part.publishes habout).trans h.publishes
  exact {
    scheduled := h.scheduled.finish t'
    settings := (congrArg Part.settings habout).trans h.settings
    publishes := hpublishes
    version := (congrArg Part.version? habout).trans h.version
    pending := congrArg Part.pending? habout
    tasks := ne_of_mem_tasks_of_about (congrArg Part.tasks habout)
    notices := ⟨_, List.mem_append_right _ (List.mem_singleton_self _), hpublishes, hsnapshot,
      (congrArg Part.notices habout).trans (congrArg (· ++ _) h.notices)⟩
    snapshot := hsnapshot
    passed := List.forall_mem_append.mpr
      ⟨fun m hm => .inl (h.passed m hm), List.forall_mem_singleton.mpr (.inr hsnapshot)⟩ }

theorem Progress.finish (h : Progress start uri text v delay due time passed i) {t : Task}
    (ht : t ∈ i.tasks) (hdue : t.isDueBy time = true) :
    Progress start uri text v delay due time (passed ++ [i.finish t]) (i.finish t) := by
  by_cases huri : t.uri = uri
  · rcases h with h | ⟨-, h⟩
    · exact .inr (h.analysed ht huri hdue)
    · exact absurd huri (h.tasks t ht)
  · exact h.frame (.of_about (h.steady.scheduled.finish t) (h.steady.scheduled.about_finish ht huri))

/-- Tasks that are due run one after the other. -/
theorem Progress.foldl_finish {tasks : List Task} (h : Progress start uri text v delay due time passed i)
    (hmem : ∀ t ∈ tasks, t ∈ i.tasks ∧ t.isDueBy time = true) (hne : tasks.Pairwise (·.id ≠ ·.id)) :
    Progress start uri text v delay due time (passed ++ i.passing tasks) (tasks.foldl Index.finish i) := by
  induction tasks generalizing i passed with
  | nil => simpa [passing] using h
  | cons t rest ih =>
    obtain ⟨⟨ht, hdue⟩, hrest⟩ := List.forall_mem_cons.mp hmem
    obtain ⟨hhead, hne⟩ := List.pairwise_cons.mp hne
    have hnext := ih (h.finish ht hdue)
      (fun u hu => ⟨mem_finish_tasks.mpr ⟨(hrest u hu).1, (hhead u hu).symm⟩, (hrest u hu).2⟩) hne
    rwa [List.append_assoc] at hnext

/-! ## Time -/

theorem resembles_setNow (h : i.Scheduled []) (hstarted : ∀ t ∈ i.tasks, t.wait ≠ .unstarted) (now : Nat) :
    i.Resembles uri delay due { i with now } := by
  refine ⟨h.congr rfl rfl rfl, rfl, fun t ht huri => ⟨t, ht, huri⟩, ?_⟩
  intro t ht huri hwait
  refine ⟨t, ht, huri, rfl, rfl, ?_⟩
  cases hw : t.wait with
  | unstarted => exact absurd hw (hstarted t ht)
  | till s => rwa [hw] at hwait
  | forever => rwa [hw] at hwait

section

variable (hdelay : nanoseconds? start.settings.delay = some delay) (hpos : 0 < delay)

include hdelay hpos

theorem Steady.startWaiting_eq (h : Steady start i) :
    i.startWaiting = { i with tasks := i.tasks.map fun t =>
      { t with wait := t.wait.start (some (i.now + delay)) } } :=
  Index.startWaiting_eq (h.settings ▸ hdelay) (by simpa using Nat.ne_of_gt hpos)

theorem Steady.resembles_startWaiting (h : Steady start i) : i.Resembles uri delay due i.startWaiting := by
  rw [h.startWaiting_eq hdelay hpos]
  refine ⟨h.scheduled.mapWait _, rfl, List.forall_mem_map.mpr fun t ht huri => ⟨t, ht, huri⟩, ?_⟩
  intro t ht huri hwait
  exact ⟨_, List.mem_map_of_mem ht, huri, rfl, rfl, congrArg (Wait.start _) hwait⟩

theorem Steady.started (h : Steady start i) : ∀ t ∈ i.startWaiting.tasks, t.wait ≠ .unstarted := by
  rw [h.startWaiting_eq hdelay hpos]
  refine List.forall_mem_map.mpr fun t _ => ?_
  cases t.wait <;> nofun

/-- Time passes until `time`, and tasks that are due by then run. -/
theorem Progress.elapse {tasks : List Task} (h : Progress start uri text v delay due i.now passed i)
    (hnow : i.now ≤ time) (hmem : ∀ t ∈ tasks, t ∈ i.startWaiting.tasks ∧ t.isDueBy time = true)
    (hne : tasks.Pairwise (·.id ≠ ·.id)) :
    Progress start uri text v delay due time
      (passed ++ (i.elapsing tasks ++ [{ tasks.foldl Index.finish i.startWaiting with now := time }]))
      { tasks.foldl Index.finish i.startWaiting with now := time } := by
  have hlater : Progress start uri text v delay due time passed i :=
    h.imp_right (And.imp_left fun hdue => Nat.le_trans hdue hnow)
  have hrun := (hlater.frame (h.steady.resembles_startWaiting hdelay hpos)).foldl_finish hmem hne
  have hstarted : ∀ t ∈ (tasks.foldl Index.finish i.startWaiting).tasks, t.wait ≠ .unstarted :=
    fun t ht => h.steady.started hdelay hpos t (mem_foldl_finish_tasks.mp ht).1
  have hend := hrun.frame (resembles_setNow hrun.steady.scheduled hstarted time)
  have hatOnce : i.atOnce = [] := by simp [atOnce, h.steady.settings, hdelay, Nat.ne_of_gt hpos]
  simpa [elapsing, hatOnce, passing] using hend

/-- An action that is not about the document. -/
theorem Progress.action {a : Action} (h : Progress start uri text v delay due i.now passed i)
    (ha : a.IsBeside uri i) :
    Progress start uri text v delay due (a.apply i).now (passed ++ a.moments i) (a.apply i) := by
  have hs := h.steady.scheduled
  have hbeside (habout : (a.apply i).about uri = i.about uri) :
      Progress start uri text v delay due (a.apply i).now (passed ++ [a.apply i]) (a.apply i) := by
    have hnow : (a.apply i).now = i.now := congrArg Part.now habout
    exact hnow ▸ h.frame (.of_about (a.scheduled hs) habout)
  have hstart := h.steady.startWaiting_eq hdelay hpos
  cases a with
  | register other text => exact hbeside (about_register text ha)
  | update other text => exact hbeside (hs.about_update text ha)
  | change other text => exact hbeside (hs.about_change text ha)
  | close other => exact hbeside (hs.about_close ha)
  | publish other => exact hbeside (about_publish ha)
  | configure settings => exact ha.elim
  | shutdown => exact ha.elim
  | advance duration =>
    have hnow : i.now ≤ i.startWaiting.now + duration := by
      rw [hstart]
      exact Nat.le_add_right _ _
    exact h.elapse hdelay hpos hnow (fun t => mem_dueBy.mp) (hs.startWaiting.dueBy_ne _)
  | flush other =>
    obtain ⟨-, hends⟩ := ha
    have hnow : i.now ≤ i.startWaiting.stopTime other := by
      have hle := i.startWaiting.now_le_stopTime other
      rwa [congrArg now hstart] at hle
    have hwait : ∀ t ∈ i.startWaiting.tasks, t.uri = other → ∃ time, t.wait = .till time := by
      rw [hstart]
      refine List.forall_mem_map.mpr fun t ht huri => ?_
      have := hends t ht huri
      cases hw : t.wait <;> simp_all [Wait.start]
    have hflush := h.elapse hdelay hpos hnow (hs.startWaiting.isDueBy_stopTime hwait)
      (hs.startWaiting.upTo_ne other)
    have hend : (i.flush other).now = i.startWaiting.stopTime other := congrArg now (flush_eq i other)
    rwa [← flush_eq, ← hend] at hflush

theorem Progress.run {actions : List Action} (h : Progress start uri text v delay due i.now passed i)
    (ha : i.Beside uri actions) :
    Progress start uri text v delay due (i.run actions).now (passed ++ i.trace actions)
      (i.run actions) := by
  induction actions generalizing i passed with
  | nil => simpa [Index.run, trace] using h
  | cons a rest ih =>
    have hrest := ih (h.action hdelay hpos ha.1) ha.2
    rwa [List.append_assoc] at hrest

end

end Index

/-! ## Bursts -/

/-- An edit of a document, and what is done before the next one. -/
structure Turn where
  text : String
  meanwhile : List Action

def Turn.actions (uri : String) (turn : Turn) : List Action :=
  .change uri turn.text :: turn.meanwhile

def burst (uri : String) (turns : List Turn) : List Action := turns.flatMap (·.actions uri)

namespace Index

/-- Each edit comes less than `delay` after the one before, and nothing else is done about the
document. -/
def Brisk (uri : String) (delay : Nat) (i : Index) : List Turn → Prop
  | [] => True
  | turn :: rest =>
    (i.change uri turn.text).Beside uri turn.meanwhile ∧
      (i.run (turn.actions uri)).now < i.now + delay ∧ (i.run (turn.actions uri)).Brisk uri delay rest

variable {start i : Index} {uri text : String} {v delay due time : Nat} {passed : List Index}

theorem run_append (i : Index) (xs ys : List Action) : i.run (xs ++ ys) = (i.run xs).run ys :=
  List.foldl_append

theorem trace_append (i : Index) (xs ys : List Action) :
    i.trace (xs ++ ys) = i.trace xs ++ (i.run xs).trace ys := by
  induction xs generalizing i with
  | nil => rfl
  | cons a rest ih => rw [List.cons_append, trace, ih, trace, List.append_assoc]; rfl

theorem Untouched.change (h : Untouched start uri passed i) (text : String) (delay : Nat) :
    Waiting start uri text (i.nextVersion uri) delay (i.now + delay) (passed ++ [i.change uri text])
      (i.change uri text) := by
  have habout := h.scheduled.about_change_self uri text
  have hsnapshot := (congrArg Part.snapshot? habout).trans h.snapshot
  have hnow : (i.change uri text).now = i.now := congrArg Part.now habout
  exact {
    scheduled := (Action.change uri text).scheduled h.scheduled
    settings := (congrArg Part.settings habout).trans h.settings
    publishes := (congrArg Part.publishes habout).trans h.publishes
    snapshot := hsnapshot
    notices := (congrArg Part.notices habout).trans h.notices
    passed := List.forall_mem_append.mpr ⟨h.passed, List.forall_mem_singleton.mpr hsnapshot⟩
    version := congrArg Part.version? habout
    task := ⟨_, i.mem_change_tasks uri text, rfl, rfl, rfl, hnow ▸ rfl⟩ }

/-- An edit with what is done before the next one. -/
theorem Untouched.turn (h : Untouched start uri passed i)
    (hdelay : nanoseconds? start.settings.delay = some delay) (hpos : 0 < delay) {turn : Turn}
    (hbeside : (i.change uri turn.text).Beside uri turn.meanwhile) :
    Progress start uri turn.text (i.nextVersion uri) delay (i.now + delay) (i.run (turn.actions uri)).now
      (passed ++ i.trace (turn.actions uri)) (i.run (turn.actions uri)) := by
  have hrun := Progress.run hdelay hpos (.inl (h.change turn.text delay)) hbeside
  rwa [List.append_assoc] at hrun

theorem Untouched.turns {turns : List Turn} (h : Untouched start uri passed i)
    (hdelay : nanoseconds? start.settings.delay = some delay) (hpos : 0 < delay)
    (hbrisk : i.Brisk uri delay turns) :
    Untouched start uri (passed ++ i.trace (burst uri turns)) (i.run (burst uri turns)) ∧
      (i.run (burst uri turns)).nextVersion uri = i.nextVersion uri + turns.length := by
  induction turns generalizing i passed with
  | nil => simpa [burst, run, trace] using h
  | cons turn rest ih =>
    obtain ⟨hbeside, hsoon, hrest⟩ := hbrisk
    have hwaiting := (h.turn hdelay hpos hbeside).resolve_right fun hdone => by omega
    obtain ⟨huntouched, hversion⟩ := ih hwaiting.toUntouched hrest
    have hburst : burst uri (turn :: rest) = turn.actions uri ++ burst uri rest := rfl
    rw [hburst, run_append, trace_append, ← List.append_assoc]
    refine ⟨huntouched, ?_⟩
    rw [hversion, nextVersion, hwaiting.version, List.length_cons, Option.getD_some]
    omega

/-- When the time has come, the latest edit has been analysed. -/
theorem Progress.advance (h : Progress start uri text v delay due i.now passed i)
    (hdelay : nanoseconds? start.settings.delay = some delay) (hpos : 0 < delay) {duration : Nat}
    (hdue : due ≤ i.now + duration) :
    Analysed start uri text v (passed ++ (Action.advance duration).moments i) (i.advance duration) := by
  have hstart := h.steady.startWaiting_eq hdelay hpos
  rcases h.action (a := .advance duration) hdelay hpos trivial with hwaiting | ⟨-, hdone⟩
  · exfalso
    obtain ⟨t, ht, -, -, -, hwait⟩ := hwaiting.task
    obtain ⟨hmem, hid⟩ := mem_foldl_finish_tasks.mp ht
    refine hid t (mem_dueBy.mpr ⟨hmem, ?_⟩) rfl
    cases hw : t.wait with
    | unstarted => exact absurd hw (h.steady.started hdelay hpos t hmem)
    | till s =>
      rw [hw] at hwait
      cases hwait
      simpa [Task.isDueBy, hw, congrArg now hstart] using hdue
    | forever =>
      rw [hw] at hwait
      cases hwait
  · exact hdone

/-- After a burst of edits, each less than the delay after the one before, and a rest, only the last
edit has been analysed. Its problems have been published once, unless they could not be found out, and
they can if all documents have well-formed names. Every edit has been counted, and nothing waits. -/
theorem burst_published_once {i : Index} (hi : i.Operated) (hpublishes : i.publishes = true) {delay : Nat}
    (hdelay : nanoseconds? i.settings.delay = some delay) (hpos : 0 < delay) (uri : String)
    (earlier : List Turn) (last : Turn) (duration : Nat) (hbrisk : i.Brisk uri delay earlier)
    (hbeside : ((i.run (burst uri earlier)).change uri last.text).Beside uri last.meanwhile)
    (hrest : (i.run (burst uri earlier)).now + delay ≤
      (i.run (burst uri (earlier ++ [last]))).now + duration) :
    let actions := burst uri (earlier ++ [last]) ++ [.advance duration]
    let version := (i.versions.get? uri).getD 0 + (earlier ++ [last]).length
    let analysis := Snapshot.analyze defaultTokenLimit uri last.text version
    (i.run actions).versions.get? uri = some version ∧
    (i.run actions).snapshot? uri = some analysis ∧
    (i.run actions).hasPending uri = false ∧ (∀ t ∈ (i.run actions).tasks, t.uri ≠ uri) ∧
    (∀ m ∈ i.trace actions, m.snapshot? uri = i.snapshot? uri ∨ m.snapshot? uri = some analysis) ∧
    ∃ m ∈ i.trace actions, m.snapshot? uri = some analysis ∧
      (∀ ds, m.documentDiagnostics uri = .ok ds →
        (i.run actions).noticesOf uri = i.noticesOf uri ++ [⟨uri, ds⟩]) ∧
      (∀ e, m.documentDiagnostics uri = .error e → (i.run actions).noticesOf uri = i.noticesOf uri) ∧
      (m.WellNamed → ∃ ds, m.documentDiagnostics uri = .ok ds) := by
  intro actions version analysis
  have hstart : Untouched i uri [] i := ⟨⟨hi.scheduled, rfl, rfl⟩, rfl, rfl, nofun⟩
  obtain ⟨huntouched, hversion⟩ := hstart.turns hdelay hpos hbrisk
  have hburst : burst uri (earlier ++ [last]) = burst uri earlier ++ last.actions uri := by simp [burst]
  rw [hburst, run_append] at hrest
  have hdone := (huntouched.turn hdelay hpos hbeside).advance hdelay hpos hrest
  have hv : (i.run (burst uri earlier)).nextVersion uri = version := by
    rw [hversion, nextVersion]
    simp only [version, List.length_append, List.length_singleton]
    omega
  have hrun : i.run actions = ((i.run (burst uri earlier)).run (last.actions uri)).advance duration := by
    rw [run_append, hburst, run_append]
    rfl
  have htrace : i.trace actions = [] ++ i.trace (burst uri earlier) ++
      (i.run (burst uri earlier)).trace (last.actions uri) ++
        (Action.advance duration).moments ((i.run (burst uri earlier)).run (last.actions uri)) := by
    rw [trace_append, hburst, trace_append, run_append]
    simp [trace]
  rw [hv, ← hrun, ← htrace] at hdone
  obtain ⟨m, hm, hpub, hsnapshot, hnotices⟩ := hdone.notices
  refine ⟨hdone.version, hdone.snapshot, ?_, hdone.tasks, hdone.passed, m, hm, hsnapshot, ?_⟩
  · rw [hasPending, Registry.contains, hdone.pending]
    rfl
  have hcontains : m.contains uri = true := by
    rw [contains_eq, hsnapshot]
    rfl
  rw [published_eq, hpub, hpublishes, hcontains, Bool.and_self, if_pos rfl] at hnotices
  refine ⟨fun ds hds => ?_, fun e he => ?_, fun hwell => hwell.exists_documentDiagnostics uri⟩
  · rw [hds] at hnotices
    exact hnotices
  · rw [he] at hnotices
    exact hnotices.trans (List.append_nil _)

/-- An index that knows one document and waits for five nanoseconds. -/
def known : Index :=
  (Index.empty ⟨1000, none, 5e-9, ".m", false⟩ true).run [.register "b" "y = 1;"]

/-- The first edits of a document, while the other one gets the function that is called. -/
def typing : List Turn :=
  [⟨"f(", [.advance 3]⟩, ⟨"f(1", [.update "b" "function f(x)\nend", .advance 2]⟩]

theorem burst_published_once_typing :
    let actions := burst "a" (typing ++ [⟨"f(1, 2);", []⟩]) ++ [.advance 5]
    (known.run actions).versions.get? "a" = some 3 ∧
    ∃ m ∈ known.trace actions, ∃ ds, m.documentDiagnostics "a" = .ok ds ∧
      (known.run actions).noticesOf "a" = [⟨"a", ds⟩] ∧
      ds.map (·.code) = [.tooManyArguments] := by
  intro actions
  have hbrisk : known.Brisk "a" 5 typing :=
    ⟨⟨trivial, trivial⟩, by decide +kernel, ⟨show "b" ≠ "a" by decide, trivial, trivial⟩,
      by decide +kernel, trivial⟩
  have hoperated : known.Operated := .action (.register "b" "y = 1;") (.empty _ _)
  obtain ⟨hversion, -, -, -, -, m, hm, -, hpublished, -, hfound⟩ :=
    burst_published_once hoperated rfl (by decide +kernel) (by decide) "a" typing ⟨"f(1, 2);", []⟩ 5 hbrisk
      trivial (by decide +kernel)
  have hwell : (known.trace actions).all (·.uris.all Uri.isWellFormed) = true := by decide +kernel
  obtain ⟨ds, hds⟩ := hfound (List.all_eq_true.mp (List.all_eq_true.mp hwell m hm))
  have hnotices : (known.run actions).noticesOf "a" = [⟨"a", ds⟩] := hpublished ds hds
  have hcodes : ((known.run actions).noticesOf "a").map (·.diagnostics.map (·.code)) =
      [[.tooManyArguments]] := by decide +kernel
  refine ⟨hversion, m, hm, ds, hds, hnotices, ?_⟩
  rw [hnotices] at hcodes
  exact (List.cons.inj hcodes).1

/-- Beside a document with a malformed name, the latest text of another one is analysed and nothing is
published. -/
theorem burst_unpublished_malformedName :
    let start := (Index.empty .default true).run [.register "file://x[::1]/b.m" ""]
    let finish := start.run (burst "file:///a.m" [⟨"f(1);", []⟩] ++ [.advance 500000000])
    (finish.snapshot? "file:///a.m").map (·.text) = some "f(1);" ∧ finish.notices.isEmpty = true := by
  decide +kernel

end Index

end MatrixScript
