import MatrixScript.Index.Analysis
import Mathlib.Data.List.Pairwise
import Mathlib.Tactic.Common

/-! Runs of an index: documents are edited, tasks run in any order, and the end of a task may be
noticed late. A session keeps, beside the index, what the index itself forgets. -/
namespace MatrixScript

namespace Index

@[simp] theorem publish_snapshots (i : Index) (uri : String) :
    (i.publish uri).snapshots = i.snapshots := by
  unfold publish; split <;> rfl

@[simp] theorem publish_versions (i : Index) (uri : String) :
    (i.publish uri).versions = i.versions := by
  unfold publish; split <;> rfl

@[simp] theorem publish_pending (i : Index) (uri : String) :
    (i.publish uri).pending = i.pending := by
  unfold publish; split <;> rfl

@[simp] theorem publish_tasks (i : Index) (uri : String) : (i.publish uri).tasks = i.tasks := by
  unfold publish; split <;> rfl

@[simp] theorem publish_nextTask (i : Index) (uri : String) :
    (i.publish uri).nextTask = i.nextTask := by
  unfold publish; split <;> rfl

@[simp] theorem cancel_snapshots (i : Index) (uri : String) :
    (i.cancel uri).snapshots = i.snapshots := by
  unfold cancel; split <;> rfl

@[simp] theorem cancel_versions (i : Index) (uri : String) :
    (i.cancel uri).versions = i.versions := by
  unfold cancel; split <;> rfl

@[simp] theorem cancel_nextTask (i : Index) (uri : String) :
    (i.cancel uri).nextTask = i.nextTask := by
  unfold cancel; split <;> rfl

theorem cancel_tasks_sublist (i : Index) (uri : String) :
    (i.cancel uri).tasks.Sublist i.tasks := by
  unfold cancel
  split
  · exact .refl _
  · exact List.filter_sublist

theorem cancel_pending_get? (i : Index) (uri other : String) :
    (i.cancel uri).pending.get? other = if other = uri then none else i.pending.get? other := by
  unfold cancel
  split
  · rename_i h
    split_ifs with he
    · rw [he, h]
    · rfl
  · exact Registry.get?_erase _ _ _

theorem mem_cancel_tasks (i : Index) (uri : String) (t : Task) :
    t ∈ (i.cancel uri).tasks ↔ t ∈ i.tasks ∧ i.pending.get? uri ≠ some t.id := by
  unfold cancel
  split
  · rename_i h
    simp [h]
  · rename_i id h
    rw [h]
    simp only [List.mem_filter, bne_iff_ne, ne_eq, Option.some.injEq]
    exact and_congr_right fun _ => not_congr eq_comm

end Index

/-- An edit of a document. `task?` is the task that its analysis was left to, if there is one. -/
structure Edit where
  text : String
  version : Nat
  task? : Option Nat
deriving DecidableEq, Repr

/-- What can happen to an index. -/
inductive Event where
  | register (uri text : String)
  | update (uri text : String)
  | change (uri text : String)
  | close (uri : String)
  | shutdown
  /-- A waiting task runs. -/
  | fire (task : Task)
  /-- The index is told that a task is done. -/
  | notice (task : Task)

namespace Event

def apply (i : Index) : Event → Index
  | .register uri text => i.register uri text
  | .update uri text => i.update uri text
  | .change uri text => i.change uri text
  | .close uri => i.close uri
  | .shutdown => i.shutdown
  | .fire task => i.fire task
  | .notice task => i.forget task.uri task.id

/-- The edit that an event makes to a document. Registering a known document edits nothing. -/
def edit? (i : Index) : Event → Option (String × Edit)
  | .register uri text =>
    if i.contains uri then none else some (uri, ⟨text, i.nextVersion uri, none⟩)
  | .update uri text => some (uri, ⟨text, i.nextVersion uri, none⟩)
  | .change uri text => some (uri, ⟨text, i.nextVersion uri, some i.nextTask⟩)
  | _ => none

/-- The document, text and version of the analysis that an event installs. -/
def install? (i : Index) : Event → Option (String × String × Nat)
  | .register uri text => if i.contains uri then none else some (uri, text, i.nextVersion uri)
  | .update uri text => some (uri, text, i.nextVersion uri)
  | .fire task =>
    if i.versions.get? task.uri = some task.version then
      some (task.uri, task.text, task.version)
    else none
  | _ => none

end Event

/-- An index with the latest edit of every document, the tasks that have run or been cancelled
without the index being told so, and the tasks that a shutdown cancelled. -/
structure Session where
  index : Index
  edits : Registry Edit
  ended : List Task
  withdrawn : List Task

namespace Session

def start (settings : Settings) (publishes : Bool) : Session :=
  ⟨.empty settings publishes, .empty, [], []⟩

/-- Only a waiting task runs, and the index is told once of the end of each task. -/
def Allows (s : Session) : Event → Prop
  | .fire task => task ∈ s.index.tasks
  | .notice task => task ∈ s.ended
  | _ => True

instance (s : Session) : (e : Event) → Decidable (s.Allows e)
  | .fire task => inferInstanceAs (Decidable (task ∈ s.index.tasks))
  | .notice task => inferInstanceAs (Decidable (task ∈ s.ended))
  | .register _ _ | .update _ _ | .change _ _ | .close _ | .shutdown => .isTrue trivial

/-- The tasks that an event ends. -/
def ends (s : Session) (e : Event) : List Task :=
  s.index.tasks.filter fun t => !(e.apply s.index).tasks.contains t

def step (s : Session) (e : Event) : Session where
  index := e.apply s.index
  edits := match e.edit? s.index with
    | some (uri, edit) => s.edits.put uri edit
    | none => s.edits
  ended := match e with
    | .notice task => s.ended.erase task
    | e => s.ended ++ s.ends e
  withdrawn := match e with
    | .shutdown => s.withdrawn ++ s.ends .shutdown
    | _ => s.withdrawn

/-- The sessions that come about by any sequence of events. -/
inductive Reachable : Session → Prop where
  | start (settings : Settings) (publishes : Bool) : Reachable (start settings publishes)
  | step {s : Session} {e : Event} : Reachable s → s.Allows e → Reachable (s.step e)

end Session

/-- Numbers of tasks are never given twice, and a task that waits is the one pending for its
document. -/
structure Index.Scheduled (i : Index) (ended : List Task) : Prop where
  task_lt : ∀ t ∈ i.tasks, t.id < i.nextTask
  ended_lt : ∀ t ∈ ended, t.id < i.nextTask
  pending_lt : ∀ uri id, i.pending.get? uri = some id → id < i.nextTask
  pending_inj : ∀ uri other id, i.pending.get? uri = some id →
    i.pending.get? other = some id → uri = other
  task_ne : i.tasks.Pairwise (·.id ≠ ·.id)
  ended_ne : ∀ t ∈ ended, ∀ u ∈ i.tasks, t.id ≠ u.id
  pending_task : ∀ t ∈ i.tasks, i.pending.get? t.uri = some t.id

namespace Index.Scheduled

variable {i j : Index} {ended : List Task}

theorem task_inj (h : i.Scheduled ended) (t : Task) (ht : t ∈ i.tasks) (u : Task)
    (hu : u ∈ i.tasks) (heq : t.id = u.id) : t = u := by
  have : Std.Symm fun t u : Task => t.id ≠ u.id := ⟨fun _ _ => Ne.symm⟩
  by_contra hne
  exact h.task_ne.forall ht hu hne heq

/-- Tasks may end and be forgotten, as long as those that still wait stay pending. -/
theorem shrink (h : i.Scheduled ended) (htasks : j.tasks.Sublist i.tasks)
    (hpending : ∀ uri id, j.pending.get? uri = some id → i.pending.get? uri = some id)
    (hwaits : ∀ t ∈ j.tasks, j.pending.get? t.uri = some t.id) (hnext : j.nextTask = i.nextTask) :
    j.Scheduled (ended ++ i.tasks.filter fun t => !j.tasks.contains t) where
  task_lt t ht := hnext ▸ h.task_lt t (htasks.subset ht)
  ended_lt t ht := by
    rw [hnext]
    rcases List.mem_append.mp ht with he | hf
    · exact h.ended_lt t he
    · exact h.task_lt t (List.mem_filter.mp hf).1
  pending_lt uri id hp := hnext ▸ h.pending_lt uri id (hpending uri id hp)
  pending_inj uri other id hp ho :=
    h.pending_inj uri other id (hpending uri id hp) (hpending other id ho)
  task_ne := h.task_ne.sublist htasks
  ended_ne t ht u hu := by
    rcases List.mem_append.mp ht with he | hf
    · exact h.ended_ne t he u (htasks.subset hu)
    · obtain ⟨hti, htj⟩ := List.mem_filter.mp hf
      intro heq
      have : t = u := h.task_inj t hti u (htasks.subset hu) heq
      subst this
      simp [hu] at htj
  pending_task := hwaits

theorem mem_cancel_iff (h : i.Scheduled ended) {uri : String} {t : Task} :
    t ∈ (i.cancel uri).tasks ↔ t ∈ i.tasks ∧ t.uri ≠ uri := by
  rw [mem_cancel_tasks]
  refine and_congr_right fun ht => not_congr ?_
  have hp := h.pending_task t ht
  constructor
  · exact fun heq => h.pending_inj _ _ _ hp heq
  · exact fun heq => heq ▸ hp

theorem cancel (h : i.Scheduled ended) (uri : String) (htasks : j.tasks = (i.cancel uri).tasks)
    (hpending : j.pending = (i.cancel uri).pending) (hnext : j.nextTask = i.nextTask) :
    j.Scheduled (ended ++ i.tasks.filter fun t => !j.tasks.contains t) := by
  refine h.shrink (htasks ▸ cancel_tasks_sublist i uri) ?_ ?_ hnext
  · intro other id hp
    rw [hpending, cancel_pending_get?] at hp
    split_ifs at hp
    exact hp
  · intro t ht
    obtain ⟨hti, hne⟩ := h.mem_cancel_iff.mp (htasks ▸ ht)
    rw [hpending, cancel_pending_get?, if_neg hne, h.pending_task t hti]

/-- A new task gets a number that no task has had. -/
theorem add (h : i.Scheduled ended) (t : Task) (hid : t.id = i.nextTask)
    (hfree : ∀ u ∈ i.tasks, u.uri ≠ t.uri) (htasks : j.tasks = i.tasks ++ [t])
    (hpending : ∀ uri, j.pending.get? uri = if uri = t.uri then some t.id else i.pending.get? uri)
    (hnext : j.nextTask = i.nextTask + 1) : j.Scheduled ended where
  task_lt u hu := by
    rw [htasks, List.mem_append, List.mem_singleton] at hu
    rcases hu with hu | rfl
    · have := h.task_lt u hu
      omega
    · omega
  ended_lt u hu := by
    have := h.ended_lt u hu
    omega
  pending_lt uri id hp := by
    rw [hpending] at hp
    split_ifs at hp
    · have : t.id = id := Option.some.inj hp
      omega
    · have := h.pending_lt uri id hp
      omega
  pending_inj uri other id hp ho := by
    rw [hpending] at hp ho
    split_ifs at hp ho with hu hv
    · rw [hu, hv]
    · have := h.pending_lt other id ho
      have : t.id = id := Option.some.inj hp
      omega
    · have := h.pending_lt uri id hp
      have : t.id = id := Option.some.inj ho
      omega
    · exact h.pending_inj uri other id hp ho
  task_ne := by
    rw [htasks, List.pairwise_append]
    refine ⟨h.task_ne, List.pairwise_singleton _ _, fun u hu w hw => ?_⟩
    have := h.task_lt u hu
    rw [List.mem_singleton.mp hw]
    omega
  ended_ne u hu w hw := by
    rw [htasks, List.mem_append, List.mem_singleton] at hw
    rcases hw with hw | rfl
    · exact h.ended_ne u hu w hw
    · have := h.ended_lt u hu
      omega
  pending_task u hu := by
    rw [htasks, List.mem_append, List.mem_singleton] at hu
    rw [hpending]
    rcases hu with hu | rfl
    · rw [if_neg (hfree u hu), h.pending_task u hu]
    · rw [if_pos rfl]

end Index.Scheduled

namespace Event

/-- All that an event does to the analyses is to install one, unless it closes a document. -/
theorem apply_snapshots (i : Index) (e : Event) (hclose : ∀ uri, e ≠ .close uri) :
    (e.apply i).snapshots = (e.install? i).elim i.snapshots fun (uri, text, version) =>
      i.snapshots.put uri (.analyze defaultTokenLimit uri text version) := by
  cases e with
  | register uri text =>
    simp only [apply, Index.register, install?]
    split_ifs <;> rfl
  | update uri text => simp [apply, Index.update, Index.install, Index.stamp, install?]
  | change uri text => simp [apply, Index.change, Index.stamp, install?]
  | close uri => exact absurd rfl (hclose uri)
  | shutdown => rfl
  | fire task =>
    simp only [apply, Index.fire, install?]
    split_ifs <;> simp [Index.install]
  | notice task =>
    simp only [apply, Index.forget, install?]
    split_ifs <;> rfl

end Event

namespace Index

theorem change_tasks (i : Index) (uri text : String) :
    (i.change uri text).tasks =
      (i.cancel uri).tasks ++ [⟨i.nextTask, uri, text, i.nextVersion uri, .unstarted⟩] := by
  have hc : ((i.stamp uri).cancel uri).tasks = (i.cancel uri).tasks := by
    unfold cancel stamp
    split <;> simp_all
  simp only [change, hc, cancel_nextTask]
  rfl

theorem change_pending_get? (i : Index) (uri text other : String) :
    (i.change uri text).pending.get? other =
      if other = uri then some i.nextTask else i.pending.get? other := by
  simp only [change, Registry.get?_put, cancel_pending_get?, cancel_nextTask, stamp]
  split_ifs <;> rfl

theorem update_versions_get? (i : Index) (uri text other : String) :
    (i.update uri text).versions.get? other =
      if other = uri then some (i.nextVersion uri) else i.versions.get? other := by
  simp [update, install, stamp, nextVersion, Registry.get?_put]

theorem update_snapshot? (i : Index) (uri text other : String) :
    (i.update uri text).snapshot? other =
      if other = uri then some (.analyze defaultTokenLimit uri text (i.nextVersion uri))
      else i.snapshot? other := by
  simp [update, install, stamp, snapshot?, Registry.get?_put]

theorem update_tasks (i : Index) (uri text : String) :
    (i.update uri text).tasks = (i.cancel uri).tasks := by
  simp [update, install, stamp]

theorem update_pending (i : Index) (uri text : String) :
    (i.update uri text).pending = (i.cancel uri).pending := by
  simp [update, install, stamp]

theorem update_nextTask (i : Index) (uri text : String) :
    (i.update uri text).nextTask = i.nextTask := by
  simp [update, install, stamp]

theorem fire_tasks (i : Index) (task : Task) :
    (i.fire task).tasks = i.tasks.filter (·.id != task.id) := by
  simp only [fire]
  split_ifs <;> simp [install]

@[simp] theorem fire_pending (i : Index) (task : Task) : (i.fire task).pending = i.pending := by
  simp only [fire]
  split_ifs <;> simp [install]

@[simp] theorem fire_nextTask (i : Index) (task : Task) : (i.fire task).nextTask = i.nextTask := by
  simp only [fire]
  split_ifs <;> simp [install]

theorem forget_pending_get? (i : Index) (uri : String) (id : Nat) (other : String) :
    (i.forget uri id).pending.get? other =
      if other = uri ∧ i.pending.get? uri = some id then none else i.pending.get? other := by
  unfold forget
  split_ifs with h h' h'
  · simp [Registry.get?_erase, h'.1]
  · rw [Registry.get?_erase, if_neg (fun he => h' ⟨he, h⟩)]
  · exact absurd h'.2 h
  · rfl

@[simp] theorem forget_tasks (i : Index) (uri : String) (id : Nat) :
    (i.forget uri id).tasks = i.tasks := by
  unfold forget; split_ifs <;> rfl

@[simp] theorem forget_nextTask (i : Index) (uri : String) (id : Nat) :
    (i.forget uri id).nextTask = i.nextTask := by
  unfold forget; split_ifs <;> rfl

/-- The news of the end of a task leaves those pending that still wait. -/
theorem Scheduled.forget_pending {i : Index} {ended : List Task} (h : i.Scheduled ended)
    {task t : Task} (hend : task ∈ ended) (ht : t ∈ i.tasks) :
    (i.forget task.uri task.id).pending.get? t.uri = some t.id := by
  have hp := h.pending_task t ht
  rw [forget_pending_get?, if_neg, hp]
  rintro ⟨heq, hid⟩
  rw [← heq, hp] at hid
  exact h.ended_ne task hend t ht (Option.some.inj hid).symm

/-- In a shutdown no task is left over, because all that wait are pending. -/
theorem Scheduled.shutdown_tasks {i : Index} {ended : List Task} (h : i.Scheduled ended) :
    i.shutdown.tasks = [] := by
  simp only [shutdown, List.filter_eq_nil_iff, Bool.not_eq_true', Bool.not_eq_false,
    List.any_eq_true, beq_iff_eq]
  intro t ht
  have hp := h.pending_task t ht
  obtain ⟨l, r, hl, -⟩ := List.lookup_eq_some_iff.mp hp
  exact ⟨(t.uri, t.id), by simp [hl], rfl⟩

end Index

namespace Session

variable {s : Session}

theorem scheduled_step (h : s.index.Scheduled s.ended) {e : Event} (ha : s.Allows e) :
    (s.step e).index.Scheduled (s.step e).ended := by
  cases e with
  | register uri text =>
    have hj : (s.index.register uri text).tasks = s.index.tasks ∧
        (s.index.register uri text).pending = s.index.pending ∧
        (s.index.register uri text).nextTask = s.index.nextTask := by
      unfold Index.register
      split_ifs <;> exact ⟨rfl, rfl, rfl⟩
    obtain ⟨ht, hp, hn⟩ := hj
    change (s.index.register uri text).Scheduled _
    refine h.shrink (ht ▸ .refl _) (fun u id hm => hp ▸ hm) ?_ hn
    rw [ht, hp]
    exact h.pending_task
  | update uri text =>
    exact h.cancel uri (Index.update_tasks _ _ _) (Index.update_pending _ _ _)
      (Index.update_nextTask _ _ _)
  | change uri text =>
    have hc := h.cancel uri rfl rfl (Index.cancel_nextTask _ _)
    have hends : s.ends (.change uri text) =
        s.index.tasks.filter fun t => !(s.index.cancel uri).tasks.contains t := by
      refine List.filter_congr fun t ht => ?_
      have hne : t ≠ ⟨s.index.nextTask, uri, text, s.index.nextVersion uri, .unstarted⟩ := by
        rintro rfl
        exact absurd (h.task_lt _ ht) (by simp)
      simp [Event.apply, Index.change_tasks, hne]
    change (s.index.change uri text).Scheduled (s.ended ++ s.ends (.change uri text))
    rw [hends]
    refine hc.add _ (Index.cancel_nextTask _ _).symm (fun u hu => (h.mem_cancel_iff.mp hu).2)
      (Index.change_tasks _ _ _) ?_ (by simp [Index.change, Index.stamp])
    intro other
    rw [Index.change_pending_get?, Index.cancel_pending_get?]
    split_ifs <;> rfl
  | close uri => exact h.cancel uri rfl rfl (Index.cancel_nextTask _ _)
  | shutdown =>
    refine h.shrink (j := s.index.shutdown) List.filter_sublist ?_ (by simp [h.shutdown_tasks]) rfl
    intro uri id hp
    cases hp
  | fire task =>
    have ht : (s.index.fire task).tasks.Sublist s.index.tasks := by
      rw [Index.fire_tasks]
      exact List.filter_sublist
    refine h.shrink (j := s.index.fire task) ht (by simp) ?_ (Index.fire_nextTask _ _)
    intro t hm
    rw [Index.fire_pending]
    exact h.pending_task t (ht.subset hm)
  | notice task =>
    have hf := Index.forget_pending_get? s.index task.uri task.id
    have hsub : ∀ uri id, (s.index.forget task.uri task.id).pending.get? uri = some id →
        s.index.pending.get? uri = some id := by
      intro uri id hp
      rw [hf] at hp
      split_ifs at hp
      exact hp
    have hj := h.shrink (j := s.index.forget task.uri task.id) (by simp) hsub
      (by simpa using fun t => h.forget_pending ha) (by simp)
    exact { hj with
      ended_lt := fun t ht => hj.ended_lt t (List.mem_append_left _ (List.mem_of_mem_erase ht))
      ended_ne := fun t ht => hj.ended_ne t (List.mem_append_left _ (List.mem_of_mem_erase ht)) }

end Session

end MatrixScript
