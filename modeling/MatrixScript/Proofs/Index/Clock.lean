import MatrixScript.Index.Clock
import MatrixScript.Proofs.Index.Frame

/-! While time passes, the tasks that are due run, each of them once and none before its time. -/
namespace MatrixScript

namespace Index

variable {i : Index} {ended : List Task} {uri : String}

/-- The tasks that run as soon as the clock is looked at. -/
def atOnce (i : Index) : List Task :=
  if nanoseconds? i.settings.delay = some 0 then i.tasks.filter (·.wait == .unstarted) else []

/-- The indexes that come about while tasks run one after the other. -/
def passing (i : Index) : List Task → List Index
  | [] => []
  | task :: rest => i.finish task :: (i.finish task).passing rest

/-- The indexes that come about while time passes and tasks run. -/
def elapsing (i : Index) (tasks : List Task) : List Index :=
  i.passing i.atOnce ++ i.startWaiting :: i.startWaiting.passing tasks

theorem startWaiting_eq {delay : Option Nat} (h : nanoseconds? i.settings.delay = delay)
    (hne : delay ≠ some 0) :
    i.startWaiting = { i with tasks := i.tasks.map fun task =>
      { task with wait := task.wait.start (delay.map (i.now + ·)) } } := by
  unfold startWaiting
  split
  · rename_i hzero
    exact absurd (h ▸ hzero) hne
  · rw [h]

namespace Scheduled

theorem mapWait (h : i.Scheduled ended) (f : Wait → Wait) :
    Scheduled { i with tasks := i.tasks.map fun t => { t with wait := f t.wait } } ended where
  task_lt := List.forall_mem_map.mpr h.task_lt
  ended_lt := h.ended_lt
  pending_lt := h.pending_lt
  pending_inj := h.pending_inj
  task_ne := List.pairwise_map.mpr h.task_ne
  ended_ne t ht := List.forall_mem_map.mpr (h.ended_ne t ht)
  pending_task := List.forall_mem_map.mpr h.pending_task

theorem startWaiting (h : i.Scheduled ended) : i.startWaiting.Scheduled ended := by
  by_cases hzero : nanoseconds? i.settings.delay = some 0
  · rw [Index.startWaiting, hzero]
    exact h.foldl_finish _
  · rw [startWaiting_eq rfl hzero]
    exact h.mapWait _

theorem advance (h : i.Scheduled ended) (duration : Nat) : (i.advance duration).Scheduled ended :=
  (h.startWaiting.foldl_finish _).congr rfl rfl rfl

end Scheduled

/-- The tasks that run while the waiting analysis of a document is waited for. -/
def upTo (i : Index) (uri : String) : List Task :=
  (i.pendingTask? uri).elim [] fun task => i.queue.takeWhile (·.id != task.id) ++ [task]

/-- The time when the waiting analysis of a document has run. -/
def stopTime (i : Index) (uri : String) : Nat :=
  (i.pendingTask? uri).elim i.now (·.wait.stop i.now)

theorem now_le_stopTime (i : Index) (uri : String) : i.now ≤ i.stopTime uri := by
  unfold stopTime
  cases i.pendingTask? uri with
  | none => exact Nat.le_refl _
  | some task =>
    rw [Option.elim_some]
    cases task.wait with
    | till due => exact Nat.le_max_left _ _
    | unstarted | forever => exact Nat.le_refl _

theorem flush_eq (i : Index) (uri : String) :
    i.flush uri = { (i.startWaiting.upTo uri).foldl finish i.startWaiting with
      now := i.startWaiting.stopTime uri } := by
  simp only [flush, upTo, stopTime]
  cases i.startWaiting.pendingTask? uri <;> rfl

theorem Scheduled.flush (h : i.Scheduled ended) (uri : String) : (i.flush uri).Scheduled ended := by
  rw [flush_eq]
  exact (h.startWaiting.foldl_finish _).congr rfl rfl rfl

theorem mem_queue {t : Task} : t ∈ i.queue ↔ t ∈ i.tasks :=
  (List.mergeSort_perm _ _).mem_iff

theorem mem_dueBy {t : Task} {time : Nat} : t ∈ i.dueBy time ↔ t ∈ i.tasks ∧ t.isDueBy time = true := by
  rw [dueBy, List.mem_filter, mem_queue]

theorem queue_pairwise (i : Index) : i.queue.Pairwise (·.precedes ·) := by
  refine List.pairwise_mergeSort ?_ ?_ _
  · intro a b c hab hbc
    unfold Task.precedes at *
    grind
  · intro a b
    unfold Task.precedes
    grind

theorem id_ne_of_mem_takeWhile {tasks : List Task} {id : Nat} {t : Task}
    (h : t ∈ tasks.takeWhile (·.id != id)) : t.id ≠ id :=
  bne_iff_ne.mp (List.all_eq_true.mp (List.all_takeWhile (p := (·.id != id))) t h)

/-- What runs before a task is due no later. -/
theorem precedes_of_mem_takeWhile {t task : Task} (h : t ∈ i.queue.takeWhile (·.id != task.id))
    (htask : task ∈ i.tasks) : t.precedes task = true := by
  have hsplit := List.takeWhile_append_dropWhile (p := (·.id != task.id)) (l := i.queue)
  have hsorted := hsplit ▸ i.queue_pairwise
  refine (List.pairwise_append.mp hsorted).2.2 t h task ?_
  have hqueue : task ∈ _ ++ _ := hsplit ▸ mem_queue.mpr htask
  exact (List.mem_append.mp hqueue).resolve_left fun hmem => id_ne_of_mem_takeWhile hmem rfl

namespace Scheduled

theorem queue_ne (h : i.Scheduled ended) : i.queue.Pairwise (·.id ≠ ·.id) :=
  h.task_ne.perm (List.mergeSort_perm _ _).symm fun hne => hne.symm

theorem dueBy_ne (h : i.Scheduled ended) (time : Nat) : (i.dueBy time).Pairwise (·.id ≠ ·.id) :=
  h.queue_ne.sublist List.filter_sublist

theorem mem_of_pendingTask? (h : i.Scheduled ended) {task : Task} (ht : i.pendingTask? uri = some task) :
    task ∈ i.tasks ∧ task.uri = uri := by
  obtain ⟨id, hid, hfind⟩ := Option.bind_eq_some_iff.mp ht
  have hmem := List.mem_of_find?_eq_some hfind
  have heq : task.id = id := by simpa using List.find?_some hfind
  exact ⟨hmem, h.pending_inj _ _ _ (h.pending_task task hmem) (heq ▸ hid)⟩

theorem upTo_ne (h : i.Scheduled ended) (uri : String) : (i.upTo uri).Pairwise (·.id ≠ ·.id) := by
  unfold upTo
  cases i.pendingTask? uri with
  | none => exact .nil
  | some task =>
    refine List.pairwise_append.mpr
      ⟨h.queue_ne.sublist (List.takeWhile_sublist _), List.pairwise_singleton _ _, ?_⟩
    intro t ht u hu
    rw [List.mem_singleton.mp hu]
    exact id_ne_of_mem_takeWhile ht

/-- The tasks that run before one that is waited for are due no later. -/
theorem isDueBy_stopTime (h : i.Scheduled ended)
    (hwait : ∀ t ∈ i.tasks, t.uri = uri → ∃ time, t.wait = .till time) :
    ∀ t ∈ i.upTo uri, t ∈ i.tasks ∧ t.isDueBy (i.stopTime uri) = true := by
  intro t ht
  unfold upTo stopTime at *
  cases hpending : i.pendingTask? uri with
  | none =>
    rw [hpending] at ht
    cases ht
  | some task =>
    obtain ⟨htask, huri⟩ := h.mem_of_pendingTask? hpending
    obtain ⟨time, htime⟩ := hwait task htask huri
    rw [hpending, Option.elim_some, List.mem_append, List.mem_singleton] at ht
    rcases ht with ht | rfl
    · refine ⟨mem_queue.mp ((List.takeWhile_sublist _).subset ht), ?_⟩
      have hprecedes := precedes_of_mem_takeWhile ht htask
      unfold Task.precedes at hprecedes
      grind [Task.isDueBy, Wait.stop]
    · rw [Task.isDueBy, Option.elim_some, htime]
      exact ⟨htask, decide_eq_true (Nat.le_max_right _ _)⟩

end Scheduled

end Index

end MatrixScript
