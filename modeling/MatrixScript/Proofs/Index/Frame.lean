import MatrixScript.Proofs.Index.Session

/-! What is done about one document leaves the others alone. A part of the index is all that concerns one
document, so that each step is an equation between parts. -/
namespace MatrixScript

/-- What an index holds about one document, with what goes for all of them. -/
@[ext] structure Part where
  settings : Settings
  publishes : Bool
  now : Nat
  snapshot? : Option Snapshot
  version? : Option Nat
  pending? : Option Nat
  tasks : List Task
  notices : List Notice

namespace Index

variable {i : Index} {ended : List Task} {uri other : String}

def noticesOf (i : Index) (uri : String) : List Notice := i.notices.filter (·.uri == uri)

def about (i : Index) (uri : String) : Part :=
  ⟨i.settings, i.publishes, i.now, i.snapshot? uri, i.versions.get? uri, i.pending.get? uri,
    i.tasks.filter (·.uri == uri), i.noticesOf uri⟩

theorem mem_tasks_of_about {j : Index} (h : j.about uri = i.about uri) {t : Task} (ht : t.uri = uri) :
    t ∈ j.tasks ↔ t ∈ i.tasks := by
  have hmem : t ∈ (j.about uri).tasks ↔ t ∈ (i.about uri).tasks := by rw [h]
  simpa [about, ht] using hmem

theorem ne_of_mem_tasks_of_about (h : (i.about uri).tasks = []) : ∀ t ∈ i.tasks, t.uri ≠ uri :=
  fun t ht huri => List.filter_eq_nil_iff.mp h t ht (beq_iff_eq.mpr huri)

theorem contains_eq (i : Index) (uri : String) : i.contains uri = (i.snapshot? uri).isSome := rfl

/-! ## What is published -/

/-- What is published about a document: nothing if its problems cannot be found out. -/
def published (i : Index) (uri : String) : List Notice :=
  match i.notice? uri with
  | .ok notice => notice.toList
  | .error _ => []

theorem publish_eq (i : Index) (uri : String) :
    i.publish uri = { i with notices := i.notices ++ i.published uri } := by
  unfold publish published
  cases i.notice? uri with
  | ok notice => rfl
  | error e => simp

theorem published_eq (i : Index) (uri : String) :
    i.published uri =
      if i.publishes && i.contains uri then
        (i.documentDiagnostics uri).toOption.toList.map (⟨uri, ·⟩)
      else [] := by
  unfold published notice?
  split_ifs
  · cases i.documentDiagnostics uri <;> rfl
  · rfl

/-- All documents have well-formed names. -/
def WellNamed (i : Index) : Prop := ∀ uri ∈ i.uris, Uri.isWellFormed uri = true

theorem wellNamed_iff : i.WellNamed ↔ ∀ uri, i.snapshot? uri ≠ none → Uri.isWellFormed uri = true := by
  simp only [WellNamed, uris, Registry.mem_names_iff, Registry.contains, Option.isSome_iff_ne_none, snapshot?]

theorem WellNamed.congr {j : Index} (h : i.WellNamed) (hsnapshots : j.snapshots = i.snapshots) : j.WellNamed := by
  rwa [WellNamed, uris, hsnapshots]

/-- The document `uri` may be new. -/
theorem WellNamed.on {j : Index} (h : i.WellNamed) (hname : j.snapshot? uri ≠ none → Uri.isWellFormed uri = true)
    (hothers : ∀ other, other ≠ uri → j.about other = i.about other) : j.WellNamed := by
  refine wellNamed_iff.mpr fun other hother => ?_
  by_cases huri : other = uri
  · exact huri ▸ hname (huri ▸ hother)
  · have hsnapshot : j.snapshot? other = i.snapshot? other := congrArg Part.snapshot? (hothers other huri)
    exact wellNamed_iff.mp h other (hsnapshot ▸ hother)

theorem WellNamed.exists_documentDiagnostics (h : i.WellNamed) (uri : String) :
    ∃ ds, i.documentDiagnostics uri = .ok ds := by
  unfold documentDiagnostics
  cases i.snapshot? uri with
  | none => exact ⟨_, rfl⟩
  | some s =>
    simp only [lookup, List.all_eq_true.mpr h, if_true]
    exact ⟨_, ite_self _⟩

theorem uri_eq_of_mem_published {n : Notice} (h : n ∈ i.published uri) : n.uri = uri := by
  rw [published_eq] at h
  split_ifs at h
  · obtain ⟨ds, -, rfl⟩ := List.mem_map.mp h
    rfl
  · cases h

theorem filter_published_self (i : Index) (uri : String) :
    (i.published uri).filter (·.uri == uri) = i.published uri :=
  List.filter_eq_self.mpr fun _ hn => beq_iff_eq.mpr (uri_eq_of_mem_published hn)

theorem filter_published_of_ne (h : other ≠ uri) :
    (i.published other).filter (·.uri == uri) = [] := by
  refine List.filter_eq_nil_iff.mpr fun n hn heq => h ?_
  rw [← uri_eq_of_mem_published hn, beq_iff_eq.mp heq]

theorem documentDiagnostics_congr {j : Index} (hsettings : j.settings = i.settings)
    (hsnapshots : j.snapshots = i.snapshots) (uri : String) :
    j.documentDiagnostics uri = i.documentDiagnostics uri := by
  obtain ⟨settings, _, snapshots, _, _, _, _, _, _⟩ := j
  subst hsettings hsnapshots
  rfl

theorem published_congr {j : Index} (hsettings : j.settings = i.settings)
    (hpublishes : j.publishes = i.publishes) (hsnapshots : j.snapshots = i.snapshots) (uri : String) :
    j.published uri = i.published uri := by
  rw [published_eq, published_eq, documentDiagnostics_congr hsettings hsnapshots, hpublishes, contains,
    contains, hsnapshots]

theorem publish_snapshot? (i : Index) (uri other : String) :
    (i.publish uri).snapshot? other = i.snapshot? other := by
  rw [snapshot?, publish_snapshots, snapshot?]

theorem noticesOf_publish (i : Index) (uri : String) :
    (i.publish uri).noticesOf uri = i.noticesOf uri ++ i.published uri := by
  rw [publish_eq, noticesOf, noticesOf, List.filter_append, filter_published_self]

/-! ## Other documents -/

theorem about_publish (h : other ≠ uri) : (i.publish other).about uri = i.about uri := by
  simp [publish_eq, about, snapshot?, noticesOf, filter_published_of_ne h]

theorem about_stamp (h : other ≠ uri) : (i.stamp other).about uri = i.about uri := by
  simp [stamp, about, snapshot?, noticesOf, Registry.get?_put, h.symm]

theorem about_install (text : String) (version : Nat) (h : other ≠ uri) :
    (i.install other text version).about uri = i.about uri := by
  simp [install, about, snapshot?, noticesOf, Registry.get?_put, h.symm]

namespace Scheduled

section

variable (h : i.Scheduled ended)
include h

/-- What is known to have ended may be left out. -/
theorem mono {fewer : List Task} (hsub : fewer ⊆ ended) : i.Scheduled fewer :=
  { h with
    ended_lt := fun t ht => h.ended_lt t (hsub ht)
    ended_ne := fun t ht => h.ended_ne t (hsub ht) }

/-- Only the tasks and their numbers matter. -/
theorem keep {j : Index} (htasks : j.tasks = i.tasks) (hpending : j.pending = i.pending)
    (hnext : j.nextTask = i.nextTask) :
    j.Scheduled (ended ++ i.tasks.filter fun t => !j.tasks.contains t) := by
  refine h.shrink (htasks ▸ .refl _) (fun _ _ hp => hpending ▸ hp) ?_ hnext
  rw [htasks, hpending]
  exact h.pending_task

theorem congr {j : Index} (htasks : j.tasks = i.tasks) (hpending : j.pending = i.pending)
    (hnext : j.nextTask = i.nextTask) : j.Scheduled ended :=
  (h.keep htasks hpending hnext).mono (List.subset_append_left _ _)

theorem publish (uri : String) : (i.publish uri).Scheduled ended :=
  h.congr (publish_tasks _ _) (publish_pending _ _) (publish_nextTask _ _)

/-- A document has at most one waiting task. -/
theorem eq_of_uri {t u : Task} (ht : t ∈ i.tasks) (hu : u ∈ i.tasks) (huri : t.uri = u.uri) : t = u := by
  have hpending := h.pending_task t ht
  rw [huri, h.pending_task u hu] at hpending
  exact h.task_inj t ht u hu (Option.some.inj hpending).symm

/-- Tasks of one document have other numbers than those of another one. -/
theorem filter_tasks {id : Nat} (hid : i.pending.get? other = some id) (hne : other ≠ uri) :
    (i.tasks.filter (·.id != id)).filter (·.uri == uri) = i.tasks.filter (·.uri == uri) := by
  rw [List.filter_filter]
  refine List.filter_congr fun t ht => ?_
  have hother : t.uri = uri → t.id ≠ id := by
    rintro rfl heq
    exact hne (h.pending_inj other t.uri id hid (heq ▸ h.pending_task t ht))
  grind

theorem about_cancel (hne : other ≠ uri) : (i.cancel other).about uri = i.about uri := by
  unfold Index.cancel
  split
  · rfl
  · rename_i id hid
    simp only [about, snapshot?, noticesOf, Registry.get?_erase, if_neg hne.symm, h.filter_tasks hid hne]

theorem about_update (text : String) (hne : other ≠ uri) :
    (i.update other text).about uri = i.about uri := by
  rw [update, about_publish hne, about_install _ _ hne, about_stamp hne, h.about_cancel hne]

theorem about_change (text : String) (hne : other ≠ uri) :
    (i.change other text).about uri = i.about uri := by
  have hstamp : (i.stamp other).Scheduled ended := h.congr rfl rfl rfl
  rw [← about_stamp (i := i) hne, ← hstamp.about_cancel hne]
  simp [change, about, snapshot?, noticesOf, Registry.get?_put, hne, hne.symm]

theorem about_close (hne : other ≠ uri) : (i.close other).about uri = i.about uri := by
  rw [← h.about_cancel hne]
  simp [close, about, snapshot?, noticesOf, Registry.get?_erase, hne.symm]

/-- A task that runs concerns no other document. -/
theorem about_fire {t : Task} (ht : t ∈ i.tasks) (hne : t.uri ≠ uri) :
    (i.fire t).about uri = i.about uri := by
  have hrest : { i with tasks := i.tasks.filter (·.id != t.id) }.about uri = i.about uri := by
    simp only [about, snapshot?, noticesOf, h.filter_tasks (h.pending_task t ht) hne]
  rw [fire]
  split_ifs
  · rw [about_publish hne, about_install _ _ hne, hrest]
  · exact hrest

end

end Scheduled

theorem change_eq (i : Index) (uri text : String) :
    i.change uri text = { i.stamp uri with
      pending := (i.change uri text).pending
      tasks := (i.change uri text).tasks
      nextTask := (i.change uri text).nextTask } := by
  unfold change cancel
  dsimp only
  split <;> rfl

theorem mem_change_tasks (i : Index) (uri text : String) :
    ⟨i.nextTask, uri, text, i.nextVersion uri, .unstarted⟩ ∈ (i.change uri text).tasks := by
  rw [change_tasks]
  exact List.mem_append_right _ (List.mem_singleton_self _)

theorem Scheduled.about_change_self (h : i.Scheduled ended) (uri text : String) :
    (i.change uri text).about uri = { i.about uri with
      version? := some (i.nextVersion uri)
      pending? := some i.nextTask
      tasks := [⟨i.nextTask, uri, text, i.nextVersion uri, .unstarted⟩] } := by
  have htasks : (i.cancel uri).tasks.filter (·.uri == uri) = [] :=
    List.filter_eq_nil_iff.mpr fun t ht heq => (h.mem_cancel_iff.mp ht).2 (beq_iff_eq.mp heq)
  have hpending := change_pending_get? i uri text uri
  rw [change_eq]
  simp [about, snapshot?, noticesOf, stamp, hpending, change_tasks, htasks, Registry.get?_put]

theorem about_register (text : String) (h : other ≠ uri) :
    (i.register other text).about uri = i.about uri := by
  unfold register
  split_ifs
  · rfl
  · rw [about_install _ _ h, about_stamp h]

theorem forget_eq (i : Index) (uri : String) (id : Nat) :
    i.forget uri id = { i with pending := (i.forget uri id).pending } := by
  unfold forget
  split_ifs <;> rfl

theorem about_forget (id : Nat) (h : other ≠ uri) : (i.forget other id).about uri = i.about uri := by
  unfold forget
  split_ifs
  · simp [about, snapshot?, noticesOf, Registry.get?_erase, h.symm]
  · rfl

/-! ## Tasks that run -/

theorem finish_tasks (i : Index) (t : Task) :
    (i.finish t).tasks = i.tasks.filter (·.id != t.id) := by
  rw [finish, forget_tasks, fire_tasks]

theorem mem_finish_tasks {t task : Task} :
    t ∈ (i.finish task).tasks ↔ t ∈ i.tasks ∧ t.id ≠ task.id := by
  rw [finish_tasks, List.mem_filter, bne_iff_ne]

theorem mem_foldl_finish_tasks {t : Task} {tasks : List Task} :
    t ∈ (tasks.foldl finish i).tasks ↔ t ∈ i.tasks ∧ ∀ task ∈ tasks, t.id ≠ task.id := by
  induction tasks generalizing i with
  | nil => simp
  | cons task rest ih => rw [List.foldl_cons, ih, mem_finish_tasks, List.forall_mem_cons, and_assoc]

namespace Scheduled

theorem about_finish (h : i.Scheduled ended) {t : Task} (ht : t ∈ i.tasks) (hne : t.uri ≠ uri) :
    (i.finish t).about uri = i.about uri := by
  rw [finish, about_forget _ hne, h.about_fire ht hne]

theorem finish (h : i.Scheduled ended) (task : Task) : (i.finish task).Scheduled ended := by
  have hpending := forget_pending_get? (i.fire task) task.uri task.id
  rw [fire_pending] at hpending
  refine (h.shrink (finish_tasks i task ▸ List.filter_sublist) ?_ ?_ ?_).mono
    (List.subset_append_left _ _)
  · intro uri id hp
    rw [Index.finish, hpending] at hp
    split_ifs at hp
    exact hp
  · intro t ht
    obtain ⟨hti, hne⟩ := mem_finish_tasks.mp ht
    have hp := h.pending_task t hti
    rw [Index.finish, hpending, if_neg, hp]
    rintro ⟨heq, hid⟩
    rw [← heq, hp] at hid
    exact hne (Option.some.inj hid)
  · rw [Index.finish, forget_nextTask, fire_nextTask]

theorem foldl_finish (h : i.Scheduled ended) (tasks : List Task) :
    (tasks.foldl Index.finish i).Scheduled ended := by
  induction tasks generalizing i with
  | nil => exact h
  | cons task rest ih => exact ih (h.finish task)

end Scheduled

theorem fire_eq_of_version {t : Task} (h : i.versions.get? t.uri = some t.version) :
    i.fire t = { i.install t.uri t.text t.version with
      tasks := i.tasks.filter (·.id != t.id)
      notices := i.notices ++ (i.fire t).published t.uri } := by
  have hfire : i.fire t = ({ i with tasks := i.tasks.filter (·.id != t.id) }.install t.uri t.text
      t.version).publish t.uri := if_pos h
  rw [publish_eq] at hfire
  have hpublished := published_congr (congrArg settings hfire) (congrArg publishes hfire)
    (congrArg snapshots hfire) t.uri
  rw [hpublished]
  exact hfire

namespace Scheduled

/-- A task that runs with the latest edit of its document leaves no other one waiting. -/
theorem about_fire_self (h : i.Scheduled ended) {t : Task} (ht : t ∈ i.tasks)
    (hversion : i.versions.get? t.uri = some t.version) :
    (i.fire t).about t.uri = { i.about t.uri with
      snapshot? := some (.analyze defaultTokenLimit t.uri t.text t.version)
      tasks := []
      notices := i.noticesOf t.uri ++ (i.fire t).published t.uri } := by
  have htasks : (i.fire t).tasks.filter (·.uri == t.uri) = [] := by
    rw [fire_tasks]
    refine List.filter_eq_nil_iff.mpr fun u hu heq => ?_
    obtain ⟨hu, hne⟩ := List.mem_filter.mp hu
    exact bne_iff_ne.mp hne (congrArg Task.id (h.eq_of_uri hu ht (beq_iff_eq.mp heq)))
  have hfire := fire_eq_of_version hversion
  ext1
  · exact (congrArg settings hfire).trans rfl
  · exact (congrArg publishes hfire).trans rfl
  · exact (congrArg now hfire).trans rfl
  · refine (congrArg (snapshot? · t.uri) hfire).trans ?_
    exact (Registry.get?_put _ _ _ _).trans (if_pos rfl)
  · exact congrArg (·.versions.get? t.uri) hfire
  · exact congrArg (·.pending.get? t.uri) hfire
  · exact htasks
  · refine (congrArg (·.noticesOf t.uri) hfire).trans ?_
    simp only [noticesOf, List.filter_append, filter_published_self]

theorem about_finish_self (h : i.Scheduled ended) {t : Task} (ht : t ∈ i.tasks)
    (hversion : i.versions.get? t.uri = some t.version) :
    (i.finish t).about t.uri = { i.about t.uri with
      snapshot? := some (.analyze defaultTokenLimit t.uri t.text t.version)
      pending? := none
      tasks := []
      notices := i.noticesOf t.uri ++ (i.finish t).published t.uri } := by
  have hpending : (i.fire t).pending.get? t.uri = some t.id := by
    rw [fire_pending, h.pending_task t ht]
  have hfinish : i.finish t = { i.fire t with pending := (i.fire t).pending.erase t.uri } := if_pos hpending
  have hpublished : (i.finish t).published t.uri = (i.fire t).published t.uri := by
    rw [hfinish]
    exact published_congr rfl rfl rfl _
  have habout : (i.finish t).about t.uri = { (i.fire t).about t.uri with pending? := none } := by
    rw [hfinish]
    exact Part.ext rfl rfl rfl rfl rfl ((Registry.get?_erase _ _ _).trans (if_pos rfl)) rfl rfl
  rw [habout, hpublished, h.about_fire_self ht hversion]

end Scheduled

end Index

end MatrixScript
