import MatrixScript.Proofs.Index.Session

/-! The latest edit of a document is never lost, and an analysis of an older one never takes its
place. -/
namespace MatrixScript

variable {uri text : String} {e : Event}

namespace Index

/-- An edit has been analysed, or waits to be, or was given up in a shutdown. -/
def Holds (i : Index) (withdrawn : List Task) (uri : String) (e : Edit) : Prop :=
  (∃ snapshot, i.snapshot? uri = some snapshot ∧
    snapshot.version = e.version ∧ snapshot.text = e.text) ∨
  (∃ t ∈ i.tasks, i.pending.get? uri = some t.id ∧ e.task? = some t.id ∧
    t.uri = uri ∧ t.text = e.text ∧ t.version = e.version) ∨
  (∃ t ∈ withdrawn, e.task? = some t.id ∧ t.uri = uri ∧ t.text = e.text ∧ t.version = e.version)

/-- An edit stays held by whatever leaves its document alone. -/
theorem Holds.frame {i j : Index} {withdrawn : List Task} {e : Edit} (h : i.Holds withdrawn uri e)
    (hsnapshot : j.snapshot? uri = i.snapshot? uri)
    (htasks : ∀ t ∈ i.tasks, t.uri = uri → t ∈ j.tasks ∧ j.pending.get? uri = i.pending.get? uri) :
    j.Holds withdrawn uri e := by
  rcases h with ⟨snapshot, hs, hrest⟩ | ⟨t, ht, hp, he, hu, hrest⟩ | hw
  · exact .inl ⟨snapshot, hsnapshot.trans hs, hrest⟩
  · obtain ⟨htj, hpj⟩ := htasks t ht hu
    exact .inr (.inl ⟨t, htj, hpj.trans hp, he, hu, hrest⟩)
  · exact .inr (.inr hw)

/-- No analysis is of a later edit than the last one, and the last one is held. -/
structure Current (i : Index) (edits : Registry Edit) (withdrawn : List Task) : Prop where
  task_version : ∀ t ∈ i.tasks, ∃ v, i.versions.get? t.uri = some v ∧ t.version ≤ v
  snapshot_version : ∀ uri snapshot, i.snapshot? uri = some snapshot →
    ∃ v : Nat, i.versions.get? uri = some v ∧ snapshot.version ≤ v
  snapshot_lt : ∀ t ∈ i.tasks, i.versions.get? t.uri = some t.version →
    ∀ snapshot, i.snapshot? t.uri = some snapshot → snapshot.version < t.version
  holds : ∀ uri v, i.versions.get? uri = some v →
    ∃ e, edits.get? uri = some e ∧ e.version = v ∧ i.Holds withdrawn uri e

theorem lt_nextVersion {i : Index} {v : Nat} (h : i.versions.get? uri = some v) :
    v < i.nextVersion uri := by
  simp [nextVersion, h]

namespace Current

variable {i j : Index} {ended withdrawn : List Task} {edits : Registry Edit}

/-- An edit of one document: all others are left alone, and the edit itself is held. -/
theorem edit (h : i.Current edits withdrawn) (e : Edit) (he : e.version = i.nextVersion uri)
    (hversions : ∀ other, j.versions.get? other =
      if other = uri then some e.version else i.versions.get? other)
    (hsnapshots : ∀ other, j.snapshot? other = i.snapshot? other ∨
      (other = uri ∧ ∃ snapshot, j.snapshot? other = some snapshot ∧ snapshot.version = e.version))
    (htasks : ∀ t, t.uri ≠ uri → (t ∈ j.tasks ↔ t ∈ i.tasks))
    (hpending : ∀ other, other ≠ uri → j.pending.get? other = i.pending.get? other)
    (hnew : ∀ t ∈ j.tasks, t.uri = uri → t ∈ i.tasks ∨
      (t.version = e.version ∧ j.snapshot? uri = i.snapshot? uri))
    (hheld : j.Holds withdrawn uri e) : j.Current (edits.put uri e) withdrawn where
  task_version t ht := by
    rw [hversions]
    split_ifs with hu
    · refine ⟨_, rfl, ?_⟩
      rcases hnew t ht hu with hi | ⟨hv, -⟩
      · obtain ⟨v, hv, hle⟩ := h.task_version t hi
        have := lt_nextVersion (hu ▸ hv)
        omega
      · omega
    · exact h.task_version t ((htasks t hu).mp ht)
  snapshot_version other snapshot hs := by
    rw [hversions]
    rcases hsnapshots other with heq | ⟨rfl, snapshot', hs', hv'⟩
    · rw [heq] at hs
      obtain ⟨v, hv, hle⟩ := h.snapshot_version other snapshot hs
      split_ifs with ho
      · have := lt_nextVersion (ho ▸ hv)
        exact ⟨_, rfl, by omega⟩
      · exact ⟨v, hv, hle⟩
    · have : snapshot' = snapshot := Option.some.inj (hs'.symm.trans hs)
      subst this
      exact ⟨_, if_pos rfl, Int.le_of_eq hv'⟩
  snapshot_lt t ht hv snapshot hs := by
    rw [hversions] at hv
    split_ifs at hv with hu
    · have hve : e.version = t.version := Option.some.inj hv
      rcases hnew t ht hu with hi | ⟨-, heq⟩
      · obtain ⟨v, hv, hle⟩ := h.task_version t hi
        have := lt_nextVersion (hu ▸ hv)
        omega
      · rw [hu, heq] at hs
        obtain ⟨v, hv, hle⟩ := h.snapshot_version uri snapshot hs
        have := lt_nextVersion hv
        omega
    · have heq : j.snapshot? t.uri = i.snapshot? t.uri :=
        (hsnapshots t.uri).resolve_right fun hr => hu hr.1
      exact h.snapshot_lt t ((htasks t hu).mp ht) hv snapshot (heq ▸ hs)
  holds other v hv := by
    rw [Registry.get?_put]
    rw [hversions] at hv
    split_ifs at hv ⊢ with ho
    · subst ho
      exact ⟨e, rfl, Option.some.inj hv, hheld⟩
    · obtain ⟨e', hed, hev, hh⟩ := h.holds other v hv
      refine ⟨e', hed, hev, hh.frame ?_ ?_⟩
      · rcases hsnapshots other with hs | ⟨rfl, -⟩
        · exact hs
        · exact absurd rfl ho
      · intro t ht hu
        exact ⟨(htasks t (hu ▸ ho)).mpr ht, hpending other ho⟩

/-- Without an edit, the analyses of older versions may only be followed by one of the latest. -/
theorem keep (h : i.Current edits withdrawn) (hversions : j.versions = i.versions)
    (htasks : ∀ t ∈ j.tasks, t ∈ i.tasks)
    (hsnapshots : ∀ uri, j.snapshot? uri = i.snapshot? uri ∨ ∃ snapshot v,
      j.snapshot? uri = some snapshot ∧ i.versions.get? uri = some v ∧ snapshot.version = v ∧
        ∀ t ∈ j.tasks, t.uri ≠ uri) {more : List Task}
    (hholds : ∀ uri e, i.versions.get? uri = some e.version → i.Holds withdrawn uri e →
      j.Holds more uri e) : j.Current edits more where
  task_version t ht := hversions ▸ h.task_version t (htasks t ht)
  snapshot_version uri snapshot hs := by
    rw [hversions]
    rcases hsnapshots uri with heq | ⟨snapshot', v, hs', hv, hsv, -⟩
    · exact h.snapshot_version uri snapshot (heq ▸ hs)
    · have : snapshot' = snapshot := Option.some.inj (hs'.symm.trans hs)
      subst this
      exact ⟨v, hv, Int.le_of_eq hsv⟩
  snapshot_lt t ht hv snapshot hs := by
    rcases hsnapshots t.uri with heq | ⟨-, -, -, -, -, hne⟩
    · exact h.snapshot_lt t (htasks t ht) (hversions ▸ hv) snapshot (heq ▸ hs)
    · exact absurd rfl (hne t ht)
  holds uri v hv := by
    rw [hversions] at hv
    obtain ⟨e, he, hev, hh⟩ := h.holds uri v hv
    exact ⟨e, he, hev, hholds uri e (hev ▸ hv) hh⟩

theorem register (h : i.Current edits withdrawn) (text : String) (hc : i.contains uri = false) :
    (i.register uri text).Current (edits.put uri ⟨text, i.nextVersion uri, none⟩) withdrawn := by
  have hr : i.register uri text = (i.stamp uri).install uri text (i.nextVersion uri) := by
    simp [Index.register, hc]
  have hsnap : ∀ other, (i.register uri text).snapshot? other =
      if other = uri then some (.analyze defaultTokenLimit uri text (i.nextVersion uri))
      else i.snapshot? other := by
    intro other
    rw [hr]
    exact Registry.get?_put _ _ _ _
  refine h.edit _ rfl ?_ ?_ ?_ ?_ ?_ ?_
  · intro other
    rw [hr]
    exact Registry.get?_put _ _ _ _
  · intro other
    rw [hsnap]
    split_ifs with ho
    · exact .inr ⟨ho, _, rfl, Snapshot.analyze_version _ _ _ _⟩
    · exact .inl rfl
  · intro t _
    rw [hr]
    rfl
  · intro other _
    rw [hr]
    rfl
  · intro t ht _
    rw [hr] at ht
    exact .inl ht
  · exact .inl ⟨_, (hsnap uri).trans (if_pos rfl), by simp⟩

theorem update (hs : i.Scheduled ended) (h : i.Current edits withdrawn) :
    (i.update uri text).Current (edits.put uri ⟨text, i.nextVersion uri, none⟩) withdrawn := by
  have hsnap := update_snapshot? i uri text
  have ht : ∀ t, t ∈ (i.update uri text).tasks ↔ t ∈ i.tasks ∧ t.uri ≠ uri := by
    intro t
    rw [update_tasks, hs.mem_cancel_iff]
  refine h.edit _ rfl (update_versions_get? _ _ _) ?_ ?_ ?_ ?_ ?_
  · intro other
    rw [hsnap]
    split_ifs with ho
    · exact .inr ⟨ho, _, rfl, Snapshot.analyze_version _ _ _ _⟩
    · exact .inl rfl
  · intro t hne
    rw [ht, and_iff_left hne]
  · intro other hne
    rw [update_pending, cancel_pending_get?, if_neg hne]
  · intro t hm hu
    exact absurd hu ((ht t).mp hm).2
  · exact .inl ⟨_, (hsnap uri).trans (if_pos rfl), by simp⟩

theorem change (hs : i.Scheduled ended) (h : i.Current edits withdrawn) :
    (i.change uri text).Current
      (edits.put uri ⟨text, i.nextVersion uri, some i.nextTask⟩) withdrawn := by
  have hsnap : ∀ other, (i.change uri text).snapshot? other = i.snapshot? other := by
    intro other
    simp [snapshot?, Index.change, stamp]
  have ht : ∀ t, t ∈ (i.change uri text).tasks ↔ (t ∈ i.tasks ∧ t.uri ≠ uri) ∨
      t = ⟨i.nextTask, uri, text, i.nextVersion uri, .unstarted⟩ := by
    intro t
    rw [change_tasks, List.mem_append, List.mem_singleton, hs.mem_cancel_iff]
  refine h.edit _ rfl ?_ (fun other => .inl (hsnap other)) ?_ ?_ ?_ ?_
  · intro other
    simp [Index.change, stamp, Registry.get?_put]
  · intro t hne
    rw [ht, and_iff_left hne, or_iff_left]
    rintro rfl
    exact hne rfl
  · intro other hne
    rw [change_pending_get?, if_neg hne]
  · intro t hm hu
    rcases (ht t).mp hm with ⟨-, hne⟩ | rfl
    · exact absurd hu hne
    · exact .inr ⟨rfl, hsnap uri⟩
  · refine .inr (.inl ⟨_, (ht _).mpr (.inr rfl), ?_, rfl, rfl, rfl, rfl⟩)
    rw [change_pending_get?, if_pos rfl]

theorem close (hs : i.Scheduled ended) (h : i.Current edits withdrawn) :
    (i.close uri).Current edits withdrawn := by
  have hv : ∀ other, (i.close uri).versions.get? other =
      if other = uri then none else i.versions.get? other := by
    intro other
    simp [Index.close, Registry.get?_erase]
  have hp : ∀ other, (i.close uri).snapshot? other =
      if other = uri then none else i.snapshot? other := by
    intro other
    simp [Index.close, snapshot?, Registry.get?_erase]
  have ht : ∀ t, t ∈ (i.close uri).tasks ↔ t ∈ i.tasks ∧ t.uri ≠ uri := fun t => hs.mem_cancel_iff
  constructor
  · intro t hm
    obtain ⟨hti, hne⟩ := (ht t).mp hm
    rw [hv, if_neg hne]
    exact h.task_version t hti
  · intro other snapshot hsn
    rw [hp] at hsn
    split_ifs at hsn with ho
    rw [hv, if_neg ho]
    exact h.snapshot_version other snapshot hsn
  · intro t hm hvt snapshot hsn
    obtain ⟨hti, hne⟩ := (ht t).mp hm
    rw [hv, if_neg hne] at hvt
    rw [hp, if_neg hne] at hsn
    exact h.snapshot_lt t hti hvt snapshot hsn
  · intro other v hov
    rw [hv] at hov
    split_ifs at hov with ho
    obtain ⟨e, he, hev, hh⟩ := h.holds other v hov
    refine ⟨e, he, hev, hh.frame ((hp other).trans (if_neg ho)) fun t hti hu => ?_⟩
    refine ⟨(ht t).mpr ⟨hti, hu ▸ ho⟩, ?_⟩
    exact (cancel_pending_get? i uri other).trans (if_neg ho)

/-- The tasks that a shutdown cancels are remembered as withdrawn. -/
theorem shutdown (h : i.Current edits withdrawn) :
    i.shutdown.Current edits (withdrawn ++ i.tasks) := by
  refine h.keep (j := i.shutdown) rfl (fun t ht => (List.mem_filter.mp ht).1) (fun _ => .inl rfl) ?_
  rintro uri e - (hsn | ⟨t, ht, -, hrest⟩ | ⟨t, ht, hrest⟩)
  · exact .inl hsn
  · exact .inr (.inr ⟨t, List.mem_append_right _ ht, hrest⟩)
  · exact .inr (.inr ⟨t, List.mem_append_left _ ht, hrest⟩)

theorem forget (hs : i.Scheduled ended) (h : i.Current edits withdrawn) {task : Task}
    (ha : task ∈ ended) : (i.forget task.uri task.id).Current edits withdrawn := by
  have hsnap : ∀ uri, (i.forget task.uri task.id).snapshot? uri = i.snapshot? uri := by
    intro uri
    unfold Index.forget
    split_ifs <;> rfl
  have hv : (i.forget task.uri task.id).versions = i.versions := by
    unfold Index.forget
    split_ifs <;> rfl
  refine h.keep hv (by simp) (fun uri => .inl (hsnap uri)) ?_
  intro uri e _ hh
  refine hh.frame (hsnap uri) fun t ht hu => ⟨by simpa using ht, ?_⟩
  subst hu
  rw [hs.forget_pending ha ht, hs.pending_task t ht]

/-- A task that runs has the latest version and its analysis is installed, or it is dropped. -/
theorem fire (hs : i.Scheduled ended) (h : i.Current edits withdrawn) {task : Task}
    (ha : task ∈ i.tasks) : (i.fire task).Current edits withdrawn := by
  have ht : ∀ t, t ∈ (i.fire task).tasks ↔ t ∈ i.tasks ∧ t.id ≠ task.id := by
    intro t
    rw [fire_tasks, List.mem_filter, bne_iff_ne]
  have hone : ∀ t ∈ (i.fire task).tasks, t.uri ≠ task.uri := by
    intro t hm heq
    obtain ⟨hti, hne⟩ := (ht t).mp hm
    have hp := hs.pending_task t hti
    rw [heq, hs.pending_task task ha] at hp
    exact hne (Option.some.inj hp).symm
  have hsnap : ∀ uri, (i.fire task).snapshot? uri =
      if uri = task.uri ∧ i.versions.get? task.uri = some task.version then
        some (.analyze defaultTokenLimit task.uri task.text task.version)
      else i.snapshot? uri := by
    intro uri
    simp only [Index.fire, snapshot?]
    split_ifs with hv hc hc
    · simp [install, Registry.get?_put, hc.1]
    · simp only [publish_snapshots, install, Registry.get?_put]
      exact if_neg fun hu => hc ⟨hu, hv⟩
    · exact absurd hc.2 hv
    · rfl
  have hvs : (i.fire task).versions = i.versions := by
    simp only [Index.fire]
    split_ifs <;> simp [install]
  refine h.keep hvs (fun t hm => ((ht t).mp hm).1) ?_ ?_
  · intro uri
    rw [hsnap]
    split_ifs with hc
    · obtain ⟨rfl, hv⟩ := hc
      exact .inr ⟨_, _, rfl, hv, Snapshot.analyze_version _ _ _ _, hone⟩
    · exact .inl rfl
  · rintro uri e hev hh
    by_cases hc : uri = task.uri ∧ i.versions.get? task.uri = some task.version
    · -- The edit is the one that the task waits with: an installed analysis would be older.
      obtain ⟨rfl, hv⟩ := hc
      have hver : e.version = task.version := Option.some.inj (hev.symm.trans hv)
      have hnew := (hsnap task.uri).trans (if_pos ⟨rfl, hv⟩)
      rcases hh with ⟨snapshot, hsn, hsv, -⟩ | ⟨t, hti, hp, -, -, htext, -⟩ | hw
      · have := h.snapshot_lt task ha hv snapshot hsn
        omega
      · rw [hs.pending_task task ha] at hp
        have : task = t := hs.task_inj task ha t hti (Option.some.inj hp)
        subst this
        exact .inl ⟨_, hnew, by simp [hver], by simp [htext]⟩
      · exact .inr (.inr hw)
    · rcases hh with ⟨snapshot, hsn, hrest⟩ | ⟨t, hti, hp, he, hu, htext, htv⟩ | hw
      · exact .inl ⟨snapshot, ((hsnap uri).trans (if_neg hc)).trans hsn, hrest⟩
      · have hne : t.id ≠ task.id := by
          intro heq
          have : t = task := hs.task_inj t hti task ha heq
          subst this
          exact hc ⟨hu.symm, by rw [hu, hev, htv]⟩
        exact .inr (.inl ⟨t, (ht t).mpr ⟨hti, hne⟩, by simpa using hp, he, hu, htext, htv⟩)
      · exact .inr (.inr hw)

end Current

end Index

namespace Session

open Index

variable {s : Session}

theorem current_step (hs : s.index.Scheduled s.ended) (h : s.index.Current s.edits s.withdrawn)
    (ha : s.Allows e) :
    (s.step e).index.Current (s.step e).edits (s.step e).withdrawn := by
  cases e with
  | register uri text =>
    by_cases hc : s.index.contains uri
    · simpa [step, Event.apply, Event.edit?, Index.register, hc] using h
    · have := h.register text (by simpa using hc)
      simpa [step, Event.apply, Event.edit?, hc] using this
  | update uri text => exact h.update hs
  | change uri text => exact h.change hs
  | close uri => exact h.close hs
  | shutdown =>
    have hends : s.ends .shutdown = s.index.tasks := by
      simp [ends, Event.apply, hs.shutdown_tasks]
    have := h.shutdown
    rw [← hends] at this
    exact this
  | fire task => exact h.fire hs ha
  | notice task => exact h.forget hs ha

theorem Reachable.sound (h : s.Reachable) :
    s.index.Scheduled s.ended ∧ s.index.Current s.edits s.withdrawn := by
  induction h with
  | start settings publishes =>
    exact ⟨⟨nofun, nofun, nofun, nofun, .nil, nofun, nofun⟩, ⟨nofun, nofun, nofun, nofun⟩⟩
  | step _ ha ih => exact ⟨scheduled_step ih.1 ha, current_step ih.1 ih.2 ha⟩

/-- What a step installs is newer than what it takes the place of. -/
theorem install_lt (hs : s.index.Current s.edits s.withdrawn) (ha : s.Allows e) {v : Nat}
    (hi : e.install? s.index = some (uri, text, v)) {old : Snapshot}
    (hold : s.index.snapshot? uri = some old) : old.version < v := by
  obtain ⟨w, hw, hle⟩ := hs.snapshot_version uri old hold
  have hlt := lt_nextVersion hw
  cases e with
  | register other text' =>
    simp only [Event.install?] at hi
    split_ifs at hi
    cases hi
    omega
  | update other text' =>
    cases hi
    omega
  | fire task =>
    simp only [Event.install?] at hi
    split_ifs at hi with hv
    cases hi
    exact hs.snapshot_lt task ha hv old hold
  | change | close | shutdown | notice => cases hi

theorem tasks_length_le_one (h : s.index.Scheduled s.ended) (uri : String) :
    (s.index.tasks.filter (·.uri == uri)).length ≤ 1 := by
  have hid : ∀ t ∈ s.index.tasks.filter (·.uri == uri), s.index.pending.get? uri = some t.id := by
    intro t ht
    obtain ⟨hti, hu⟩ := List.mem_filter.mp ht
    have : t.uri = uri := by simpa using hu
    exact this ▸ h.pending_task t hti
  have hne := h.task_ne.sublist (List.filter_sublist (p := (·.uri == uri)))
  match hl : s.index.tasks.filter (·.uri == uri) with
  | [] | [_] => simp [hl]
  | t :: u :: rest =>
    rw [hl] at hid hne
    have ht := hid t (by simp)
    rw [hid u (by simp)] at ht
    exact absurd (Option.some.inj ht).symm ((List.pairwise_cons.mp hne).1 u (by simp))

theorem step_snapshot?_of_install {v : Nat} (hi : e.install? s.index = some (uri, text, v)) :
    (s.step e).index.snapshot? uri = some (.analyze defaultTokenLimit uri text v) := by
  have hp := Event.apply_snapshots s.index e (by rintro _ rfl; cases hi)
  rw [hi] at hp
  refine (congrArg (·.get? uri) hp).trans ?_
  exact (Registry.get?_put _ _ _ _).trans (if_pos rfl)

theorem step_snapshot?_eq (hclose : e ≠ .close uri)
    (hi : ∀ text v, e.install? s.index ≠ some (uri, text, v)) :
    (s.step e).index.snapshot? uri = s.index.snapshot? uri := by
  by_cases hc : ∃ other, e = .close other
  · obtain ⟨other, rfl⟩ := hc
    have hne : uri ≠ other := fun heq => hclose (heq ▸ rfl)
    simp [step, Event.apply, Index.close, snapshot?, Registry.get?_erase, hne]
  · have hp := Event.apply_snapshots s.index e fun other he => hc ⟨other, he⟩
    refine (congrArg (·.get? uri) hp).trans ?_
    cases hr : e.install? s.index with
    | none => rfl
    | some installed =>
      obtain ⟨other, text, v⟩ := installed
      refine (Registry.get?_put _ _ _ _).trans (if_neg ?_)
      rintro rfl
      exact hi text v hr

/-- The latest edit of each document has been analysed, or its task still waits and is the one
pending for the document, or it was given up in a shutdown. Analyses only follow older ones, and
the news of the end of a task never hides a task that came later. -/
theorem latest_edit_held (h : s.Reachable) :
    (∀ uri, (∀ t ∈ s.index.tasks, t.uri = uri → s.index.pending.get? uri = some t.id) ∧
      (s.index.tasks.filter (·.uri == uri)).length ≤ 1) ∧
    (∀ uri v, s.index.versions.get? uri = some v →
      ∃ e, s.edits.get? uri = some e ∧ e.version = v ∧ s.index.Holds s.withdrawn uri e) ∧
    (∀ e, s.Allows e → ∀ uri text v, e.install? s.index = some (uri, text, v) →
      (s.step e).index.snapshot? uri = some (.analyze defaultTokenLimit uri text v) ∧
      ∀ old, s.index.snapshot? uri = some old → old.version < v) ∧
    (∀ e, s.Allows e → ∀ uri, (s.step e).index.snapshot? uri ≠ s.index.snapshot? uri →
      e = .close uri ∨ ∃ text v, e.install? s.index = some (uri, text, v)) ∧
    (∀ task ∈ s.ended, ∀ uri id, s.index.pending.get? uri = some id →
      (s.step (.notice task)).index.pending.get? uri = some id ∨
      id = task.id ∧ ∀ t ∈ s.index.tasks, t.uri ≠ uri) := by
  obtain ⟨hs, hc⟩ := h.sound
  refine ⟨fun uri => ⟨?_, tasks_length_le_one hs uri⟩, hc.holds, ?_, ?_, ?_⟩
  · rintro t ht rfl
    exact hs.pending_task t ht
  · intro e ha uri text v hi
    exact ⟨step_snapshot?_of_install hi, fun old hold => install_lt hc ha hi hold⟩
  · intro e _ uri hne
    by_contra hno
    rw [not_or] at hno
    exact hne (step_snapshot?_eq hno.1 fun text v hi => hno.2 ⟨text, v, hi⟩)
  · intro task hend uri id hp
    by_cases hid : id = task.id
    · refine .inr ⟨hid, ?_⟩
      rintro t ht rfl
      rw [hs.pending_task t ht] at hp
      exact hs.ended_ne task hend t ht ((Option.some.inj hp).trans hid).symm
    · left
      refine (forget_pending_get? s.index task.uri task.id uri).trans ?_
      rw [if_neg, hp]
      rintro ⟨rfl, hp'⟩
      exact hid (Option.some.inj (hp.symm.trans hp'))

/-- A text waits, another one is registered meanwhile, the task of the first one runs in vain, and
its end is noticed when a third text waits. -/
def lateNotice : Session :=
  let first : Task := ⟨0, "a", "x", 1, .unstarted⟩
  [.change "a" "x", .register "a" "y", .fire first, .change "a" "z", .notice first].foldl step
    (start .default true)

theorem lateNotice_reachable : lateNotice.Reachable := by
  refine .step (.step (.step (.step (.step (.start _ _) trivial) trivial) ?_) trivial) ?_
  · decide
  · decide

theorem latest_edit_held_lateNotice :
    lateNotice.Reachable ∧ lateNotice.index.versions.get? "a" = some 3 ∧
      lateNotice.index.pending.get? "a" = some 1 ∧
      ∃ e, lateNotice.edits.get? "a" = some e ∧ e.version = 3 ∧
        lateNotice.index.Holds lateNotice.withdrawn "a" e := by
  have h : lateNotice.index.versions.get? "a" = some 3 := by decide
  exact ⟨lateNotice_reachable, h, by decide,
    (latest_edit_held lateNotice_reachable).2.1 "a" 3 h⟩

end Session

end MatrixScript
