import MatrixScript.Server
import MatrixScript.Proofs.Index.Clock

/-! An index that is in step with the texts of an editor, and what keeps it so. -/
namespace MatrixScript

namespace Index

variable {i j : Index} {uri text : String}

/-- A document has been analysed with this text, or this text waits to be analysed. -/
def KeepsUp (i : Index) (uri text : String) : Prop :=
  ∃ s, i.snapshot? uri = some s ∧
    ((∃ t ∈ i.tasks, t.uri = uri ∧ t.text = text ∧ i.versions.get? uri = some t.version) ∨
      (∀ t ∈ i.tasks, t.uri ≠ uri) ∧ s.text = text)

theorem KeepsUp.congr (h : i.KeepsUp uri text) (habout : j.about uri = i.about uri) :
    j.KeepsUp uri text := by
  obtain ⟨s, hs, hkeeps⟩ := h
  refine ⟨s, (congrArg Part.snapshot? habout).trans hs, hkeeps.imp ?_ (And.imp_left ?_)⟩
  · rintro ⟨t, ht, huri, htext, hversion⟩
    exact ⟨t, (mem_tasks_of_about habout huri).mpr ht, huri, htext,
      (congrArg Part.version? habout).trans hversion⟩
  · exact fun hnone t ht huri => hnone t ((mem_tasks_of_about habout huri).mp ht) huri

theorem foldl_publish_eq (i : Index) (uris : List String) :
    ∃ notices, uris.foldl publish i = { i with notices } := by
  induction uris generalizing i with
  | nil => exact ⟨_, rfl⟩
  | cons uri rest ih =>
    rw [List.foldl_cons, publish_eq]
    exact ih _

/-- Taking in files leaves everything alone but the analyses and their numbers. -/
theorem foldl_takeFile_eq (i : Index) (tree : FileTree.View) (paths failures : List String) :
    ∃ snapshots versions, (paths.foldl (takeFile tree) (i, failures)).1 = { i with snapshots, versions } := by
  induction paths generalizing i failures with
  | nil => exact ⟨_, _, rfl⟩
  | cons path rest ih =>
    rw [List.foldl_cons, takeFile]
    cases tree.readText path with
    | ok text =>
      obtain ⟨snapshots, versions, hrest⟩ := ih (i.register (Uri.ofPath path) text) failures
      refine ⟨snapshots, versions, hrest.trans ?_⟩
      unfold register
      split_ifs <;> rfl
    | error e => exact ih i _

/-- The index in which a document has been opened, before its problems are published. -/
def opening (i : Index) (uri text : String) : Index :=
  if (i.snapshot? uri).any (·.text != text) then
    ((i.cancel uri).stamp uri).install uri text (i.nextVersion uri)
  else i.register uri text

theorem Scheduled.about_opening {ended : List Task} {other : String} (h : i.Scheduled ended)
    (hne : uri ≠ other) : (i.opening uri text).about other = i.about other := by
  unfold opening
  split_ifs
  · rw [about_install _ _ hne, about_stamp hne, h.about_cancel hne]
  · exact about_register text hne

theorem opening_snapshot? (i : Index) (uri text : String) :
    ∃ s, (i.opening uri text).snapshot? uri = some s ∧ s.text = text := by
  have hinstall (i : Index) (v : Nat) : ∃ s, (i.install uri text v).snapshot? uri = some s ∧ s.text = text :=
    ⟨_, (Registry.get?_put _ _ _ _).trans (if_pos rfl), Snapshot.analyze_text _ _ _ _⟩
  unfold opening
  split_ifs with hother
  · exact hinstall _ _
  · cases hs : i.snapshot? uri with
    | none =>
      have hregister : i.register uri text = (i.stamp uri).install uri text (i.nextVersion uri) :=
        if_neg (by simp [contains_eq, hs])
      rw [hregister]
      exact hinstall _ _
    | some s =>
      have hregister : i.register uri text = i :=
        if_pos (by simp [contains_eq, hs])
      rw [hregister]
      exact ⟨s, hs, by simpa [hs] using hother⟩

theorem Scheduled.opening {ended : List Task} (h : i.Scheduled ended) (uri text : String) :
    (i.opening uri text).Scheduled
      (ended ++ i.tasks.filter fun t => !(i.opening uri text).tasks.contains t) ∧
    (i.opening uri text).tasks ⊆ i.tasks ∧ (i.opening uri text).publishes = i.publishes := by
  unfold Index.opening
  split_ifs
  · refine ⟨h.cancel uri rfl rfl (cancel_nextTask _ _), (cancel_tasks_sublist i uri).subset, ?_⟩
    change (i.cancel uri).publishes = i.publishes
    unfold Index.cancel
    split <;> rfl
  · unfold register
    split_ifs
    · exact ⟨h.keep rfl rfl rfl, List.Subset.refl _, rfl⟩
    · exact ⟨h.keep rfl rfl rfl, List.Subset.refl _, rfl⟩

end Index

/-- The problems of a document, as they are sent. -/
def Notice.forEditor (n : Notice) : Notification := ⟨n.uri, n.diagnostics.map (·.forEditor)⟩

/-- All that has been sent about a document, with what is still to be sent. -/
def outbox (sent : List Notification) (i : Index) (uri : String) : List Notification :=
  sent.filter (·.uri == uri) ++ (i.noticesOf uri).map Notice.forEditor

/-- What is sent last about a document was found out at some moment when its analysis was the present
one. -/
def ShowsLatest (sent : List Notification) (passed : List Index) (i : Index) (uri : String) : Prop :=
  ∃ m ∈ passed, ∃ ds, m.documentDiagnostics uri = .ok ds ∧ m.snapshot? uri = i.snapshot? uri ∧
    (outbox sent i uri).getLast? = some ⟨uri, ds.map (·.forEditor)⟩

namespace ShowsLatest

open Index

variable {sent : List Notification} {passed passed' : List Index} {i j k m : Index} {uri : String}

theorem mono (h : ShowsLatest sent passed i uri) (hpassed : passed ⊆ passed')
    (hsnapshot : j.snapshot? uri = i.snapshot? uri) (hnotices : j.noticesOf uri = i.noticesOf uri) :
    ShowsLatest sent passed' j uri := by
  obtain ⟨m, hm, ds, hds, hpresent, hlast⟩ := h
  refine ⟨m, hpassed hm, ds, hds, hpresent.trans hsnapshot.symm, ?_⟩
  rwa [outbox, hnotices]

/-- Problems that have just been published are the last ones. -/
theorem of_published {before : List Notice} (hm : m ∈ passed) (hsettings : k.settings = m.settings)
    (hsnapshots : k.snapshots = m.snapshots) (hwell : k.WellNamed) (hpublishes : k.publishes = true) {s : Snapshot} (hk : k.snapshot? uri = some s)
    (hj : j.snapshot? uri = some s) (hnotices : j.noticesOf uri = before ++ k.published uri) :
    ShowsLatest sent passed j uri := by
  obtain ⟨ds, hds⟩ := hwell.exists_documentDiagnostics uri
  have hcontains : k.contains uri = true := by
    rw [contains_eq, hk]
    rfl
  rw [published_eq, hpublishes, hcontains, Bool.and_self, if_pos rfl, hds] at hnotices
  refine ⟨m, hm, ds, (documentDiagnostics_congr hsettings hsnapshots uri).symm.trans hds, ?_, ?_⟩
  · rw [hj, ← hk, snapshot?, snapshot?, hsnapshots]
  · simp [outbox, hnotices, Except.toOption, Notice.forEditor]

end ShowsLatest

/-- The index is in step with the texts of the open documents, and so is what has been sent. All documents have
well-formed names. -/
structure Consistent (texts : Registry String) (sent : List Notification) (ended : List Task)
    (passed : List Index) (i : Index) : Prop where
  scheduled : i.Scheduled ended
  publishes : i.publishes = true
  named : ∀ uri, texts.get? uri ≠ none → Uri.isWellFormed uri = true
  wellNamed : i.WellNamed
  tasks : ∀ t ∈ i.tasks, texts.get? t.uri ≠ none
  keepsUp : ∀ uri text, texts.get? uri = some text → i.KeepsUp uri text
  shows : ∀ uri text, texts.get? uri = some text → ShowsLatest sent passed i uri

namespace Consistent

open Index

variable {texts texts' : Registry String} {sent sent' : List Notification} {ended ended' : List Task}
  {passed passed' : List Index} {i j : Index} {uri text : String}

section

variable (h : Consistent texts sent ended passed i)
include h

/-- A step that concerns one document. -/
theorem on (uri : String) (hscheduled : j.Scheduled ended') (hpublishes : j.publishes = true)
    (hpassed : passed ⊆ passed')
    (hothers : ∀ other, other ≠ uri → texts'.get? other = texts.get? other ∧ j.about other = i.about other ∧
      sent'.filter (·.uri == other) = sent.filter (·.uri == other))
    (hname : texts'.get? uri ≠ none ∨ j.snapshot? uri ≠ none → Uri.isWellFormed uri = true)
    (hclosed : texts'.get? uri = none → ∀ t ∈ j.tasks, t.uri ≠ uri)
    (hopen : ∀ text, texts'.get? uri = some text → j.KeepsUp uri text ∧ ShowsLatest sent' passed' j uri) :
    Consistent texts' sent' ended' passed' j where
  scheduled := hscheduled
  publishes := hpublishes
  named other hother := by
    by_cases huri : other = uri
    · exact huri ▸ hname (.inl (huri ▸ hother))
    · exact h.named other ((hothers other huri).1 ▸ hother)
  wellNamed := h.wellNamed.on (fun hknown => hname (.inr hknown)) fun other huri => (hothers other huri).2.1
  tasks t ht := by
    by_cases huri : t.uri = uri
    · intro hnone
      exact hclosed (huri ▸ hnone) t ht huri
    · obtain ⟨htexts, habout, -⟩ := hothers t.uri huri
      rw [htexts]
      exact h.tasks t ((mem_tasks_of_about habout rfl).mp ht)
  keepsUp other text htext := by
    by_cases huri : other = uri
    · exact huri ▸ (hopen text (huri ▸ htext)).1
    · obtain ⟨htexts, habout, -⟩ := hothers other huri
      exact (h.keepsUp other text (htexts ▸ htext)).congr habout
  shows other text htext := by
    by_cases huri : other = uri
    · exact huri ▸ (hopen text (huri ▸ htext)).2
    · obtain ⟨htexts, habout, hsent⟩ := hothers other huri
      have hshows := (h.shows other text (htexts ▸ htext)).mono hpassed
        (congrArg Part.snapshot? habout) (congrArg Part.notices habout)
      rwa [ShowsLatest, outbox, ← hsent] at hshows

/-- A step that changes neither analyses nor texts of tasks. -/
theorem same (hscheduled : j.Scheduled ended') (hpassed : passed ⊆ passed')
    (hpublishes : j.publishes = i.publishes) (hsnapshots : j.snapshots = i.snapshots)
    (hversions : j.versions = i.versions) (hnotices : j.notices = i.notices)
    (htasks : j.tasks.map (fun t => (t.uri, t.text, t.version)) =
      i.tasks.map fun t => (t.uri, t.text, t.version)) :
    Consistent texts sent ended' passed' j := by
  have hold : ∀ t ∈ j.tasks, ∃ u ∈ i.tasks, u.uri = t.uri := by
    intro t ht
    obtain ⟨u, hu, heq⟩ := List.mem_map.mp (htasks ▸ List.mem_map_of_mem ht)
    exact ⟨u, hu, (Prod.mk.inj heq).1⟩
  have hsnapshot (uri : String) : j.snapshot? uri = i.snapshot? uri := by
    rw [snapshot?, hsnapshots, snapshot?]
  refine ⟨hscheduled, hpublishes.trans h.publishes, h.named, h.wellNamed.congr hsnapshots, ?_, ?_, ?_⟩
  · intro t ht
    obtain ⟨u, hu, huri⟩ := hold t ht
    exact huri ▸ h.tasks u hu
  · intro uri text htext
    obtain ⟨s, hs, hkeeps⟩ := h.keepsUp uri text htext
    refine ⟨s, (hsnapshot uri).trans hs, hkeeps.imp ?_ (And.imp_left ?_)⟩
    · rintro ⟨t, ht, rfl, rfl, hversion⟩
      obtain ⟨u, hu, heq⟩ := List.mem_map.mp (htasks ▸ List.mem_map_of_mem ht)
      simp only [Prod.mk.injEq] at heq
      obtain ⟨huri, htext, hv⟩ := heq
      exact ⟨u, hu, huri, htext, by rw [hversions, hversion, hv]⟩
    · intro hnone t ht huri
      obtain ⟨u, hu, heq⟩ := hold t ht
      exact hnone u hu (heq.trans huri)
  · intro uri text htext
    exact (h.shows uri text htext).mono hpassed (hsnapshot uri)
      (by rw [noticesOf, hnotices, noticesOf])

theorem change (hopen : texts.get? uri ≠ none) (hscheduled : (i.change uri text).Scheduled ended')
    (hpassed : passed ⊆ passed') :
    Consistent (texts.put uri text) sent ended' passed' (i.change uri text) := by
  obtain ⟨old, hold⟩ := Option.ne_none_iff_exists'.mp hopen
  obtain ⟨s, hs, -⟩ := h.keepsUp uri old hold
  have habout := h.scheduled.about_change_self uri text
  have hsnapshot : (i.change uri text).snapshot? uri = i.snapshot? uri := congrArg Part.snapshot? habout
  refine h.on uri hscheduled ((congrArg Part.publishes habout).trans h.publishes) hpassed ?_
    (fun _ => h.named uri hopen) ?_ ?_
  · intro other hne
    exact ⟨(Registry.get?_put _ _ _ _).trans (if_neg hne), h.scheduled.about_change text hne.symm, rfl⟩
  · intro hnone
    rw [Registry.get?_put, if_pos rfl] at hnone
    cases hnone
  · intro text' htext'
    rw [Registry.get?_put, if_pos rfl] at htext'
    cases htext'
    refine ⟨⟨s, hsnapshot.trans hs, .inl ⟨_, i.mem_change_tasks uri text, rfl, rfl,
      congrArg Part.version? habout⟩⟩, ?_⟩
    exact (h.shows uri old hold).mono hpassed hsnapshot (congrArg Part.notices habout)

theorem close (uri : String) (hscheduled : (i.close uri).Scheduled ended')
    (hpassed : passed ⊆ passed')
    (hsent : ∀ other, other ≠ uri → sent'.filter (·.uri == other) = sent.filter (·.uri == other)) :
    Consistent (texts.erase uri) sent' ended' passed' (i.close uri) := by
  have hpublishes : (i.close uri).publishes = i.publishes := by
    unfold Index.close cancel
    split <;> rfl
  have htext : (texts.erase uri).get? uri = none := (Registry.get?_erase _ _ _).trans (if_pos rfl)
  have hsnapshot : (i.close uri).snapshot? uri = none := (Registry.get?_erase _ _ _).trans (if_pos rfl)
  refine h.on uri hscheduled (hpublishes.trans h.publishes) hpassed ?_ ?_ ?_ ?_
  · intro other hne
    exact ⟨(Registry.get?_erase _ _ _).trans (if_neg hne), h.scheduled.about_close hne.symm, hsent other hne⟩
  · rw [htext, hsnapshot]
    simp
  · exact fun _ t ht => (h.scheduled.mem_cancel_iff.mp ht).2
  · rw [htext]
    exact nofun

/-- The news of the end of a task concerns no analysis. -/
theorem forget {id : Nat} (hscheduled : (i.forget uri id).Scheduled ended')
    (hpassed : passed ⊆ passed') : Consistent texts sent ended' passed' (i.forget uri id) := by
  have htasks := forget_tasks i uri id
  refine h.same hscheduled hpassed ?_ ?_ ?_ ?_ (by rw [htasks]) <;> rw [forget_eq]

/-- A task waits with the editor's text and the latest version. -/
theorem task {t : Task} (ht : t ∈ i.tasks) :
    texts.get? t.uri = some t.text ∧ i.versions.get? t.uri = some t.version := by
  obtain ⟨text, htext⟩ := Option.ne_none_iff_exists'.mp (h.tasks t ht)
  obtain ⟨s, -, ⟨u, hu, huri, rfl, hversion⟩ | ⟨hnone, -⟩⟩ := h.keepsUp t.uri text htext
  · obtain rfl : u = t := h.scheduled.eq_of_uri hu ht huri
    exact ⟨htext, hversion⟩
  · exact absurd rfl (hnone t ht)

/-- A task has run, and its end may have been noticed. -/
theorem ran {t : Task} (ht : t ∈ i.tasks) (hscheduled : j.Scheduled ended')
    (hpassed : passed ⊆ passed') {m : Index} (hm : m ∈ passed')
    (hsettings : j.settings = m.settings) (hsnapshots : j.snapshots = m.snapshots)
    (hothers : ∀ other, t.uri ≠ other → j.about other = i.about other) {pending? : Option Nat}
    (hself : j.about t.uri = { i.about t.uri with
      snapshot? := some (.analyze defaultTokenLimit t.uri t.text t.version)
      pending?
      tasks := []
      notices := i.noticesOf t.uri ++ j.published t.uri }) :
    Consistent texts sent ended' passed' j := by
  obtain ⟨htext, -⟩ := h.task ht
  have hpublishes := (congrArg Part.publishes hself).trans h.publishes
  have hsnapshot := congrArg Part.snapshot? hself
  have hnone : ∀ u ∈ j.tasks, u.uri ≠ t.uri := ne_of_mem_tasks_of_about (congrArg Part.tasks hself)
  have hname := h.named t.uri (h.tasks t ht)
  have hwell := h.wellNamed.on (fun _ => hname) fun other hne => hothers other hne.symm
  refine h.on t.uri hscheduled hpublishes hpassed (fun other hne => ⟨rfl, hothers other hne.symm, rfl⟩)
    (fun _ => hname) (fun _ => hnone) fun text htext' => ?_
  rw [htext] at htext'
  cases htext'
  exact ⟨⟨_, hsnapshot, .inr ⟨hnone, Snapshot.analyze_text _ _ _ _⟩⟩,
    .of_published hm hsettings hsnapshots hwell hpublishes hsnapshot hsnapshot (congrArg Part.notices hself)⟩

theorem publish {m : Index} (hm : m ∈ passed) (hsettings : i.settings = m.settings)
    (hsnapshots : i.snapshots = m.snapshots) (uri : String) :
    Consistent texts sent ended passed (i.publish uri) := by
  have hsnapshot := i.publish_snapshot? uri uri
  refine h.on uri (h.scheduled.publish uri) (by rw [publish_eq, h.publishes]) (List.Subset.refl _)
    (fun other hne => ⟨rfl, about_publish hne.symm, rfl⟩) ?_ ?_ ?_
  · rw [hsnapshot]
    exact fun hknown => hknown.elim (h.named uri) (wellNamed_iff.mp h.wellNamed uri)
  · intro hnone t ht huri
    rw [publish_tasks] at ht
    exact h.tasks t ht (huri ▸ hnone)
  · intro text htext
    obtain ⟨s, hs, hkeeps⟩ := h.keepsUp uri text htext
    refine ⟨⟨s, hsnapshot.trans hs, by rwa [publish_tasks, publish_versions]⟩, ?_⟩
    exact .of_published hm hsettings hsnapshots h.wellNamed h.publishes hs (hsnapshot.trans hs)
      (noticesOf_publish i uri)

theorem foldl_publish {m : Index} (hm : m ∈ passed) (hsettings : i.settings = m.settings)
    (hsnapshots : i.snapshots = m.snapshots) (uris : List String) :
    Consistent texts sent ended passed (uris.foldl Index.publish i) := by
  induction uris generalizing i with
  | nil => exact h
  | cons uri rest ih =>
    exact ih (h.publish hm hsettings hsnapshots uri) (by rw [publish_eq, hsettings])
      (by rw [publish_snapshots, hsnapshots])

/-- A document that the editor has open is known, so that its file is not taken in. -/
theorem register (hname : Uri.isWellFormed uri = true) (text : String) :
    Consistent texts sent ended passed (i.register uri text) := by
  by_cases hcontains : i.contains uri = true
  · rwa [Index.register, if_pos hcontains]
  have hclosed : texts.get? uri = none := by
    by_contra hopen
    obtain ⟨old, hold⟩ := Option.ne_none_iff_exists'.mp hopen
    obtain ⟨s, hs, -⟩ := h.keepsUp uri old hold
    rw [contains_eq, hs] at hcontains
    exact hcontains rfl
  have hregister : i.register uri text = (i.stamp uri).install uri text (i.nextVersion uri) :=
    if_neg hcontains
  refine h.on uri (hregister ▸ h.scheduled.congr rfl rfl rfl) (hregister ▸ h.publishes) (List.Subset.refl _)
    (fun other hne => ⟨rfl, about_register text hne.symm, rfl⟩) (fun _ => hname) ?_ ?_
  · intro _ t ht huri
    rw [hregister] at ht
    exact h.tasks t ht (huri ▸ hclosed)
  · intro text' htext'
    rw [hclosed] at htext'
    cases htext'

theorem foldl_takeFile (tree : FileTree.View) (paths : List String) (failures : List String) :
    Consistent texts sent ended passed (paths.foldl (takeFile tree) (i, failures)).1 := by
  induction paths generalizing i failures with
  | nil => exact h
  | cons path rest ih =>
    rw [List.foldl_cons, takeFile]
    cases tree.readText path with
    | ok text => exact ih (h.register (Uri.isWellFormed_ofPath path) text) _
    | error e => exact ih h _

/-- A document has been opened: it has been analysed, and the outcome is published. -/
theorem opened (hname : Uri.isWellFormed uri = true) (hscheduled : j.Scheduled ended')
    (hpublishes : j.publishes = true) (hpassed : passed ⊆ passed') {m : Index} (hm : m ∈ passed')
    (hsettings : j.settings = m.settings) (hsnapshots : j.snapshots = m.snapshots)
    (hothers : ∀ other, uri ≠ other → j.about other = i.about other)
    (hnone : ∀ t ∈ j.tasks, t.uri ≠ uri) {s : Snapshot} (hs : j.snapshot? uri = some s)
    (htext : s.text = text) :
    Consistent (texts.put uri text) sent ended' passed' (j.publish uri) := by
  have hsnapshot := (j.publish_snapshot? uri uri).trans hs
  have hwell := h.wellNamed.on (fun _ => hname) fun other hne => hothers other hne.symm
  refine h.on uri (hscheduled.publish uri) (by rw [publish_eq, hpublishes]) hpassed ?_ (fun _ => hname) ?_ ?_
  · intro other hne
    exact ⟨(Registry.get?_put _ _ _ _).trans (if_neg hne),
      (about_publish hne.symm).trans (hothers other hne.symm), rfl⟩
  · intro hclosed
    rw [Registry.get?_put, if_pos rfl] at hclosed
    cases hclosed
  · intro text' htext'
    rw [Registry.get?_put, if_pos rfl] at htext'
    cases htext'
    refine ⟨⟨s, hsnapshot, .inr ⟨?_, htext⟩⟩, ?_⟩
    · rwa [publish_tasks]
    · exact .of_published hm hsettings hsnapshots hwell hpublishes hs hsnapshot (noticesOf_publish j uri)

/-! ## Time -/

theorem finish {t : Task} (ht : t ∈ i.tasks) :
    Consistent texts sent ended (passed ++ [i.finish t]) (i.finish t) :=
  h.ran ht (h.scheduled.finish t) (List.subset_append_left _ _)
    (List.mem_append_right _ (List.mem_singleton_self _)) rfl rfl
    (fun _ hne => h.scheduled.about_finish ht hne) (h.scheduled.about_finish_self ht (h.task ht).2)

theorem foldl_finish {tasks : List Task} (hmem : ∀ t ∈ tasks, t ∈ i.tasks)
    (hne : tasks.Pairwise (·.id ≠ ·.id)) :
    Consistent texts sent ended (passed ++ i.passing tasks) (tasks.foldl Index.finish i) := by
  induction tasks generalizing i passed with
  | nil => simpa [passing] using h
  | cons t rest ih =>
    obtain ⟨ht, hrest⟩ := List.forall_mem_cons.mp hmem
    obtain ⟨hhead, hne⟩ := List.pairwise_cons.mp hne
    have hnext := ih (h.finish ht)
      (fun u hu => mem_finish_tasks.mpr ⟨hrest u hu, (hhead u hu).symm⟩) hne
    rwa [List.append_assoc] at hnext

theorem startWaiting :
    Consistent texts sent ended (passed ++ i.passing i.atOnce) i.startWaiting := by
  by_cases hzero : nanoseconds? i.settings.delay = some 0
  · have hatOnce : i.atOnce = i.tasks.filter (·.wait == .unstarted) := if_pos hzero
    rw [Index.startWaiting, hzero, hatOnce]
    exact h.foldl_finish (fun t ht => (List.mem_filter.mp ht).1)
      (h.scheduled.task_ne.sublist List.filter_sublist)
  · rw [startWaiting_eq rfl hzero]
    refine h.same (h.scheduled.mapWait _) (List.subset_append_left _ _) rfl rfl rfl rfl ?_
    rw [List.map_map]
    rfl

theorem advance (duration : Nat) :
    Consistent texts sent ended
      (passed ++ i.elapsing (i.startWaiting.dueBy (i.startWaiting.now + duration))) (i.advance duration) := by
  have hrun := h.startWaiting.foldl_finish (fun t ht => (mem_dueBy.mp ht).1)
    (h.scheduled.startWaiting.dueBy_ne (i.startWaiting.now + duration))
  refine hrun.same (hrun.scheduled.congr rfl rfl rfl) ?_ rfl rfl rfl rfl rfl
  intro m hm
  simp only [elapsing, List.mem_append, List.mem_cons] at hm ⊢
  tauto

end

/-! ## The server -/

/-- Problems of open documents are sent, and then nothing is left to be sent. -/
theorem deliver {s : Server} (h : Consistent texts s.sent ended passed s.index)
    (hopen : ∀ uri, s.isOpen uri = texts.contains uri) :
    Consistent texts s.deliver.sent ended passed s.deliver.index := by
  refine ⟨h.scheduled.congr rfl rfl rfl, h.publishes, h.named, h.wellNamed, h.tasks, h.keepsUp,
    fun uri text htext => ?_⟩
  obtain ⟨m, hm, ds, hds, hsnapshot, hlast⟩ := h.shows uri text htext
  refine ⟨m, hm, ds, hds, hsnapshot, ?_⟩
  have hisOpen : s.isOpen uri = true := by
    rw [hopen, Registry.contains, htext]
    rfl
  have houtbox : outbox s.deliver.sent s.deliver.index uri = outbox s.sent s.index uri := by
    have hnotices : (s.index.notices.filter fun n => s.isOpen n.uri).filter (·.uri == uri) =
        s.index.notices.filter (·.uri == uri) := by
      rw [List.filter_filter]
      exact List.filter_congr fun n _ => by grind
    simp only [outbox, Server.deliver, noticesOf, List.filter_append, List.filter_nil, List.map_nil,
      List.append_nil, List.filter_map, ← hnotices]
    rfl
  rw [houtbox, hlast]

theorem discover {s : Server} (h : Consistent texts sent ended passed s.index) (tree : FileTree.View)
    (root : Option String) : Consistent texts sent ended passed (s.discover tree root).1.index := by
  unfold Server.discover
  split
  · exact h
  · exact h
  · exact h.foldl_takeFile tree _ _

theorem onIndex {s : Server} {f : Index → Index} (h : Consistent texts s.sent ended passed (f s.index))
    (hopen : ∀ uri, s.isOpen uri = texts.contains uri) :
    Consistent texts (s.onIndex f).sent ended passed (s.onIndex f).index :=
  deliver (s := { s with index := f s.index }) h hopen

end Consistent

end MatrixScript
