import MatrixScript.Proofs.Server.Consistency

/-! The server keeps up with the editor: what waits or has been analysed is the editor's latest text, and
what was sent last about a document comes from its latest analysis. -/
namespace MatrixScript

namespace Server

/-- What can happen to a server. -/
inductive Input where
  | opened (uri text : String)
  | changed (uri text : String)
  | closed (uri : String)
  | configured (payload : Payload)
  | discovered (tree : FileTree.View) (root : Option String)
  | elapsed (duration : Nat)
  /-- A waiting task runs. -/
  | ran (task : Task)
  /-- The index is told that a task is done. -/
  | noticed (task : Task)

/-- A change of the settings that fails changes nothing. -/
def serve (s : Server) : Input → Server
  | .opened uri text => s.didOpen uri text
  | .changed uri text => s.didChange uri text
  | .closed uri => s.didClose uri
  | .configured payload => (s.configure payload).toOption.getD s
  | .discovered tree root => (s.discover tree root).1
  | .elapsed duration => s.advance duration
  | .ran task => s.onIndex (·.fire task)
  | .noticed task => s.onIndex (·.forget task.uri task.id)

/-- The indexes that come about in the course of an input. While time passes there is one for each task
that runs. -/
def moments (s : Server) (input : Input) : List Index :=
  match input with
  | .elapsed duration =>
    s.index.elapsing (s.index.startWaiting.dueBy (s.index.startWaiting.now + duration)) ++
      [(s.serve input).index]
  | _ => [(s.serve input).index]

theorem contains_addOpened (s : Server) (uri other : String) :
    (s.addOpened uri).contains other = (other == uri || s.isOpen other) := by
  rw [addOpened, Bool.eq_iff_iff]
  split_ifs with h
  · have hmem : uri ∈ s.opened := by simpa [isOpen] using h
    simp only [List.contains_iff_mem, Bool.or_eq_true, beq_iff_eq, isOpen]
    exact ⟨.inr, fun hother => hother.elim (fun heq => heq ▸ hmem) id⟩
  · simp [isOpen, or_comm]

theorem isOpen_didClose (s : Server) (uri other : String) :
    (s.didClose uri).isOpen other = (other != uri && s.isOpen other) := by
  change (s.opened.filter (· != uri)).contains other = _
  rw [Bool.eq_iff_iff]
  simp [isOpen, and_comm]

theorem didClose_sent (s : Server) (uri : String) :
    (s.didClose uri).sent = (s.onIndex (·.close uri)).sent ++
      if s.isOpen uri then [⟨uri, []⟩] else [] := by
  unfold didClose
  have hopen : (s.onIndex (·.close uri)).isOpen uri = s.isOpen uri := rfl
  simp only [hopen]
  split_ifs
  · rfl
  · rw [List.append_nil]

theorem discover_eq (s : Server) (tree : FileTree.View) (root : Option String) :
    ∃ snapshots versions, (s.discover tree root).1 =
      { s with index := { s.index with snapshots, versions } } := by
  unfold discover
  split
  · exact ⟨_, _, rfl⟩
  · exact ⟨_, _, rfl⟩
  · obtain ⟨snapshots, versions, hindex⟩ := Index.foldl_takeFile_eq s.index tree _ _
    exact ⟨snapshots, versions, congrArg (fun index => { s with index }) hindex⟩

theorem didOpen_eq (s : Server) (uri text : String) :
    s.didOpen uri text = if Uri.isWellFormed uri then
      { s with opened := s.addOpened uri, texts := s.texts.put uri text }.onIndex
        fun i => (i.opening uri text).publish uri
    else s := by
  simp only [didOpen, refusal?, onIndex, Index.opening]
  split_ifs <;> first | rfl | contradiction

theorem didChange_eq (s : Server) (uri text : String) :
    s.didChange uri text = if Uri.isWellFormed uri then
      { s with texts := s.texts.put uri text }.onIndex (·.change uri text)
    else s := by
  simp only [didChange, refusal?]
  split_ifs <;> first | rfl | contradiction

/-- The settings of a server and the problems that are sent again, unless the settings cannot be read. -/
theorem configure_eq (s : Server) (payload : Payload) :
    s.configure payload = (s.settings.update payload).map fun settings =>
      { s with index := { s.index with settings } }.onIndex fun i =>
        (s.sortedOpened.takeWhile fun uri => (i.publishError? uri).isNone).foldl Index.publish i := by
  unfold configure applySettings
  cases s.settings.update payload <;> rfl

end Server

/-- A server with the texts that the editor has open, the tasks that have run or been cancelled without
the index being told so, and all indexes that there have been. -/
structure Conversation where
  server : Server
  texts : Registry String
  ended : List Task
  passed : List Index

namespace Conversation

def start (settings : Settings) : Conversation := ⟨.new settings, .empty, [], []⟩

/-- The editor opens documents that are not open, and changes and closes open ones. Only a waiting task
runs, and the index is told once of the end of each task. -/
def Allows (c : Conversation) : Server.Input → Prop
  | .opened uri _ => c.texts.get? uri = none
  | .changed uri _ | .closed uri => c.texts.get? uri ≠ none
  | .ran task => task ∈ c.server.index.tasks
  | .noticed task => task ∈ c.ended
  | _ => True

/-- The index is told at once of the end of tasks that run while time passes. -/
def step (c : Conversation) (input : Server.Input) : Conversation where
  server := c.server.serve input
  texts := match input with
    | .opened uri text | .changed uri text => c.texts.put uri text
    | .closed uri => c.texts.erase uri
    | _ => c.texts
  ended := match input with
    | .noticed task => c.ended.erase task
    | .elapsed _ => c.ended
    | input => c.ended ++
      c.server.index.tasks.filter fun t => !(c.server.serve input).index.tasks.contains t
  passed := c.passed ++ c.server.moments input

/-- The conversations that come about by any sequence of inputs. -/
inductive Reachable : Conversation → Prop where
  | start (settings : Settings) : Reachable (start settings)
  | step {c : Conversation} {input : Server.Input} : Reachable c → c.Allows input →
      Reachable (c.step input)

/-- The server holds the editor's texts of all documents that it does not refuse, and is in step with them. -/
structure Sound (c : Conversation) : Prop where
  held : ∀ uri, c.server.texts.get? uri = if Uri.isWellFormed uri then c.texts.get? uri else none
  opened : ∀ uri, c.server.isOpen uri = c.server.texts.contains uri
  delivered : c.server.index.notices = []
  consistent : Consistent c.server.texts c.server.sent c.ended c.passed c.server.index

theorem passed_subset (c : Conversation) (input : Server.Input) : c.passed ⊆ (c.step input).passed :=
  List.subset_append_left _ _

theorem mem_passed (c : Conversation) (input : Server.Input) :
    (c.step input).server.index ∈ (c.step input).passed := by
  refine List.mem_append_right _ ?_
  cases input with
  | elapsed duration => exact List.mem_append_right _ (List.mem_singleton_self _)
  | _ => exact List.mem_singleton_self _

namespace Sound

open Index

variable {c : Conversation} {uri text : String}

/-- An event of the index alone. -/
theorem scheduled (h : c.Sound) {e : Event}
    (ha : (⟨c.server.index, .empty, c.ended, []⟩ : Session).Allows e) :
    (e.apply c.server.index).Scheduled
      (Session.step ⟨c.server.index, .empty, c.ended, []⟩ e).ended :=
  Session.scheduled_step (s := ⟨c.server.index, .empty, c.ended, []⟩) h.consistent.scheduled ha

theorem held_put (h : c.Sound) (hname : Uri.isWellFormed uri = true) (text other : String) :
    (c.server.texts.put uri text).get? other =
      if Uri.isWellFormed other then (c.texts.put uri text).get? other else none := by
  rw [Registry.get?_put, Registry.get?_put, h.held]
  by_cases hother : other = uri
  · rw [if_pos hother, hother, if_pos hname, if_pos rfl]
  · rw [if_neg hother, if_neg hother]

/-- An input that leaves the server as it is. -/
theorem idle (h : c.Sound) {input : Server.Input} (hserve : c.server.serve input = c.server)
    (hended : (c.step input).ended =
      c.ended ++ c.server.index.tasks.filter fun t => !c.server.index.tasks.contains t)
    (htexts : ∀ uri, Uri.isWellFormed uri = true → (c.step input).texts.get? uri = c.texts.get? uri) :
    (c.step input).Sound := by
  have hserver : (c.step input).server = c.server := hserve
  have hpassed := c.passed_subset input
  refine ⟨fun uri => ?_, hserver ▸ h.opened, hserver ▸ h.delivered, ?_⟩
  · rw [hserver, h.held]
    split_ifs with hname
    · exact (htexts uri hname).symm
    · rfl
  · rw [hserver, hended]
    exact h.consistent.same (h.consistent.scheduled.keep rfl rfl rfl) hpassed rfl rfl rfl rfl rfl

/-- The text of a refused document. -/
theorem get?_put_refused (hname : Uri.isWellFormed uri = false) {other : String}
    (hother : Uri.isWellFormed other = true) : (c.texts.put uri text).get? other = c.texts.get? other := by
  refine (Registry.get?_put _ _ _ _).trans (if_neg ?_)
  rintro rfl
  exact Bool.false_ne_true (hname.symm.trans hother)

theorem changed (h : c.Sound) (hopen : c.texts.get? uri ≠ none) : (c.step (.changed uri text)).Sound := by
  have hserve : c.server.serve (.changed uri text) = _ := c.server.didChange_eq uri text
  cases hname : Uri.isWellFormed uri with
  | false =>
    rw [hname, if_neg Bool.false_ne_true] at hserve
    exact h.idle hserve (by simp only [step, hserve]) fun other => get?_put_refused hname
  | true =>
    rw [hname, if_pos rfl] at hserve
    have hheld : c.server.texts.get? uri ≠ none := by rwa [h.held, if_pos hname]
    have hopened (other : String) : c.server.isOpen other = (c.server.texts.put uri text).contains other := by
      have huri : c.server.texts.contains uri = true := Option.isSome_iff_ne_none.mpr hheld
      rw [h.opened, Registry.contains_put]
      by_cases heq : other = uri <;> simp [heq, huri]
    have hpassed := c.passed_subset (.changed uri text)
    simp only [step, hserve] at hpassed ⊢
    have hchange := h.consistent.change hheld (h.scheduled (e := .change uri text) trivial) hpassed
    exact ⟨h.held_put hname text, hopened, rfl,
      Consistent.onIndex (s := { c.server with texts := _ }) hchange hopened⟩

theorem ran (h : c.Sound) {task : Task} (ha : task ∈ c.server.index.tasks) : (c.step (.ran task)).Sound := by
  have hc := h.consistent
  have hran := hc.ran ha (h.scheduled (e := .fire task) ha) (c.passed_subset (.ran task))
    (c.mem_passed (.ran task)) rfl rfl (fun _ hne => hc.scheduled.about_fire ha hne)
    (hc.scheduled.about_fire_self ha (hc.task ha).2)
  exact ⟨h.held, h.opened, rfl, Consistent.onIndex hran h.opened⟩

theorem noticed (h : c.Sound) {task : Task} (ha : task ∈ c.ended) : (c.step (.noticed task)).Sound := by
  have hforget := h.consistent.forget (h.scheduled (e := .notice task) ha) (c.passed_subset (.noticed task))
  exact ⟨h.held, h.opened, rfl, Consistent.onIndex hforget h.opened⟩

theorem elapsed (h : c.Sound) (duration : Nat) : (c.step (.elapsed duration)).Sound := by
  have hadvance := h.consistent.advance duration
  refine ⟨h.held, h.opened, rfl, Consistent.onIndex (f := (·.advance duration))
    (hadvance.same hadvance.scheduled ?_ rfl rfl rfl rfl rfl) h.opened⟩
  refine List.Subset.trans (List.subset_append_left _ [(c.server.advance duration).index]) ?_
  rw [List.append_assoc]
  exact List.Subset.refl _

theorem closed (h : c.Sound) (uri : String) : (c.step (.closed uri)).Sound := by
  have hnotices : (c.server.index.close uri).notices = [] := by
    unfold Index.close cancel
    split <;> exact h.delivered
  have hsent (other : String) (hne : other ≠ uri) :
      (c.server.didClose uri).sent.filter (·.uri == other) = c.server.sent.filter (·.uri == other) := by
    have hindex : (c.server.onIndex (·.close uri)).sent = c.server.sent := by
      simp [Server.onIndex, Server.deliver, hnotices]
    rw [Server.didClose_sent, hindex]
    split_ifs <;> simp [hne.symm]
  have hclose := h.consistent.close uri (h.scheduled (e := .close uri) trivial)
    (c.passed_subset (.closed uri)) hsent
  refine ⟨fun other => ?_, fun other => ?_, rfl, ?_⟩
  · change (c.server.texts.erase uri).get? other = if _ then (c.texts.erase uri).get? other else none
    rw [Registry.get?_erase, Registry.get?_erase, h.held]
    split_ifs <;> rfl
  · refine (c.server.isOpen_didClose uri other).trans ?_
    rw [h.opened]
    exact (Registry.contains_erase _ _ _).symm
  · exact hclose.same (hclose.scheduled.congr rfl rfl rfl) (List.Subset.refl _) rfl rfl rfl hnotices.symm rfl

theorem discovered (h : c.Sound) (tree : FileTree.View) (root : Option String) :
    (c.step (.discovered tree root)).Sound := by
  obtain ⟨snapshots, versions, heq⟩ := c.server.discover_eq tree root
  have hfound := h.consistent.discover tree root
  have hscheduled := h.consistent.scheduled.keep (j := (c.server.discover tree root).1.index)
    (congrArg (·.index.tasks) heq) (congrArg (·.index.pending) heq) (congrArg (·.index.nextTask) heq)
  have htexts : (c.server.discover tree root).1.texts = c.server.texts := by rw [heq]
  refine ⟨fun uri => ?_, fun other => ?_, (congrArg (·.index.notices) heq).trans h.delivered, ?_⟩
  · exact (congrArg (·.get? uri) htexts).trans (h.held uri)
  · exact (congrArg (·.isOpen other) heq).trans ((h.opened other).trans (congrArg (·.contains other) htexts.symm))
  · have hsent : (c.server.discover tree root).1.sent = c.server.sent := by rw [heq]
    change Consistent (c.server.discover tree root).1.texts (c.server.discover tree root).1.sent _ _ _
    rw [hsent, htexts]
    exact hfound.same hscheduled (c.passed_subset (.discovered tree root)) rfl rfl rfl rfl rfl

theorem configured (h : c.Sound) (payload : Payload) : (c.step (.configured payload)).Sound := by
  have hc := h.consistent
  have hsubset := c.passed_subset (.configured payload)
  have hmem := c.mem_passed (.configured payload)
  cases hsettings : c.server.settings.update payload with
  | error e =>
    have hserve : c.server.serve (.configured payload) = c.server := by
      rw [Server.serve, Server.configure_eq, hsettings]
      rfl
    exact h.idle hserve (by simp only [step, hserve]) fun _ _ => rfl
  | ok settings =>
    let publishAll : Index → Index := fun i =>
      (c.server.sortedOpened.takeWhile fun uri => (i.publishError? uri).isNone).foldl Index.publish i
    let i : Index := { c.server.index with settings }
    have hserve : c.server.serve (.configured payload) =
        { c.server with index := i }.onIndex publishAll := by
      rw [Server.serve, Server.configure_eq, hsettings]
      rfl
    simp only [step, hserve] at hsubset hmem ⊢
    obtain ⟨notices, heq⟩ : ∃ notices, publishAll i = { i with notices } := foldl_publish_eq i _
    have htasks : (publishAll i).tasks = c.server.index.tasks := by rw [heq]
    have hscheduled : i.Scheduled
        (c.ended ++ c.server.index.tasks.filter fun t => !(publishAll i).tasks.contains t) := by
      rw [htasks]
      exact hc.scheduled.keep rfl rfl rfl
    have hstart := hc.same (j := i) hscheduled hsubset rfl rfl rfl rfl rfl
    have hpublished := hstart.foldl_publish hmem (congrArg Index.settings heq).symm
      (congrArg snapshots heq).symm (c.server.sortedOpened.takeWhile fun uri => (i.publishError? uri).isNone)
    exact ⟨h.held, h.opened, rfl,
      Consistent.onIndex (s := { c.server with index := i }) (f := publishAll) hpublished h.opened⟩

theorem didOpen (h : c.Sound) (hclosed : c.texts.get? uri = none) : (c.step (.opened uri text)).Sound := by
  have hserve : c.server.serve (.opened uri text) = _ := c.server.didOpen_eq uri text
  cases hname : Uri.isWellFormed uri with
  | false =>
    rw [hname, if_neg Bool.false_ne_true] at hserve
    exact h.idle hserve (by simp only [step, hserve]) fun other => get?_put_refused hname
  | true =>
    rw [hname, if_pos rfl] at hserve
    have hc := h.consistent
    obtain ⟨hscheduled, htasks, hpublishes⟩ := hc.scheduled.opening uri text
    obtain ⟨s, hs, htext⟩ := c.server.index.opening_snapshot? uri text
    have hnone : ∀ t ∈ (c.server.index.opening uri text).tasks, t.uri ≠ uri := by
      rintro t ht rfl
      exact hc.tasks t (htasks ht) ((h.held t.uri).trans ((if_pos hname).trans hclosed))
    have hopened (other : String) :
        (c.server.addOpened uri).contains other = (c.server.texts.put uri text).contains other := by
      rw [Server.contains_addOpened, h.opened, Registry.contains_put]
    have hsubset := c.passed_subset (.opened uri text)
    have hmem := c.mem_passed (.opened uri text)
    simp only [step, hserve] at hsubset hmem ⊢
    have hpublish := publish_eq (c.server.index.opening uri text) uri
    rw [← publish_tasks (c.server.index.opening uri text) uri] at hscheduled
    have hopen := hc.opened hname hscheduled (hpublishes.trans hc.publishes) hsubset hmem
      (congrArg Index.settings hpublish).symm (congrArg snapshots hpublish).symm
      (fun _ hne => hc.scheduled.about_opening hne) hnone hs htext
    exact ⟨h.held_put hname text, hopened, rfl, Consistent.onIndex
      (s := { c.server with opened := c.server.addOpened uri, texts := c.server.texts.put uri text })
      hopen hopened⟩

end Sound

theorem Reachable.sound {c : Conversation} (h : c.Reachable) : c.Sound := by
  induction h with
  | start settings =>
    exact ⟨fun _ => (ite_self _).symm, fun _ => rfl, rfl,
      ⟨nofun, nofun, nofun, nofun, .nil, nofun, nofun⟩, rfl, nofun, nofun, nofun, nofun, nofun⟩
  | @step c input _ ha ih =>
    cases input with
    | opened uri text => exact ih.didOpen ha
    | changed uri text => exact ih.changed ha
    | closed uri => exact ih.closed uri
    | configured payload => exact ih.configured payload
    | discovered tree root => exact ih.discovered tree root
    | elapsed duration => exact ih.elapsed duration
    | ran task => exact ih.ran ha
    | noticed task => exact ih.noticed ha

/-- Whatever happens, the server has all documents open that the editor has, but for those with malformed names,
which it refuses. Each open document has been analysed, with the editor's latest text unless a task with this text
is pending. If nothing is pending, the problems sent last come from an analysis of the latest text. -/
theorem converges_to_editor {c : Conversation} (h : c.Reachable) :
    (∀ uri, c.server.isOpen uri = (c.texts.contains uri && Uri.isWellFormed uri)) ∧
    ∀ uri text, c.server.isOpen uri = true → c.texts.get? uri = some text →
      (∃ s, c.server.index.snapshot? uri = some s ∧ (s.text = text ∨ ∃ t ∈ c.server.index.tasks,
        t.uri = uri ∧ t.text = text ∧ c.server.index.pending.get? uri = some t.id)) ∧
      (c.server.index.hasPending uri = false →
        ∃ m ∈ c.passed, ∃ s ds, m.snapshot? uri = some s ∧ s.text = text ∧
          m.documentDiagnostics uri = .ok ds ∧
          (c.server.sent.filter (·.uri == uri)).getLast? = some ⟨uri, ds.map (·.forEditor)⟩) := by
  obtain ⟨hheld, hopened, hdelivered, hc⟩ := h.sound
  have hisOpen (uri : String) : c.server.isOpen uri = (c.texts.contains uri && Uri.isWellFormed uri) := by
    rw [hopened, Registry.contains, hheld, Registry.contains]
    cases Uri.isWellFormed uri <;> simp
  refine ⟨hisOpen, fun uri text hopen hlatest => ?_⟩
  have htext : c.server.texts.get? uri = some text := by
    rw [hisOpen, Bool.and_eq_true] at hopen
    rw [hheld, if_pos hopen.2, hlatest]
  obtain ⟨s, hs, hkeeps⟩ := hc.keepsUp uri text htext
  refine ⟨⟨s, hs, ?_⟩, fun hidle => ?_⟩
  · rcases hkeeps with ⟨t, ht, rfl, rfl, -⟩ | ⟨-, hanalysed⟩
    · exact .inr ⟨t, ht, rfl, rfl, hc.scheduled.pending_task t ht⟩
    · exact .inl hanalysed
  · have hanalysed : s.text = text := by
      rcases hkeeps with ⟨t, ht, rfl, -⟩ | ⟨-, hanalysed⟩
      · rw [Index.hasPending, Registry.contains, hc.scheduled.pending_task t ht] at hidle
        cases hidle
      · exact hanalysed
    obtain ⟨m, hm, ds, hds, hpresent, hlast⟩ := hc.shows uri text htext
    rw [outbox, Index.noticesOf, hdelivered, List.filter_nil, List.map_nil, List.append_nil] at hlast
    exact ⟨m, hm, s, ds, hpresent.trans hs, hanalysed, hds, hlast⟩

/-- One document is refused. Another one is edited until it calls a function of a third one, with an argument too
many. -/
def edited : Conversation :=
  [.opened "file://x[::1]/c.m" "", .opened "b" "function f(x)\nend", .opened "a" "f(",
    .changed "a" "f(1, 2);", .elapsed 500000000].foldl step (start .default)

theorem converges_to_editor_edited :
    edited.Reachable ∧ edited.server.isOpen "a" = true ∧ edited.texts.get? "a" = some "f(1, 2);" ∧
    ∃ m ∈ edited.passed, ∃ s ds, m.snapshot? "a" = some s ∧ s.text = "f(1, 2);" ∧
      m.documentDiagnostics "a" = .ok ds ∧
      (edited.server.sent.filter (·.uri == "a")).getLast? = some ⟨"a", ds.map (·.forEditor)⟩ ∧
      ds.map (·.code.number) = [5002] := by
  have hreachable : edited.Reachable :=
    .step (.step (.step (.step (.step (.start _) rfl) rfl) rfl) (show _ ≠ none by decide +kernel)) trivial
  have hopen : edited.server.isOpen "a" = true := by decide +kernel
  have htext : edited.texts.get? "a" = some "f(1, 2);" := by decide +kernel
  have hidle : edited.server.index.hasPending "a" = false := by decide +kernel
  have hcodes : (edited.server.sent.filter (·.uri == "a")).getLast?.map (·.diagnostics.map (·.code)) =
      some [5002] := by decide +kernel
  obtain ⟨m, hm, s, ds, hs, hanalysed, hds, hlast⟩ :=
    ((converges_to_editor hreachable).2 "a" _ hopen htext).2 hidle
  refine ⟨hreachable, hopen, htext, m, hm, s, ds, hs, hanalysed, hds, hlast, ?_⟩
  rw [hlast] at hcodes
  simpa [Diagnostic.forEditor] using hcodes

end Conversation

end MatrixScript
