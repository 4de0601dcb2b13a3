import MatrixScript.Proofs.Server.Convergence

/-! Problems are sent about open documents only, and those of a closed document stay cleared.

No discipline of the editor is assumed: it may open a document twice, and change or close one that is
not open. -/
namespace MatrixScript

variable {s : Server} {uri : String}

namespace Server

/-- What can be asked of a server that may change it, in any order. Questions about names change
nothing. -/
inductive Call where
  | input (input : Input)
  /-- The editor introduces itself with settings. -/
  | introduced (payload : Payload)
  | shutDown

/-- Settings that cannot be read change nothing. -/
def answer (s : Server) : Call → Server
  | .input input => s.serve input
  | .introduced payload => (s.applySettings payload).toOption.getD s
  | .shutDown => s.shutdown

def run (s : Server) (calls : List Call) : Server := calls.foldl answer s

def Call.opens (uri : String) : Call → Bool
  | .input (.opened other _) => other == uri
  | _ => false

/-- The documents that are open while something is sent in the course of a call. A document is open from
the beginning of the call that opens it, unless it is refused, to the end of the call that closes it. -/
def openDuring (s : Server) : Call → List String
  | .input (.opened uri _) => if Uri.isWellFormed uri then s.addOpened uri else s.opened
  | _ => s.opened

/-- What was sent about a document. -/
def sentAbout (s : Server) (uri : String) : List Notification := s.sent.filter (·.uri == uri)

/-- From `s` to `s'` only problems of the documents `opened` were sent. -/
def SendsAbout (opened : List String) (s s' : Server) : Prop :=
  ∃ new, s'.sent = s.sent ++ new ∧ ∀ n ∈ new, n.uri ∈ opened

theorem SendsAbout.of_eq {opened : List String} {s' : Server} (h : s'.sent = s.sent) :
    SendsAbout opened s s' := by
  use []
  constructor
  · rw [h, List.append_nil]
  · intro n hn
    cases hn

theorem SendsAbout.sentAbout {opened : List String} {s' : Server} (h : SendsAbout opened s s')
    (hclosed : uri ∉ opened) : s'.sentAbout uri = s.sentAbout uri := by
  obtain ⟨new, hsent, hnew⟩ := h
  have hnone : new.filter (·.uri == uri) = [] := by
    apply List.filter_eq_nil_iff.mpr
    intro n hn huri
    have heq : n.uri = uri := by simpa using huri
    exact hclosed (heq ▸ hnew n hn)
  unfold Server.sentAbout
  rw [hsent, List.filter_append, hnone, List.append_nil]

theorem onIndex_sendsAbout (s : Server) (step : Index → Index) :
    SendsAbout s.opened s (s.onIndex step) := by
  unfold onIndex deliver
  refine ⟨_, rfl, ?_⟩
  intro n hn
  obtain ⟨notice, hnotice, rfl⟩ := List.mem_map.mp hn
  have hopen := (List.mem_filter.mp hnotice).2
  simpa [isOpen] using hopen

theorem didClose_sendsAbout (s : Server) (uri : String) : SendsAbout s.opened s (s.didClose uri) := by
  obtain ⟨new, hsent, hnew⟩ := s.onIndex_sendsAbout (·.close uri)
  by_cases hopen : s.isOpen uri = true
  · refine ⟨new ++ [⟨uri, []⟩], ?_, ?_⟩
    · rw [didClose_sent, hsent, if_pos hopen, List.append_assoc]
    · have hmem : uri ∈ s.opened := by simpa [isOpen] using hopen
      simpa [or_imp, forall_and, hmem] using hnew
  · refine ⟨new, ?_, hnew⟩
    rw [didClose_sent, hsent, if_neg hopen, List.append_nil]

/-- The three kinds of calls: those that work on the index and send what it publishes, the closing of a
document, and those that neither publish nor open or close anything. -/
theorem answer_cases (s : Server) (call : Call) :
    (∃ (t : Server) (step : Index → Index), t.sent = s.sent ∧ t.opened = s.openDuring call ∧
      s.answer call = t.onIndex step) ∨
    (∃ uri, call = .input (.closed uri)) ∨
    (s.openDuring call = s.opened ∧ (s.answer call).sent = s.sent ∧ (s.answer call).opened = s.opened ∧
      (s.answer call).index.notices = s.index.notices) := by
  cases call with
  | shutDown => exact .inl ⟨s, _, rfl, rfl, rfl⟩
  | introduced payload =>
    right; right
    have hanswer : s.answer (.introduced payload) = (s.applySettings payload).toOption.getD s := rfl
    unfold applySettings at hanswer
    cases hsettings : s.settings.update payload with
    | error e =>
      rw [hsettings] at hanswer
      rw [hanswer]
      exact ⟨rfl, rfl, rfl, rfl⟩
    | ok settings =>
      rw [hsettings] at hanswer
      rw [hanswer]
      exact ⟨rfl, rfl, rfl, rfl⟩
  | input input =>
    cases input with
    | opened uri text =>
      have hanswer : s.answer (.input (.opened uri text)) = _ := s.didOpen_eq uri text
      rw [hanswer, openDuring]
      split_ifs
      · exact .inl ⟨{ s with opened := s.addOpened uri, texts := s.texts.put uri text },
          fun i => (i.opening uri text).publish uri, rfl, rfl, rfl⟩
      · exact .inr (.inr ⟨rfl, rfl, rfl, rfl⟩)
    | changed uri text =>
      have hanswer : s.answer (.input (.changed uri text)) = _ := s.didChange_eq uri text
      rw [hanswer]
      split_ifs
      · exact .inl ⟨{ s with texts := s.texts.put uri text }, (·.change uri text), rfl, rfl, rfl⟩
      · exact .inr (.inr ⟨rfl, rfl, rfl, rfl⟩)
    | closed uri => exact .inr (.inl ⟨uri, rfl⟩)
    | elapsed duration => exact .inl ⟨s, (·.advance duration), rfl, rfl, rfl⟩
    | ran task => exact .inl ⟨s, (·.fire task), rfl, rfl, rfl⟩
    | noticed task => exact .inl ⟨s, (·.forget task.uri task.id), rfl, rfl, rfl⟩
    | discovered tree root =>
      right; right
      obtain ⟨snapshots, versions, hfound⟩ := s.discover_eq tree root
      have hanswer : s.answer (.input (.discovered tree root)) = (s.discover tree root).1 := rfl
      rw [hanswer, hfound]
      exact ⟨rfl, rfl, rfl, rfl⟩
    | configured payload =>
      have hanswer : s.answer (.input (.configured payload)) = (s.configure payload).toOption.getD s := rfl
      rw [configure_eq] at hanswer
      cases hsettings : s.settings.update payload with
      | error e =>
        right; right
        rw [hsettings] at hanswer
        rw [hanswer]
        exact ⟨rfl, rfl, rfl, rfl⟩
      | ok settings =>
        left
        rw [hsettings] at hanswer
        exact ⟨{ s with index := { s.index with settings } }, fun i =>
          (s.sortedOpened.takeWhile fun uri => (i.publishError? uri).isNone).foldl Index.publish i,
          rfl, rfl, hanswer⟩

/-- What a call sends, it sends about documents that are open at that time. -/
theorem answer_sendsAbout (s : Server) (call : Call) :
    SendsAbout (s.openDuring call) s (s.answer call) := by
  rcases s.answer_cases call with ⟨t, step, hsent, hopened, hanswer⟩ | ⟨uri, rfl⟩ | ⟨-, hsent, -, -⟩
  · obtain ⟨new, hnew, hmem⟩ := t.onIndex_sendsAbout step
    refine ⟨new, ?_, ?_⟩
    · rw [hanswer, hnew, hsent]
    · rwa [← hopened]
  · exact s.didClose_sendsAbout uri
  · exact .of_eq hsent

/-- A document that is closed during a call is closed behind it. -/
theorem not_mem_opened_answer {call : Call} (h : uri ∉ s.openDuring call) :
    uri ∉ (s.answer call).opened := by
  rcases s.answer_cases call with ⟨t, step, -, hopened, hanswer⟩ | ⟨other, rfl⟩ | ⟨hduring, -, hopened, -⟩
  · rw [hanswer]
    rwa [← hopened] at h
  · intro hmem
    exact h (List.mem_filter.mp hmem).1
  · rwa [hopened, ← hduring]

/-- A closed document stays closed during a call that does not open it. -/
theorem not_mem_openDuring {call : Call} (hopens : call.opens uri = false)
    (hclosed : uri ∉ s.opened) : uri ∉ s.openDuring call := by
  unfold openDuring
  split
  · rename_i other text
    have hne : other ≠ uri := by simpa [Call.opens] using hopens
    have hadd : uri ∉ s.addOpened other := by
      rw [← List.contains_iff_mem, contains_addOpened]
      simp [isOpen, hclosed, hne.symm]
    split_ifs
    · exact hadd
    · exact hclosed
  · exact hclosed

/-- Between calls nothing is left to be sent. -/
theorem answer_notices (h : s.index.notices = []) (call : Call) :
    (s.answer call).index.notices = [] := by
  rcases s.answer_cases call with ⟨t, step, -, -, hanswer⟩ | ⟨uri, rfl⟩ | ⟨-, -, -, hnotices⟩
  · rw [hanswer]
    rfl
  · rfl
  · rw [hnotices, h]

theorem run_notices (h : s.index.notices = []) (calls : List Call) :
    (s.run calls).index.notices = [] := by
  induction calls generalizing s with
  | nil => exact h
  | cons call rest ih => exact ih (answer_notices h call)

/-- Nothing is sent about a closed document until it is opened. -/
theorem run_sentAbout (hclosed : uri ∉ s.opened) {calls : List Call}
    (hcalls : ∀ call ∈ calls, call.opens uri = false) :
    uri ∉ (s.run calls).opened ∧ (s.run calls).sentAbout uri = s.sentAbout uri := by
  induction calls generalizing s with
  | nil => exact ⟨hclosed, rfl⟩
  | cons call rest ih =>
    obtain ⟨hcall, hrest⟩ := List.forall_mem_cons.mp hcalls
    have hduring : uri ∉ s.openDuring call := not_mem_openDuring hcall hclosed
    obtain ⟨hopened, hsent⟩ := ih (not_mem_opened_answer hduring) hrest
    exact ⟨hopened, hsent.trans ((s.answer_sendsAbout call).sentAbout hduring)⟩

theorem didClose_sentAbout (h : s.index.notices = []) (hopen : uri ∈ s.opened) :
    (s.didClose uri).sentAbout uri = s.sentAbout uri ++ [⟨uri, []⟩] := by
  have hnotices : (s.index.close uri).notices = [] := by
    unfold Index.close Index.cancel
    split <;> exact h
  have hindex : (s.onIndex (·.close uri)).sent = s.sent := by
    simp [onIndex, deliver, hnotices]
  have hisOpen : s.isOpen uri = true := by simpa [isOpen] using hopen
  unfold sentAbout
  rw [didClose_sent, hindex, if_pos hisOpen, List.filter_append]
  simp

/-- Whatever is asked of a server, it sends problems only of documents that are open while it does so.
When an open document is closed, an empty list is sent about it, and then nothing more until it is
opened again. -/
theorem closed_documents_stay_clear (settings : Settings) (calls : List Call) :
    (∀ call, SendsAbout (((new settings).run calls).openDuring call) ((new settings).run calls)
      (((new settings).run calls).answer call)) ∧
    ∀ (uri : String) (later : List Call), uri ∈ ((new settings).run calls).opened →
      (∀ call ∈ later, call.opens uri = false) →
      uri ∉ ((new settings).run (calls ++ .input (.closed uri) :: later)).opened ∧
      ((new settings).run (calls ++ .input (.closed uri) :: later)).sentAbout uri =
        ((new settings).run calls).sentAbout uri ++ [⟨uri, []⟩] := by
  constructor
  · intro call
    exact answer_sendsAbout _ call
  · intro uri later hopen hlater
    have hdelivered : ((new settings).run calls).index.notices = [] := run_notices rfl calls
    have hrun : (new settings).run (calls ++ .input (.closed uri) :: later) =
        (((new settings).run calls).didClose uri).run later := by
      unfold run
      rw [List.foldl_append, List.foldl_cons]
      rfl
    have hclosed : uri ∉ (((new settings).run calls).didClose uri).opened := by
      intro hmem
      simpa using (List.mem_filter.mp hmem).2
    obtain ⟨hstays, hsent⟩ := run_sentAbout hclosed hlater
    rw [hrun, hsent, didClose_sentAbout hdelivered hopen]
    exact ⟨hstays, rfl⟩

/-- A document with a problem is open. -/
def shown : List Call := [.input (.opened "a" "x = 1")]

/-- The closed document is edited nevertheless, the edit is analysed, and it is closed again. -/
def editedLate : List Call :=
  [.input (.changed "a" "y = 2"), .input (.elapsed 500000000), .input (.closed "a")]

theorem closed_documents_stay_clear_editedLate :
    "a" ∈ ((new .default).run shown).opened ∧
    (((new .default).run shown).sentAbout "a").map (·.diagnostics.length) = [1] ∧
    (∀ call ∈ editedLate, call.opens "a" = false) ∧
    "a" ∉ ((new .default).run (shown ++ .input (.closed "a") :: editedLate)).opened ∧
    ((new .default).run (shown ++ .input (.closed "a") :: editedLate)).sentAbout "a" =
      ((new .default).run shown).sentAbout "a" ++ [⟨"a", []⟩] :=
  have hopen : "a" ∈ ((new .default).run shown).opened := by decide +kernel
  have hshown : (((new .default).run shown).sentAbout "a").map (·.diagnostics.length) = [1] := by
    decide +kernel
  have hlate : ∀ call ∈ editedLate, call.opens "a" = false := by decide
  ⟨hopen, hshown, hlate, (closed_documents_stay_clear .default shown).2 "a" editedLate hopen hlate⟩

end Server

end MatrixScript
