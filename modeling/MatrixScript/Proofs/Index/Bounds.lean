import MatrixScript.Proofs.Document.Layout
import MatrixScript.Proofs.Index.Session

/-! Everything that is shown as a problem of a document lies in the text of this document.

The spans come from the tree and from the symbols of the analysis, and an index keeps nothing but analyses,
whatever happens to it. -/
namespace MatrixScript

variable {i : Index} {s : Snapshot} {uri : String}

/-- What is reported about a call is never reported about a dotted name. -/
theorem Snapshot.LaidOut.function_valid (h : s.LaidOut) {r : Reference} (hr : r ∈ s.references)
    (hkind : r.kind = .function) : r.span.Valid (Position.IsIn s.text.toList) := by
  refine (h.reference_valid_or_path hr).resolve_right fun hpath => ?_
  rw [hkind] at hpath
  exact Reference.Kind.noConfusion hpath.1

theorem repeatedNames_subset (seen : List String) (ds : List Definition) : repeatedNames seen ds ⊆ ds := by
  induction ds generalizing seen with
  | nil => exact List.nil_subset _
  | cons d ds ih =>
    rw [repeatedNames]
    split_ifs
    · exact List.cons_subset_cons _ (ih seen)
    · exact List.Subset.trans (ih _) (List.subset_cons_self _ _)

theorem takeAtMost_subset {α : Type} (n : Int) (xs : List α) : takeAtMost n xs ⊆ xs := by
  unfold takeAtMost
  split_ifs
  · exact List.take_subset _ _
  · exact List.take_subset _ _

namespace Index

theorem argumentProblem?_eq_some {r : Reference} {d : Diagnostic}
    (h : i.argumentProblem? uri r = some d) :
    r.kind = .function ∧ r.argumentCount.isSome = true ∧ d.span = r.span ∧ d.code = .tooManyArguments := by
  obtain ⟨_, hguard, h⟩ := Option.bind_eq_some_iff.mp h
  obtain ⟨given, hgiven, h⟩ := Option.bind_eq_some_iff.mp h
  obtain ⟨function, _, h⟩ := Option.bind_eq_some_iff.mp h
  obtain ⟨_, _, hd⟩ := Option.bind_eq_some_iff.mp h
  cases hd
  refine ⟨?_, Option.isSome_of_mem hgiven, rfl, rfl⟩
  by_contra hne
  rw [guard, if_neg (fun h => hne (beq_iff_eq.mp h))] at hguard
  contradiction

/-- The problems of a document lie in its text, whichever other documents there are. -/
theorem problems_valid (i : Index) (h : s.LaidOut) :
    ∀ d ∈ i.problems s, d.span.Valid (Position.IsIn s.text.toList) := by
  intro d hd
  simp only [problems, List.mem_append] at hd
  rcases hd with ((hd | hd) | hd) | hd
  · exact h.diagnostics d hd
  · obtain ⟨f, hf, rfl⟩ := List.mem_map.mp hd
    exact h.definition_valid (List.mem_of_mem_filter (repeatedNames_subset _ _ hf))
  · obtain ⟨r, hr, hproblem⟩ := List.mem_filterMap.mp hd
    obtain ⟨hkind, _, hspan, _⟩ := argumentProblem?_eq_some hproblem
    exact hspan ▸ h.function_valid hr hkind
  · split_ifs at hd
    · obtain ⟨r, hr, rfl⟩ := List.mem_map.mp hd
      obtain ⟨hr, hcall⟩ := List.mem_filter.mp hr
      exact h.function_valid hr (beq_iff_eq.mp (Bool.and_eq_true_iff.mp hcall).1)
    · exact absurd hd List.not_mem_nil

/-- The indexes that come about by any sequence of events, with any changes of the settings between
them. -/
inductive Reached : Index → Prop where
  | empty (settings : Settings) (publishes : Bool) : Reached (.empty settings publishes)
  | event {i : Index} (e : Event) : Reached i → Reached (e.apply i)
  | configure {i : Index} (settings : Settings) : Reached i → Reached { i with settings }
  | publish {i : Index} (uri : String) : Reached i → Reached (i.publish uri)

/-- An event keeps an analysis as it is, drops it or puts another one in its place. -/
theorem apply_snapshot? {e : Event} (h : (e.apply i).snapshot? uri = some s) :
    i.snapshot? uri = some s ∨ ∃ text version, s = .analyze defaultTokenLimit uri text version := by
  by_cases hclose : ∃ closed, e = .close closed
  · obtain ⟨closed, rfl⟩ := hclose
    simp only [snapshot?, Event.apply, close, cancel_snapshots, Registry.get?_erase] at h
    split_ifs at h
    exact .inl h
  · rw [snapshot?, Event.apply_snapshots i e fun closed he => hclose ⟨closed, he⟩] at h
    cases hinstall : e.install? i with
    | none =>
      rw [hinstall] at h
      exact .inl h
    | some installed =>
      obtain ⟨other, text, version⟩ := installed
      simp only [hinstall, Option.elim_some, Registry.get?_put] at h
      split_ifs at h with heq
      · cases h
        exact .inr ⟨text, version, heq ▸ rfl⟩
      · exact .inl h

theorem Reached.snapshot (h : i.Reached) (hs : i.snapshot? uri = some s) : ∃ text version, s = .analyze defaultTokenLimit uri text version := by
  induction h with
  | empty settings publishes => cases hs
  | event e _ ih =>
    obtain hs | hnew := apply_snapshot? hs
    · exact ih hs
    · exact hnew
  | configure settings _ ih => exact ih hs
  | publish other _ ih => exact ih (by rwa [snapshot?, publish_snapshots] at hs)

theorem documentDiagnostics_subset {ds : List Diagnostic} (hs : i.snapshot? uri = some s)
    (hds : i.documentDiagnostics uri = .ok ds) : ds ⊆ i.problems s := by
  have hshown : ds = takeAtMost i.settings.maxProblems (i.problems s) := by
    simp only [documentDiagnostics, hs, lookup] at hds
    split_ifs at hds <;> cases hds <;> rfl
  rw [hshown]
  exact takeAtMost_subset _ _

/-- Every problem lies in the text: the nodes of a tree and the diagnostics of its analysis, and all that is
shown about a document of an index. -/
theorem problems_in_text :
    (∀ (limit : Int) (uri text : String) (version : Int),
      (∀ n ∈ (Snapshot.analyze limit uri text version).program.nodes,
        n.span.Valid (Position.IsIn text.toList)) ∧
      ∀ d ∈ (Snapshot.analyze limit uri text version).diagnostics,
        d.span.Valid (Position.IsIn text.toList)) ∧
    ∀ (i : Index) (uri : String) (s : Snapshot) (ds : List Diagnostic), i.Reached →
      i.snapshot? uri = some s → i.documentDiagnostics uri = .ok ds →
        ∀ d ∈ ds, d.span.Valid (Position.IsIn s.text.toList) := by
  constructor
  · intro limit uri text version
    have hlaid := Snapshot.analyze_laidOut limit uri text version
    have hnodes := hlaid.nodes_valid
    have hdiagnostics := hlaid.diagnostics
    rw [Snapshot.analyze_text] at hnodes hdiagnostics
    exact ⟨hnodes, hdiagnostics⟩
  · intro i uri s ds hi hs hds d hd
    obtain ⟨text, version, rfl⟩ := hi.snapshot hs
    exact i.problems_valid (Snapshot.analyze_laidOut _ _ _ _) d (documentDiagnostics_subset hs hds hd)

/-- A function that is defined twice and called with too many arguments, an unknown function, and a value
that is not one. -/
def problemText : String := "function g(a)\nend\nfunction g(b)\nend\ng(1, 2);\nh(3);\nx = (;"

/-- An index that is to report unknown functions. -/
def problemIndex : Index :=
  { (Event.update "a" problemText).apply (.empty .default false) with
    settings := ⟨1000, none, 0.5, ".m", true⟩ }

theorem problems_in_text_problemIndex :
    ((Snapshot.analyze 2 "" "x = 1" 0).diagnostics.map (·.code) = [.tokenLimit] ∧
      ∀ d ∈ (Snapshot.analyze 2 "" "x = 1" 0).diagnostics, d.span.Valid (Position.IsIn "x = 1".toList)) ∧
    ∃ ds, problemIndex.documentDiagnostics "a" = .ok ds ∧ ds.map (·.code) =
      [.unexpectedNewline, .unexpectedNewline, .duplicateDefinition, .tooManyArguments,
        .unresolvedReference] ∧ ∀ d ∈ ds, d.span.Valid (Position.IsIn problemText.toList) := by
  refine ⟨⟨by decide +kernel, (problems_in_text.1 2 "" "x = 1" 0).2⟩, ?_⟩
  have hreached : problemIndex.Reached := .configure _ (.event _ (.empty _ _))
  have hcodes : (problemIndex.documentDiagnostics "a").toOption.map (·.map (·.code)) =
      some [.unexpectedNewline, .unexpectedNewline, .duplicateDefinition, .tooManyArguments,
        .unresolvedReference] := by decide +kernel
  cases hds : problemIndex.documentDiagnostics "a" with
  | error e =>
    rw [hds] at hcodes
    cases hcodes
  | ok ds =>
    rw [hds] at hcodes
    refine ⟨ds, rfl, Option.some.inj hcodes, fun d hd => ?_⟩
    have hvalid := problems_in_text.2 problemIndex "a" (.analyze defaultTokenLimit "a" problemText 1) ds
      hreached rfl hds d hd
    rwa [Snapshot.analyze_text] at hvalid

end Index

end MatrixScript
