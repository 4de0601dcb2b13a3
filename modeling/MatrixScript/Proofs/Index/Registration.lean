import MatrixScript.Proofs.Index.Bounds

/-! Names are looked up in the documents in the order in which these came into the index.

A document keeps its place as long as it is not closed, however often it is analysed again. -/
namespace MatrixScript

namespace Event

/-- A document that is analysed for the first time comes last, and all others stay where they are. -/
theorem apply_uris (i : Index) (e : Event) (hclose : ∀ uri, e ≠ .close uri) :
    (e.apply i).uris = (e.install? i).elim i.uris fun (uri, _, _) =>
      if uri ∈ i.uris then i.uris else i.uris ++ [uri] := by
  rw [Index.uris, apply_snapshots i e hclose]
  cases e.install? i with
  | none => rfl
  | some installed => exact Registry.names_put _ _ _

theorem close_uris (i : Index) (uri : String) :
    ((close uri).apply i).uris = i.uris.filter (· != uri) := by
  simp [Index.uris, apply, Index.close, Registry.names_erase]

/-- The index after a sequence of events. -/
def run (i : Index) (events : List Event) : Index := events.foldl apply i

theorem run_concat (i : Index) (events : List Event) (e : Event) :
    run i (events ++ [e]) = e.apply (run i events) := by
  simp [run]

/-- Whether an event installs an analysis of a document. -/
def Installs (i : Index) (e : Event) (uri : String) : Prop :=
  ∃ text version, e.install? i = some (uri, text, version)

/-- Event number `k` of a sequence installs an analysis of a document. -/
def InstallsAt (i : Index) (events : List Event) (k : Nat) (uri : String) : Prop :=
  ∃ e, events[k]? = some e ∧ Installs (run i (events.take k)) e uri

/-- Event number `k` of a sequence is the first one since a document was last closed that installs an analysis
of it, and the document is not closed again. -/
structure FirstInstalled (i : Index) (events : List Event) (uri : String) (k : Nat) : Prop where
  installs : InstallsAt i events k uri
  first : ∀ k' < k, InstallsAt i events k' uri → ∃ m, k' < m ∧ m < k ∧ events[m]? = some (.close uri)
  stays : ∀ m, k < m → events[m]? ≠ some (.close uri)

variable {i : Index} {events : List Event} {e : Event} {uri : String} {k : Nat}

theorem InstallsAt.lt_length (h : InstallsAt i events k uri) : k < events.length := by
  obtain ⟨e, he, -⟩ := h
  exact (List.getElem?_eq_some_iff.mp he).1

theorem installsAt_concat_of_lt (hk : k < events.length) :
    InstallsAt i (events ++ [e]) k uri ↔ InstallsAt i events k uri := by
  rw [InstallsAt, List.getElem?_append_left hk, List.take_append_of_le_length (Nat.le_of_lt hk)]
  rfl

theorem installsAt_concat_length :
    InstallsAt i (events ++ [e]) events.length uri ↔ Installs (run i events) e uri := by
  simp [InstallsAt]

theorem installsAt_concat : InstallsAt i (events ++ [e]) k uri ↔
    InstallsAt i events k uri ∨ (k = events.length ∧ Installs (run i events) e uri) := by
  constructor
  · intro h
    have hlt := h.lt_length
    rw [List.length_append, List.length_singleton] at hlt
    rcases Nat.lt_or_eq_of_le (Nat.le_of_lt_succ hlt) with hlt | rfl
    · exact .inl ((installsAt_concat_of_lt hlt).mp h)
    · exact .inr ⟨rfl, installsAt_concat_length.mp h⟩
  · rintro (h | ⟨rfl, h⟩)
    · exact (installsAt_concat_of_lt h.lt_length).mpr h
    · exact installsAt_concat_length.mpr h

theorem Installs.ne_close (h : Installs i e uri) (other : String) : e ≠ .close other := by
  rintro rfl
  obtain ⟨_, _, h⟩ := h
  cases h

theorem mem_apply_uris : uri ∈ (e.apply i).uris ↔
    (uri ∈ i.uris ∧ e ≠ .close uri) ∨ (uri ∉ i.uris ∧ Installs i e uri) := by
  by_cases hclose : ∃ other, e = .close other
  · obtain ⟨other, rfl⟩ := hclose
    have hnot : ¬Installs i (.close other) uri := fun h => h.ne_close other rfl
    rw [close_uris, List.mem_filter, bne_iff_ne, or_iff_left fun h => hnot h.2]
    refine and_congr_right fun _ => not_congr ?_
    rw [close.injEq]
    exact eq_comm
  · have hclose : ∀ other, e ≠ .close other := fun other h => hclose ⟨other, h⟩
    rw [apply_uris i e hclose, Installs]
    cases hinstall : e.install? i with
    | none => simp [hclose]
    | some installed =>
      obtain ⟨other, text, version⟩ := installed
      simp only [Option.elim_some, hclose, ne_eq, not_false_eq_true, and_true, Option.some.injEq,
        Prod.mk.injEq, exists_and_left, exists_eq', and_true]
      split_ifs with hmem
      · refine (or_iff_left ?_).symm
        rintro ⟨hnot, rfl⟩
        exact hnot hmem
      · rw [List.mem_append, List.mem_singleton]
        refine or_congr_right ⟨?_, fun h => h.2.symm⟩
        rintro rfl
        exact ⟨hmem, rfl⟩

/-- What is known of the documents after some events. `moment` tells when each of them came. -/
structure Registered (i : Index) (events : List Event) (moment : String → Nat) : Prop where
  installed_or_closed : ∀ k uri, InstallsAt i events k uri →
    uri ∈ (run i events).uris ∨ ∃ m, k < m ∧ events[m]? = some (.close uri)
  first_iff : ∀ uri k, FirstInstalled i events uri k ↔ uri ∈ (run i events).uris ∧ moment uri = k
  ordered : (run i events).uris.Pairwise (moment · < moment ·)

/-- An event is the first one to install a document exactly if the document was not there before. -/
theorem Registered.firstInstalled_concat {moment : String → Nat} (h : Registered i events moment) :
    FirstInstalled i (events ++ [e]) uri k ↔
      (FirstInstalled i events uri k ∧ e ≠ .close uri) ∨
        (k = events.length ∧ uri ∉ (run i events).uris ∧ Installs (run i events) e uri) := by
  have hlast : (events ++ [e])[events.length]? = some e := by simp
  constructor
  · rintro ⟨hinstalls, hfirst, hstays⟩
    rcases installsAt_concat.mp hinstalls with hold | ⟨rfl, hnew⟩
    · have hlt := hold.lt_length
      refine .inl ⟨⟨hold, fun k' hk' hinstalls' => ?_, fun m hm hclose => ?_⟩, ?_⟩
      · obtain ⟨m, hkm, hmk, hclose⟩ := hfirst k' hk' (installsAt_concat.mpr (.inl hinstalls'))
        rw [List.getElem?_append_left (by omega)] at hclose
        exact ⟨m, hkm, hmk, hclose⟩
      · have hm' := (List.getElem?_eq_some_iff.mp hclose).1
        exact hstays m hm (by rwa [List.getElem?_append_left hm'])
      · rintro rfl
        exact hstays _ hlt hlast
    · refine .inr ⟨rfl, fun hmem => ?_, hnew⟩
      have hmoment := (h.first_iff uri (moment uri)).mpr ⟨hmem, rfl⟩
      obtain ⟨m, hm, hlt, hclose⟩ := hfirst _ hmoment.installs.lt_length
        (installsAt_concat.mpr (.inl hmoment.installs))
      rw [List.getElem?_append_left hlt] at hclose
      exact hmoment.stays m hm hclose
  · rintro (⟨⟨hinstalls, hfirst, hstays⟩, hclose⟩ | ⟨rfl, hmem, hnew⟩)
    · have hlt := hinstalls.lt_length
      refine ⟨installsAt_concat.mpr (.inl hinstalls), fun k' hk' hinstalls' => ?_, fun m hm hm' => ?_⟩
      · obtain ⟨m, hkm, hmk, hclosed⟩ :=
          hfirst k' hk' ((installsAt_concat_of_lt (by omega)).mp hinstalls')
        exact ⟨m, hkm, hmk, by rwa [List.getElem?_append_left (by omega)]⟩
      · have hlength := (List.getElem?_eq_some_iff.mp hm').1
        rw [List.length_append, List.length_singleton] at hlength
        rcases Nat.lt_or_eq_of_le (Nat.le_of_lt_succ hlength) with hml | rfl
        · rw [List.getElem?_append_left hml] at hm'
          exact hstays m hm hm'
        · exact hclose (Option.some.inj (hlast.symm.trans hm'))
    · refine ⟨installsAt_concat_length.mpr hnew, fun k' hk' hinstalls' => ?_, fun m hm hclose => ?_⟩
      · rcases h.installed_or_closed k' uri ((installsAt_concat_of_lt hk').mp hinstalls') with hin | hclosed
        · exact absurd hin hmem
        · obtain ⟨m, hm, hclose⟩ := hclosed
          have hlt := (List.getElem?_eq_some_iff.mp hclose).1
          exact ⟨m, hm, hlt, by rwa [List.getElem?_append_left hlt]⟩
      · have hlength := (List.getElem?_eq_some_iff.mp hclose).1
        rw [List.length_append, List.length_singleton] at hlength
        omega

theorem Registered.moment_lt {moment : String → Nat} (h : Registered i events moment)
    (hmem : uri ∈ (run i events).uris) : moment uri < events.length :=
  ((h.first_iff uri _).mpr ⟨hmem, rfl⟩).installs.lt_length

/-- The documents that were there keep their moments, and one that comes has the moment of the event. -/
theorem Registered.concat {moment : String → Nat} (h : Registered i events moment) (e : Event) :
    Registered i (events ++ [e])
      fun uri => if uri ∈ (run i events).uris then moment uri else events.length where
  installed_or_closed k uri hinstalls := by
    rw [run_concat, mem_apply_uris]
    rcases installsAt_concat.mp hinstalls with hold | ⟨-, hnew⟩
    · rcases h.installed_or_closed k uri hold with hmem | ⟨m, hm, hclose⟩
      · by_cases hclose : e = .close uri
        · exact .inr ⟨events.length, hold.lt_length, by simp [hclose]⟩
        · exact .inl (.inl ⟨hmem, hclose⟩)
      · have hlt := (List.getElem?_eq_some_iff.mp hclose).1
        exact .inr ⟨m, hm, by rwa [List.getElem?_append_left hlt]⟩
    · by_cases hmem : uri ∈ (run i events).uris
      · exact .inl (.inl ⟨hmem, hnew.ne_close uri⟩)
      · exact .inl (.inr ⟨hmem, hnew⟩)
  first_iff uri k := by
    rw [h.firstInstalled_concat, h.first_iff, run_concat, mem_apply_uris]
    split_ifs with hmem <;> grind
  ordered := by
    have hkept : (run i events).uris.Pairwise fun a b =>
        (if a ∈ (run i events).uris then moment a else events.length) <
          if b ∈ (run i events).uris then moment b else events.length := by
      refine h.ordered.imp_of_mem fun ha hb hab => ?_
      rwa [if_pos ha, if_pos hb]
    rw [run_concat]
    by_cases hclose : ∃ other, e = .close other
    · obtain ⟨other, rfl⟩ := hclose
      rw [close_uris]
      exact hkept.filter _
    · rw [apply_uris _ e fun other h => hclose ⟨other, h⟩]
      cases e.install? (run i events) with
      | none => exact hkept
      | some installed =>
        obtain ⟨other, text, version⟩ := installed
        simp only [Option.elim_some]
        split_ifs with hmem
        · exact hkept
        · refine List.pairwise_append.mpr ⟨hkept, List.pairwise_singleton _ _, fun a ha b hb => ?_⟩
          obtain rfl := List.mem_singleton.mp hb
          rw [if_pos ha, if_neg hmem]
          exact h.moment_lt ha

theorem exists_registered (settings : Settings) (publishes : Bool) (events : List Event) :
    ∃ moment, Registered (.empty settings publishes) events moment := by
  induction events using List.reverseRecOn with
  | nil =>
    refine ⟨fun _ => 0, fun k uri h => ?_, fun uri k => ⟨fun h => ?_, fun h => ?_⟩, .nil⟩
    · exact absurd h.lt_length (Nat.not_lt_zero k)
    · exact absurd h.installs.lt_length (Nat.not_lt_zero k)
    · cases h.1
  | append_singleton events e ih =>
    obtain ⟨moment, h⟩ := ih
    exact ⟨_, h.concat e⟩

end Event

namespace Uri

/-- The last part of the path of a document's file; without a path, that of its name. -/
def fileName (uri : String) : String := Path.baseName ((toPath? uri).getD uri)

theorem stem?_eq_some_iff {uri extension name : String} (h : extension ≠ "") :
    stem? uri extension = some name ↔ fileName uri = name ++ extension := by
  have hempty : extension.isEmpty = false := by simpa using h
  unfold stem? fileName Path.endsWith
  generalize Path.baseName ((toPath? uri).getD uri) = base
  simp only [hempty, Bool.false_eq_true, if_false]
  rw [← String.toList_inj, String.toList_append]
  split_ifs with hsuffix
  · obtain ⟨stem, hstem⟩ := List.isSuffixOf_iff_suffix.mp hsuffix
    have htake : base.toList.take (base.length - extension.length) = stem := by
      rw [← String.length_toList, ← String.length_toList, ← hstem, List.length_append,
        Nat.add_sub_cancel, List.take_left]
    rw [htake, ← hstem, List.append_left_inj, Option.some.injEq, ← String.toList_inj, String.toList_ofList]
  · refine iff_of_false (by simp) fun heq => hsuffix ?_
    rw [heq]
    exact List.isSuffixOf_iff_suffix.mpr (List.suffix_append _ _)

end Uri

namespace Index

/-- The definitions of a name in one document that satisfy a condition, in the order of its analysis. -/
def definitionsWhere (i : Index) (uri name : String) (p : Definition → Bool) : List (InDocument Definition) :=
  (i.snapshot? uri).elim [] fun s =>
    (s.definitions.filter fun d => d.name == name && p d).map (⟨uri, ·⟩)

theorem localDefinitions_eq (i : Index) (uri name : String) :
    i.localDefinitions uri name = i.definitionsWhere uri name fun _ => true := by
  unfold localDefinitions definitionsNamed definitionsWhere
  cases i.snapshot? uri with
  | none => rfl
  | some s => simp [Snapshot.definitionsNamed]

/-- What is gathered from the entries of all documents but one. -/
theorem flatMap_others {i : Index} (h : i.uris.Nodup) (uri : String) {β : Type}
    (f : String × Snapshot → List β) :
    (i.snapshots.entries.filter (some ·.1 != some uri)).flatMap f =
      (i.uris.filter (· != uri)).flatMap fun other => (i.snapshot? other).elim [] fun s => f (other, s) := by
  have hfilter : i.uris.filter (· != uri) = (i.snapshots.entries.filter (some ·.1 != some uri)).map (·.1) := by
    rw [uris, Registry.names, List.filter_map]
    refine congrArg _ (List.filter_congr fun entry _ => ?_)
    simp [bne]
  rw [hfilter, List.flatMap_map]
  refine List.flatMap_congr fun entry hentry => ?_
  have hget := Registry.get?_of_mem h (List.mem_of_mem_filter hentry)
  simp only [snapshot?, hget, Option.elim_some]

theorem sharedDefinitions_eq {i : Index} (h : i.uris.Nodup) (uri name : String) :
    i.sharedDefinitions (some uri) name =
      (i.uris.filter (· != uri)).flatMap fun other => i.definitionsWhere other name (·.scope.isEmpty) := by
  refine (flatMap_others h uri _).trans (List.flatMap_congr fun other _ => ?_)
  unfold definitionsWhere
  cases i.snapshot? other with
  | none => rfl
  | some s =>
    simp only [Option.elim_some, Snapshot.definitionsNamed, List.filter_filter]
    refine congrArg _ (List.filter_congr fun d _ => ?_)
    rw [Bool.and_comm]
    rfl

theorem fileDefinitions_eq {i : Index} (h : i.settings.extension ≠ "") (name : String) :
    i.fileDefinitions name = (i.uris.filter fun other =>
      Uri.fileName other == name ++ i.settings.extension).map (⟨·, fileFunction name⟩) := by
  have hfilter : i.urisWithStem (some name) = i.uris.filter fun other =>
      Uri.fileName other == name ++ i.settings.extension := by
    refine List.filter_congr fun uri _ => ?_
    rw [Bool.eq_iff_iff, beq_iff_eq, beq_iff_eq]
    exact Uri.stem?_eq_some_iff h
  rw [fileDefinitions, hfilter]

theorem Reached.run {i : Index} (h : i.Reached) (events : List Event) : (Event.run i events).Reached := by
  induction events generalizing i with
  | nil => exact h
  | cons e events ih => exact ih (.event e h)

/-- Documents stand in the order of the moments when they came since they were last closed, each of them
once. A name is looked up in its own document, in the other ones in this order, and at last among their
files. The definitions of one document come in the order of its text unless a case follows the `otherwise`
of its switch. -/
theorem lookup_follows_registration (settings : Settings) (publishes : Bool) (events : List Event) :
    let i := Event.run (.empty settings publishes) events
    i.uris.Nodup ∧ (∀ uri, uri ∈ i.uris ↔ (i.snapshot? uri).isSome = true) ∧
    (∃ moment : String → Nat,
      (∀ uri k, Event.FirstInstalled (.empty settings publishes) events uri k ↔
        uri ∈ i.uris ∧ moment uri = k) ∧
      i.uris.Pairwise (moment · < moment ·)) ∧
    (∀ uri name, i.settings.extension ≠ "" → i.findDefinitions uri name =
      if ∀ other ∈ i.uris, Uri.isWellFormed other = true then
        .ok (i.definitionsWhere uri name (fun _ => true) ++
          (i.uris.filter (· != uri)).flatMap (i.definitionsWhere · name (·.scope.isEmpty)) ++
          (i.uris.filter fun other => Uri.fileName other == name ++ i.settings.extension).map
            (⟨·, .plain name .function .zero []⟩))
      else .error .malformedUri) ∧
    ∀ uri name s, i.snapshot? uri = some s → (∀ n ∈ s.program.nodes, n.CasesFirst) →
      (i.definitionsWhere uri name fun _ => true).Pairwise
        fun d d' => d.value.span.start ≤ d'.value.span.start := by
  intro i
  obtain ⟨moment, hregistered⟩ := Event.exists_registered settings publishes events
  have hnodup : i.uris.Nodup := by
    refine hregistered.ordered.imp fun {a b} hlt heq => ?_
    rw [heq] at hlt
    exact Nat.lt_irrefl _ hlt
  refine ⟨hnodup, fun uri => Registry.mem_names_iff _ _,
    ⟨moment, hregistered.first_iff, hregistered.ordered⟩, ?_, ?_⟩
  · intro uri name hextension
    have hmeanings : i.meanings (some uri) name = i.localDefinitions uri name ++
        i.sharedDefinitions (some uri) name ++ i.fileDefinitions name := rfl
    rw [findDefinitions, lookup, hmeanings, localDefinitions_eq, sharedDefinitions_eq hnodup,
      fileDefinitions_eq hextension]
    simp only [List.all_eq_true]
    rfl
  · intro uri name s hs hcases
    have hreached : i.Reached := (Reached.empty settings publishes).run events
    obtain ⟨text, version, rfl⟩ := hreached.snapshot hs
    have hordered := (Snapshot.analyze_laidOut defaultTokenLimit uri text version).definitions_ordered hcases
    rw [definitionsWhere, hs]
    exact List.pairwise_map.mpr (hordered.filter _)

/-- The first document comes back behind the second one, which was analysed late. -/
def reopening : List Event :=
  [.register "file:///w/a.m" "function f\nend", .change "file:///w/f.m" "x = 1;",
    .fire ⟨0, "file:///w/f.m", "x = 1;", 1, .unstarted⟩, .update "file:///w/a.m" "f = 2;",
    .close "file:///w/a.m", .register "file:///w/a.m" "function f\nend"]

theorem lookup_follows_registration_reopening :
    let i := Event.run (.empty .default false) reopening
    i.uris = ["file:///w/f.m", "file:///w/a.m"] ∧ i.settings.extension ≠ "" ∧
      i.findDefinitions "file:///w/f.m" "f" = .ok (i.definitionsWhere "file:///w/f.m" "f" (fun _ => true) ++
        (i.uris.filter (· != "file:///w/f.m")).flatMap (i.definitionsWhere · "f" (·.scope.isEmpty)) ++
        (i.uris.filter fun other => Uri.fileName other == "f" ++ i.settings.extension).map
          (⟨·, .plain "f" .function .zero []⟩)) ∧
      ∃ k k', Event.FirstInstalled (.empty .default false) reopening "file:///w/f.m" k ∧
        Event.FirstInstalled (.empty .default false) reopening "file:///w/a.m" k' ∧ k < k' := by
  intro i
  obtain ⟨huris, hextension, hnames⟩ : i.uris = ["file:///w/f.m", "file:///w/a.m"] ∧
      i.settings.extension ≠ "" ∧ ∀ other ∈ i.uris, Uri.isWellFormed other = true := by
    decide +kernel
  obtain ⟨-, -, ⟨moment, hfirst, hordered⟩, hfind, -⟩ :=
    lookup_follows_registration .default false reopening
  rw [show (Event.run (.empty .default false) reopening).uris = _ from huris] at hfirst hordered
  refine ⟨huris, hextension, (hfind _ _ hextension).trans (if_pos hnames), _, _,
    (hfirst _ _).mpr ⟨by simp, rfl⟩, (hfirst _ _).mpr ⟨by simp, rfl⟩, ?_⟩
  simpa using hordered

/-- The second function stands in a case behind the `otherwise`. -/
def lateCase : String := "switch x\notherwise\nfunction f\nend\ncase 1\nfunction f\nend\nend\n"

/-- The function that comes last in the text is found first. -/
theorem lateCase_found_first :
    let i := Event.run (.empty .default false) [.register "file:///a.m" lateCase]
    (i.findDefinitions "file:///a.m" "f").toOption.map (·.map (·.value.span)) =
      some [.ofNats 5 9 5 10, .ofNats 2 9 2 10] := by
  decide +kernel

end Index

end MatrixScript
