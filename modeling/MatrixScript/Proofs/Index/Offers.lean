import MatrixScript.Completion
import MatrixScript.Proofs.Index.Arguments
import MatrixScript.Proofs.Index.Registration

/-! What is offered for the names that the documents define.

Main statements: for each name one offer is made, from its first definition in the document itself or, if
there is none, from the first shared function of another one. What is shown about a chosen offer comes from
the first definition of the name in that document, which need not be the function. -/
namespace MatrixScript

variable {i : Index} {uri : String}

namespace Completion

variable {seen : List String} {item : Completion} {items : List Completion} {label : String} {k : Nat}

theorem label_mem_firstOfEach : label ∈ (firstOfEach seen items).map (·.label) ↔
    label ∈ items.map (·.label) ∧ label ∉ seen := by
  induction items generalizing seen with
  | nil => simp [firstOfEach]
  | cons item rest ih =>
    rw [firstOfEach]
    split_ifs <;> grind

theorem nodup_firstOfEach (seen : List String) (items : List Completion) :
    ((firstOfEach seen items).map (·.label)).Nodup := by
  induction items generalizing seen with
  | nil => exact List.nodup_nil
  | cons item rest ih =>
    rw [firstOfEach]
    split_ifs
    · exact ih seen
    · rw [List.map_cons, List.nodup_cons, label_mem_firstOfEach]
      exact ⟨fun h => h.2 List.mem_cons_self, ih _⟩

/-- The item at place `k` has a new label, and none before it has the same one. -/
def IsFirst (seen : List String) (items : List Completion) (k : Nat) : Prop :=
  ∃ item, items[k]? = some item ∧ item.label ∉ seen ∧
    ∀ j < k, ∀ other, items[j]? = some other → other.label ≠ item.label

theorem isFirst_cons_zero : IsFirst seen (item :: items) 0 ↔ item.label ∉ seen := by
  simp [IsFirst]

theorem isFirst_cons_succ :
    IsFirst seen (item :: items) (k + 1) ↔ IsFirst (item.label :: seen) items k := by
  simp only [IsFirst, List.getElem?_cons_succ, List.mem_cons, not_or]
  refine exists_congr fun found => and_congr_right fun _ => ?_
  constructor
  · rintro ⟨hnew, hfirst⟩
    exact ⟨⟨fun h => hfirst 0 (Nat.succ_pos k) item rfl h.symm, hnew⟩,
      fun j hj other hother => hfirst (j + 1) (Nat.succ_lt_succ hj) other hother⟩
  · rintro ⟨⟨hne, hnew⟩, hfirst⟩
    refine ⟨hnew, fun j hj other hother => ?_⟩
    cases j with
    | zero =>
      cases hother
      exact hne ∘ Eq.symm
    | succ j => exact hfirst j (Nat.lt_of_succ_lt_succ hj) other hother

theorem isFirst_seen (h : label ∈ seen) : IsFirst (label :: seen) items k ↔ IsFirst seen items k := by
  refine exists_congr fun found => and_congr_right fun _ => and_congr_left fun _ => not_congr ?_
  rw [List.mem_cons, or_iff_right_of_imp]
  rintro rfl
  exact h

/-- The items that are kept are those at the first places of their labels, in the same order. -/
theorem firstOfEach_places (seen : List String) (items : List Completion) :
    ∃ places : List Nat, places.Pairwise (· < ·) ∧ (∀ k, k ∈ places ↔ IsFirst seen items k) ∧
      (firstOfEach seen items).map some = places.map (items[·]?) := by
  induction items generalizing seen with
  | nil => exact ⟨[], .nil, fun k => by simp [IsFirst], rfl⟩
  | cons item rest ih =>
    have hmem {places : List Nat} (hfirst : ∀ k, k ∈ places ↔ IsFirst (item.label :: seen) rest k) (k : Nat) :
        k + 1 ∈ places.map (· + 1) ↔ IsFirst seen (item :: rest) (k + 1) := by
      rw [isFirst_cons_succ, ← hfirst]
      simp
    by_cases hseen : item.label ∈ seen
    · obtain ⟨places, hordered, hfirst, hkept⟩ := ih seen
      refine ⟨places.map (· + 1), List.pairwise_map.mpr (hordered.imp Nat.succ_lt_succ), fun k => ?_, ?_⟩
      · cases k with
        | zero => simp [isFirst_cons_zero, hseen]
        | succ k => exact hmem (fun k => (hfirst k).trans (isFirst_seen hseen).symm) k
      · rw [firstOfEach, if_pos (by simpa using hseen), hkept, List.map_map]
        rfl
    · obtain ⟨places, hordered, hfirst, hkept⟩ := ih (item.label :: seen)
      refine ⟨0 :: places.map (· + 1), List.pairwise_cons.mpr ⟨by simp, ?_⟩, fun k => ?_, ?_⟩
      · exact List.pairwise_map.mpr (hordered.imp Nat.succ_lt_succ)
      · cases k with
        | zero => simp [isFirst_cons_zero, hseen]
        | succ k => rw [← hmem hfirst, List.mem_cons, or_iff_right (Nat.succ_ne_zero k)]
      · rw [firstOfEach, if_neg (by simpa using hseen), List.map_cons, List.map_cons, hkept, List.map_map]
        rfl

theorem label_not_mem_seen (h : item ∈ firstOfEach seen items) : item.label ∉ seen :=
  (label_mem_firstOfEach.mp (List.mem_map_of_mem h)).2

/-- An item that is kept is the first one with its label. -/
theorem find?_of_mem_firstOfEach (h : item ∈ firstOfEach seen items) :
    items.find? (·.label == item.label) = some item := by
  induction items generalizing seen with
  | nil => cases h
  | cons head rest ih =>
    rw [firstOfEach] at h
    split_ifs at h with hseen
    · have hne : head.label ≠ item.label := by
        intro heq
        exact label_not_mem_seen h (heq ▸ by simpa using hseen)
      rw [List.find?_cons_of_neg (by simpa using hne)]
      exact ih h
    · obtain rfl | hrest := List.mem_cons.mp h
      · simp
      · have hne : head.label ≠ item.label := fun heq => label_not_mem_seen hrest (heq ▸ List.mem_cons_self)
        rw [List.find?_cons_of_neg (by simpa using hne)]
        exact ih hrest

end Completion

namespace Index

open Completion

/-- The offer of a definition of a document. -/
def offer (i : Index) (d : InDocument Definition) : Completion :=
  ofDefinition d.uri (i.definitionsIn d.uri) d.value

/-- The functions of a document that are offered in the others. -/
def sharedFunctions (i : Index) (uri : String) : List Definition :=
  (i.definitionsIn uri).filter fun d => d.isFunction && d.isTopLevel

/-- The definitions that can be offered in a document: its own ones, then the shared functions of the others
in the order of the index. -/
def offerable (i : Index) (uri : String) : List (InDocument Definition) :=
  (i.definitionsIn uri).map (⟨uri, ·⟩) ++
    (i.uris.filter (· != uri)).flatMap fun other => (i.sharedFunctions other).map (⟨other, ·⟩)

theorem topLevelFunctions_eq (h : i.uris.Nodup) (uri : String) :
    i.topLevelFunctions (some uri) =
      (i.uris.filter (· != uri)).flatMap fun other => (i.sharedFunctions other).map (⟨other, ·⟩) := by
  refine (flatMap_others h uri _).trans (List.flatMap_congr fun other _ => ?_)
  unfold sharedFunctions definitionsIn
  cases i.snapshot? other <;> rfl

theorem definitionCompletions_eq (h : i.uris.Nodup) (uri : String) :
    i.definitionCompletions uri = firstOfEach [] ((i.offerable uri).map i.offer) := by
  rw [definitionCompletions, topLevelFunctions_eq h, offerable, List.map_append, List.map_map]
  rfl

theorem isFirst_offer {ds : List (InDocument Definition)} {k : Nat} :
    IsFirst [] (ds.map i.offer) k ↔ ∃ d, ds[k]? = some d ∧
      ∀ j < k, ∀ d', ds[j]? = some d' → d'.value.name ≠ d.value.name := by
  simp [IsFirst, offer, ofDefinition]

theorem mem_definitionsIn {d : Definition} (h : d ∈ i.definitionsIn uri) :
    uri ∈ i.uris := by
  unfold definitionsIn at h
  rw [uris, Registry.mem_names_iff, Registry.contains]
  cases hs : i.snapshots.get? uri with
  | none =>
    rw [snapshot?, hs] at h
    cases h
  | some s => rfl

theorem mem_sharedFunctions {d : Definition} : d ∈ i.sharedFunctions uri ↔
    d ∈ i.definitionsIn uri ∧ d.kind = .function ∧ d.scope = [] := by
  simp [sharedFunctions, Definition.isFunction, Definition.isTopLevel]

theorem mem_offerable {d : InDocument Definition} : d ∈ i.offerable uri ↔
    d.uri = uri ∧ d.value ∈ i.definitionsIn uri ∨ d.uri ≠ uri ∧ d.value ∈ i.sharedFunctions d.uri := by
  obtain ⟨other, d⟩ := d
  simp only [offerable, List.mem_append, List.mem_map, List.mem_flatMap, List.mem_filter, bne_iff_ne,
    InDocument.mk.injEq]
  refine or_congr ⟨?_, ?_⟩ ⟨?_, ?_⟩
  · rintro ⟨_, hd, rfl, rfl⟩
    exact ⟨rfl, hd⟩
  · rintro ⟨rfl, hd⟩
    exact ⟨d, hd, rfl, rfl⟩
  · rintro ⟨_, ⟨_, hne⟩, _, hd, rfl, rfl⟩
    exact ⟨hne, hd⟩
  · rintro ⟨hne, hd⟩
    exact ⟨other, ⟨mem_definitionsIn (mem_sharedFunctions.mp hd).1, hne⟩, d, hd, rfl, rfl⟩

/-- Each name is offered once, for the first definition among the definitions of the document itself and the
functions that the others share. The definitions of a document come in the order of its text unless a case
follows the `otherwise` of its switch. The others come in the order in which they came into the index. -/
theorem completions_exact {i : Index} (h : i.Reached) (uri : String) :
    ((i.definitionCompletions uri).map (·.label)).Nodup ∧
    (∀ name, name ∈ (i.definitionCompletions uri).map (·.label) ↔
      (∃ d ∈ i.definitionsIn uri, d.name = name) ∨
        ∃ other, other ≠ uri ∧ ∃ d ∈ i.definitionsIn other, d.kind = .function ∧ d.scope = [] ∧ d.name = name) ∧
    (∃ places : List Nat, places.Pairwise (· < ·) ∧
      (∀ k, k ∈ places ↔ ∃ d, (i.offerable uri)[k]? = some d ∧
        ∀ j < k, ∀ d', (i.offerable uri)[j]? = some d' → d'.value.name ≠ d.value.name) ∧
      (i.definitionCompletions uri).map some = places.map fun k => (i.offerable uri)[k]?.map i.offer) ∧
    (∀ s, i.snapshot? uri = some s → (∀ n ∈ s.program.nodes, n.CasesFirst) →
      (i.definitionsIn uri).Pairwise fun d d' => d.span.start ≤ d'.span.start) ∧
    ∀ settings publishes events, i = Event.run (.empty settings publishes) events →
      ∃ moment : String → Nat,
        (∀ other k, Event.FirstInstalled (.empty settings publishes) events other k ↔
          other ∈ i.uris ∧ moment other = k) ∧
        i.uris.Pairwise (moment · < moment ·) := by
  have hoffers := definitionCompletions_eq h.nodup uri
  refine ⟨?_, fun name => ?_, ?_, fun s hs hcases => ?_, ?_⟩
  · rw [hoffers]
    exact nodup_firstOfEach _ _
  · rw [hoffers, label_mem_firstOfEach]
    simp only [List.map_map, List.mem_map, mem_offerable, List.not_mem_nil, not_false_eq_true, and_true]
    constructor
    · rintro ⟨⟨other, d⟩, ⟨rfl, hd⟩ | ⟨hne, hd⟩, rfl⟩
      · exact .inl ⟨d, hd, rfl⟩
      · obtain ⟨hd, hkind, hscope⟩ := mem_sharedFunctions.mp hd
        exact .inr ⟨other, hne, d, hd, hkind, hscope, rfl⟩
    · rintro (⟨d, hd, rfl⟩ | ⟨other, hne, d, hd, hkind, hscope, rfl⟩)
      · exact ⟨⟨uri, d⟩, .inl ⟨rfl, hd⟩, rfl⟩
      · exact ⟨⟨other, d⟩, .inr ⟨hne, mem_sharedFunctions.mpr ⟨hd, hkind, hscope⟩⟩, rfl⟩
  · obtain ⟨places, hordered, hfirst, hkept⟩ := firstOfEach_places [] ((i.offerable uri).map i.offer)
    refine ⟨places, hordered, fun k => (hfirst k).trans isFirst_offer, ?_⟩
    simpa [hoffers] using hkept
  · obtain ⟨text, version, rfl⟩ := h.snapshot hs
    rw [definitionsIn, hs]
    exact (Snapshot.analyze_laidOut _ _ _ _).definitions_ordered hcases
  · rintro settings publishes events rfl
    obtain ⟨moment, hregistered⟩ := Event.exists_registered settings publishes events
    exact ⟨moment, hregistered.first_iff, hregistered.ordered⟩

/-- Two documents with a function of the same name. -/
def shadowing : List Event :=
  [.register "file:///a.m" "x = 1;\nfunction g(a)\nend", .register "file:///b.m" "function g\nend\nfunction h(x)\nend"]

theorem completions_exact_shadowing :
    let i := Event.run (.empty .default false) shadowing
    (i.definitionCompletions "file:///a.m").map (fun item => (item.label, item.snippet)) =
      [("x", none), ("g", some "g($\x7b1:a\x7d)"), ("a", none), ("h", some "h($\x7b1:x\x7d)")] ∧
    ((i.definitionCompletions "file:///a.m").map (·.label)).Nodup :=
  ⟨by decide +kernel, (completions_exact ((Reached.empty _ _).run shadowing) _).1⟩

/-- The second variable stands in a case behind the `otherwise`. -/
def lateVariable : String := "switch x\notherwise\na = 1;\ncase 1\nb = 2;\nend\n"

/-- The variable that comes last in the text is offered first. -/
theorem lateVariable_offered_first :
    let i := Event.run (.empty .default false) [.register "file:///a.m" lateVariable]
    (i.definitionCompletions "file:///a.m").map (·.label) = ["b", "a"] ∧
      (i.definitionsIn "file:///a.m").map (·.span) = [.ofNats 4 0 4 1, .ofNats 2 0 2 1] := by
  decide +kernel

/-- The definition that an offer was made from. -/
theorem exists_offered (h : i.uris.Nodup) {item : Completion}
    (hitem : item ∈ i.definitionCompletions uri) :
    ∃ d, (i.offerable uri).find? (·.value.name == item.label) = some d ∧ item = i.offer d := by
  rw [definitionCompletions_eq h] at hitem
  have hfirst := find?_of_mem_firstOfEach hitem
  rw [List.find?_map, Option.map_eq_some_iff] at hfirst
  obtain ⟨d, hd, rfl⟩ := hfirst
  exact ⟨d, hd, rfl⟩

theorem find?_offerable {name : String} {d : InDocument Definition}
    (h : (i.offerable uri).find? (·.value.name == name) = some d) :
    if d.uri = uri then (i.definitionsIn uri).find? (·.name == name) = some d.value
    else (∀ d' ∈ i.definitionsIn uri, d'.name ≠ name) ∧
      (i.sharedFunctions d.uri).find? (·.name == name) = some d.value := by
  rw [offerable, List.find?_append, Option.or_eq_some_iff, List.find?_map, List.find?_flatMap] at h
  rcases h with hown | ⟨hnone, hothers⟩
  · obtain ⟨d, hd, rfl⟩ := Option.map_eq_some_iff.mp hown
    rwa [if_pos rfl]
  · obtain ⟨other, hother, hfound⟩ := List.exists_of_findSome?_eq_some hothers
    rw [List.find?_map] at hfound
    obtain ⟨d, hd, rfl⟩ := Option.map_eq_some_iff.mp hfound
    have hne : other ≠ uri := by simpa using (List.mem_filter.mp hother).2
    rw [if_neg hne]
    refine ⟨fun d' hd' => ?_, hd⟩
    have hnone := List.find?_eq_none.mp (Option.map_eq_none_iff.mp hnone) d' hd'
    simpa using hnone

theorem meaning?_name {name : String} {first : Definition}
    (h : (i.definitionsIn uri).find? (·.name == name) = some first) :
    i.meaning? (.name (some uri) name) = some ⟨uri, first⟩ := by
  have hnamed : i.definitionsNamed uri name = (i.definitionsIn uri).filter (·.name == name) := by
    unfold definitionsNamed definitionsIn
    cases i.snapshot? uri <;> rfl
  rw [meaning?, meanings, Option.elim_some, localDefinitions, hnamed, List.append_assoc, List.head?_append,
    List.head?_map, List.head?_filter, h]
  rfl

theorem explain_offer (i : Index) (d : InDocument Definition) (first : Definition) :
    i.explain (i.offer d) ⟨d.uri, first⟩ = { i.offer d with
      detail := some (describe (i.definitionsIn d.uri) first)
      documentation := if first.documentation = "" then none else some (fence first.documentation) } := by
  simp [explain, offer, ofDefinition]

/-- What is shown about an offer comes from the first definition of its name in the document that the offer
is from. If this is not the document where the name is typed, the offer itself was made from the first
function of that name that the document shares. -/
theorem resolve_explains_first {i : Index} (h : i.Reached) {uri : String} {item : Completion}
    (hitem : item ∈ i.definitionCompletions uri) :
    ∃ (d : InDocument Definition) (first : Definition), item = i.offer d ∧
      (if d.uri = uri then (i.definitionsIn uri).find? (·.name == item.label) = some d.value
      else (∀ d' ∈ i.definitionsIn uri, d'.name ≠ item.label) ∧
        (i.sharedFunctions d.uri).find? (·.name == item.label) = some d.value) ∧
      (i.definitionsIn d.uri).find? (·.name == item.label) = some first ∧
      i.resolve item = if ∀ other ∈ i.uris, Uri.isWellFormed other = true then
          .ok { item with
            detail := some (describe (i.definitionsIn d.uri) first)
            documentation := if first.documentation = "" then none else some (fence first.documentation) }
        else .error .malformedUri := by
  obtain ⟨d, hd, rfl⟩ := exists_offered h.nodup hitem
  have hsource := find?_offerable hd
  have hmem : d.value ∈ i.definitionsIn d.uri := by
    rcases mem_offerable.mp (List.mem_of_find?_eq_some hd) with ⟨heq, hmem⟩ | ⟨_, hmem⟩
    · exact heq ▸ hmem
    · exact (mem_sharedFunctions.mp hmem).1
  obtain ⟨first, hfirst⟩ : ∃ first, (i.definitionsIn d.uri).find? (·.name == d.value.name) = some first :=
    Option.isSome_iff_exists.mp (List.find?_isSome.mpr ⟨d.value, hmem, beq_self_eq_true _⟩)
  refine ⟨d, first, rfl, hsource, hfirst, ?_⟩
  have hsubject : subject? (i.offer d).data = .ok (some (.name (some d.uri) d.value.name)) := rfl
  have hresolve : i.resolve (i.offer d) =
      i.lookup (i.meaning? (.name (some d.uri) d.value.name)) >>= fun found =>
        .ok (found.elim (i.offer d) (i.explain (i.offer d))) := by
    rw [resolve, hsubject]
    rfl
  rw [hresolve, meaning?_name hfirst, lookup]
  simp only [List.all_eq_true]
  by_cases hnames : ∀ other ∈ i.uris, Uri.isWellFormed other = true
  · rw [if_pos hnames, if_pos hnames]
    exact congrArg Except.ok (explain_offer i d first)
  · rw [if_neg hnames, if_neg hnames]
    rfl

/-- The other document has a variable of the same name before the function. -/
def variableFirst : List Event :=
  [.register "file:///a.m" "", .register "file:///b.m" "f = 1;\nfunction f(a)\nend"]

theorem variableFirst_read :
    let i := Event.run (.empty .default false) variableFirst
    (i.definitionCompletions "file:///a.m").map (fun item => (item.label, item.kind, item.snippet)) =
        [("f", some .function, some "f($\x7b1:a\x7d)")] ∧
      (i.definitionCompletions "file:///a.m").map (fun item => (i.resolve item).toOption.bind (·.detail)) =
        [some "variable"] ∧
      (i.definitionCompletions "file:///a.m").map (·.label) = ["f"] ∧
      ∀ other ∈ i.uris, Uri.isWellFormed other = true := by
  decide +kernel

theorem resolve_explains_first_variableFirst :
    let i := Event.run (.empty .default false) variableFirst
    ∃ item ∈ i.definitionCompletions "file:///a.m", item.label = "f" ∧ ∃ d first, item = i.offer d ∧
      (i.definitionsIn d.uri).find? (·.name == item.label) = some first ∧ i.resolve item = .ok { item with
        detail := some (describe (i.definitionsIn d.uri) first)
        documentation := if first.documentation = "" then none else some (fence first.documentation) } := by
  intro i
  obtain ⟨-, -, hlabels, hnames⟩ := variableFirst_read
  obtain ⟨item, hitem, hlabel⟩ := List.mem_map.mp (hlabels ▸ List.mem_singleton_self "f")
  obtain ⟨d, first, heq, -, hfirst, hresolve⟩ :=
    resolve_explains_first ((Reached.empty _ _).run variableFirst) hitem
  exact ⟨item, hitem, hlabel, d, first, heq, hfirst, hresolve.trans (if_pos hnames)⟩

/-- The function is offered, and the variable is shown. -/
theorem variable_shown_for_function :
    let i := Event.run (.empty .default false) variableFirst
    (i.definitionCompletions "file:///a.m").map (fun item => (item.label, item.kind, item.snippet)) =
        [("f", some .function, some "f($\x7b1:a\x7d)")] ∧
      (i.definitionCompletions "file:///a.m").map (fun item => (i.resolve item).toOption.bind (·.detail)) =
        [some "variable"] :=
  ⟨variableFirst_read.1, variableFirst_read.2.1⟩

end Index

end MatrixScript
