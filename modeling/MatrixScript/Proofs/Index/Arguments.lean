import MatrixScript.Proofs.Index.Registration

/-! The check of the number of arguments.

Main statement: a call is reported just if the function that it reaches has fewer named parameters than the
call has arguments, and none of them takes all the rest. Ignored parameters do not count, and the arguments
of all lists behind a name do. -/
namespace MatrixScript

variable {i : Index} {s : Snapshot} {r : Reference} {uri : String}

/-- The names of the parameters. An ignored one has none. -/
def FunctionHeader.paramNames (header : FunctionHeader) : List String :=
  header.params.filterMap Collection.paramName?

theorem PlacedFunction.definition?_eq_some {f : PlacedFunction} {d : Definition}
    (h : f.definition? = some d) :
    d.arguments = f.header.paramNames ∧ (d.isVariadic = true ↔ "varargin" ∈ f.header.paramNames) := by
  unfold definition? at h
  split_ifs at h
  cases h
  exact ⟨rfl, List.contains_iff_mem⟩

/-- The use of a name that a node is. -/
def Node.use? : Node → Option (NameUse Expr)
  | .expr (.name use) => some use
  | _ => none

theorem Node.mem_use? {ns : List Node} {use : NameUse Expr} :
    use ∈ ns.filterMap Node.use? ↔ .expr (.name use) ∈ ns := by
  rw [List.mem_filterMap]
  constructor
  · rintro ⟨n, hn, huse⟩
    unfold use? at huse
    split at huse
    · cases huse
      exact hn
    · contradiction
  · exact fun hmem => ⟨_, hmem, rfl⟩

/-- The reference to a function stands where the name of its node does. -/
theorem Node.Calls.start_mem {n : Node} (h : n.Calls r) : r.span.start ∈ n.place? := by
  unfold Calls at h
  split at h
  · rw [h.2.1]
    rfl
  · rw [h]
    rfl
  · rw [h.2, place?, if_neg (Bool.eq_false_iff.mp h.1)]
    rfl
  · contradiction

namespace Snapshot

/-- No other reference to a function stands at a call, so it is the one that counts the arguments. -/
theorem LaidOut.counts (h : s.LaidOut) {use : NameUse Expr}
    (huse : .expr (.name use) ∈ s.program.nodes) (hr : r ∈ s.references)
    (hkind : r.kind = .function) (hspan : r.span = use.rootSpan) : (Node.expr (.name use)).Calls r := by
  obtain ⟨lo, hi, hbody⟩ := h.body
  rw [h.references] at hr
  obtain ⟨n, hn, hcalls⟩ := s.program.symbols_gathered.calls r hr hkind
  obtain rfl | hn := List.mem_cons.mp hn
  · exact hcalls.elim
  have huse := (List.mem_cons.mp huse).resolve_left nofun
  by_cases heq : n = .expr (.name use)
  · exact heq ▸ hcalls
  · refine absurd ?_ (hbody.apart.forall hn huse heq _ hcalls.start_mem)
    rw [hspan]
    rfl

end Snapshot

namespace Index

theorem Reached.nodup (h : i.Reached) : i.uris.Nodup := by
  induction h with
  | empty settings publishes => exact List.nodup_nil
  | @event i e _ ih =>
    by_cases hclose : ∃ closed, e = .close closed
    · obtain ⟨closed, rfl⟩ := hclose
      rw [Event.close_uris]
      exact ih.filter _
    · rw [Event.apply_uris i e fun closed he => hclose ⟨closed, he⟩]
      cases e.install? i with
      | none => exact ih
      | some installed =>
        dsimp only [Option.elim_some]
        split_ifs with hmem
        · exact ih
        · exact List.nodup_append'.mpr ⟨ih, List.nodup_singleton _, List.disjoint_singleton.mpr hmem⟩
  | configure settings _ ih => exact ih
  | publish uri _ ih => rwa [uris, publish_snapshots]

/-- The first line of a function in one of the documents makes the definition. -/
def Declares (i : Index) (f : PlacedFunction) (d : Definition) : Prop :=
  ∃ uri s, i.snapshot? uri = some s ∧ f ∈ s.program.functions ∧ f.definition? = some d

theorem Reached.declares (h : i.Reached) (hs : i.snapshot? uri = some s) {d : Definition}
    (hd : d ∈ s.definitions) (hkind : d.kind = .function) :
    ∃ f, i.Declares f d := by
  obtain ⟨text, version, rfl⟩ := h.snapshot hs
  rw [(Snapshot.analyze_laidOut _ _ _ _).definitions] at hd
  obtain ⟨f, hf, hdefinition⟩ := Program.exists_function _ hd hkind
  exact ⟨f, uri, _, hs, hf, hdefinition⟩

/-- A call never reaches a whole file, so the function that it reaches has a first line. -/
theorem Reached.exists_declares (h : i.Reached) {name : String} {d : Definition}
    (hd : i.callee? uri name = some d) : ∃ f, i.Declares f d := by
  have hfunction := List.find?_some hd
  simp only [Bool.and_eq_true, bne_iff_ne, Definition.isFunction, beq_iff_eq] at hfunction
  obtain ⟨found, hfound, rfl⟩ := List.mem_map.mp (List.mem_of_find?_eq_some hd)
  simp only [meanings, Option.elim_some, List.mem_append] at hfound
  rcases hfound with (hlocal | hshared) | hfile
  · obtain ⟨d, hmem, rfl⟩ := List.mem_map.mp hlocal
    unfold definitionsNamed at hmem
    cases hs : i.snapshot? uri with
    | none =>
      rw [hs] at hmem
      exact absurd hmem List.not_mem_nil
    | some s =>
      rw [hs] at hmem
      exact h.declares hs (List.mem_of_mem_filter hmem) hfunction.1
  · obtain ⟨⟨other, s⟩, hentry, hshared⟩ := List.mem_flatMap.mp hshared
    obtain ⟨d, hmem, rfl⟩ := List.mem_map.mp hshared
    have hs : i.snapshot? other = some s := Registry.get?_of_mem h.nodup (List.mem_of_mem_filter hentry)
    exact h.declares hs (List.mem_of_mem_filter (List.mem_of_mem_filter hmem)) hfunction.1
  · obtain ⟨other, _, rfl⟩ := List.mem_map.mp hfile
    exact absurd rfl hfunction.2

theorem argumentProblem?_eq {given : Nat} (hkind : r.kind = .function)
    (hgiven : r.argumentCount = some given) :
    i.argumentProblem? uri r = (i.callee? uri r.name).bind fun d =>
      if d.isVariadic = false ∧ d.arguments.length < given then
        some (.tooManyArguments r.name r.span given d.requiredArguments d.optionalArguments)
      else none := by
  unfold argumentProblem?
  rw [hkind, hgiven]
  cases i.callee? uri r.name with
  | none => rfl
  | some d =>
    by_cases hmany : d.isVariadic = false ∧ d.arguments.length < given
    · simp [hmany, guard]
    · simp [hmany, guard]

theorem Reached.argumentProblem?_isSome_iff (h : i.Reached) {given : Nat}
    (hkind : r.kind = .function) (hgiven : r.argumentCount = some given) :
    (i.argumentProblem? uri r).isSome = true ↔ ∃ d f, i.callee? uri r.name = some d ∧ i.Declares f d ∧
      "varargin" ∉ f.header.paramNames ∧ f.header.paramNames.length < given := by
  rw [argumentProblem?_eq hkind hgiven]
  cases hd : i.callee? uri r.name with
  | none => simp
  | some d =>
    have hsame {f : PlacedFunction} (hf : i.Declares f d) : (d.isVariadic = false ∧
        d.arguments.length < given) ↔
          "varargin" ∉ f.header.paramNames ∧ f.header.paramNames.length < given := by
      obtain ⟨_, _, _, _, hdefinition⟩ := hf
      obtain ⟨hnames, hvariadic⟩ := PlacedFunction.definition?_eq_some hdefinition
      rw [← hvariadic, Bool.not_eq_true, hnames]
    obtain ⟨f, hf⟩ := h.exists_declares hd
    rw [Option.bind_some, Option.isSome_ite, hsame hf]
    constructor
    · exact fun hmany => ⟨d, f, rfl, hf, hmany⟩
    · rintro ⟨_, f', ⟨⟩, hf', hmany⟩
      exact (hsame hf).mp ((hsame hf').mpr hmany)

/-- Only the check of calls reports too many arguments. -/
theorem exists_call_of_mem_problems (h : s.LaidOut) {d : Diagnostic} (hd : d ∈ i.problems s)
    (hcode : d.code = .tooManyArguments) :
    ∃ r ∈ s.references, i.argumentProblem? s.uri r = some d := by
  simp only [problems, List.mem_append] at hd
  rcases hd with ((hd | hd) | hd) | hd
  · exact absurd hcode (h.codes d hd)
  · obtain ⟨f, _, rfl⟩ := List.mem_map.mp hd
    contradiction
  · exact List.mem_filterMap.mp hd
  · split_ifs at hd
    · obtain ⟨r, _, rfl⟩ := List.mem_map.mp hd
      contradiction
    · exact absurd hd List.not_mem_nil

theorem mem_problems {d : Diagnostic} (hr : r ∈ s.references)
    (hd : i.argumentProblem? s.uri r = some d) : d ∈ i.problems s :=
  List.mem_append_left _ (List.mem_append_right _ (List.mem_filterMap.mpr ⟨r, hr, hd⟩))

/-- Where all problems are shown, a document with a call has them looked up. -/
theorem documentDiagnostics_eq (hs : i.snapshot? uri = some s)
    (hshown : (i.problems s).length ≤ i.settings.maxProblems) (hr : r ∈ s.references)
    (hkind : r.kind = .function) (hcount : r.argumentCount.isSome = true) :
    i.documentDiagnostics uri = i.lookup (i.problems s) := by
  have hneeds : i.needsLookup s = true := List.any_eq_true.mpr ⟨r, hr, by simp [hkind, hcount]⟩
  have hall : takeAtMost i.settings.maxProblems (i.problems s) = i.problems s := by
    rw [takeAtMost, if_pos (by omega), List.take_of_length_le (by omega)]
  simp only [documentDiagnostics, hs, hneeds, if_true, hall]

/-- A call with a name before it is reported exactly if the function found for the name has a first line
that names fewer parameters than there are arguments, none of them for all the rest. A call has the
arguments of all lists behind its name. -/
theorem argument_check {i : Index} (hi : i.Reached) {uri : String} {s : Snapshot}
    (hs : i.snapshot? uri = some s) (hshown : (i.problems s).length ≤ i.settings.maxProblems)
    {use : NameUse Expr} {args : List Expr} (huse : .expr (.name use) ∈ s.program.nodes)
    (hplain : use.fields = []) (hargs : use.args = some args) {r : Reference} (hr : r ∈ s.references)
    (hkind : r.kind = .function) (hspan : r.span = use.rootSpan) :
    (use.command = false →
      ∃ lists, use.HasLists (Code.ofTokens s.tokens) lists ∧ args = lists.flatten) ∧
    ((∃ ds, i.documentDiagnostics uri = .ok ds ∧
        ∃ d ∈ ds, d.code = .tooManyArguments ∧ d.span = r.span) ↔
      ∃ d f, i.findFunction uri use.root = .ok (some d) ∧ i.Declares f d ∧
        "varargin" ∉ f.header.paramNames ∧ f.header.paramNames.length < args.length) := by
  obtain ⟨text, version, rfl⟩ := hi.snapshot hs
  have hlaid := Snapshot.analyze_laidOut defaultTokenLimit uri text version
  have hcheck {r' : Reference} (hr' : r' ∈ (Snapshot.analyze defaultTokenLimit uri text version).references)
      (hkind' : r'.kind = .function) (hspan' : r'.span = use.rootSpan) :
      r'.argumentCount.isSome = true ∧ ((i.argumentProblem? uri r').isSome = true ↔
        ∃ d f, i.callee? uri use.root = some d ∧ i.Declares f d ∧
          "varargin" ∉ f.header.paramNames ∧ f.header.paramNames.length < args.length) := by
    obtain ⟨hname, _, hcount⟩ := hlaid.counts huse hr' hkind' hspan'
    rw [NameUse.isDotted, hplain, hargs] at hcount
    rw [← hname]
    exact ⟨Option.isSome_of_mem hcount, hi.argumentProblem?_isSome_iff hkind' hcount⟩
  refine ⟨fun hcommand => ?_, ?_⟩
  · exact (Snapshot.nodes_placed defaultTokenLimit uri text version _ huse).2.2 hplain hcommand args hargs
  rw [documentDiagnostics_eq hs hshown hr hkind (hcheck hr hkind hspan).1, findFunction]
  unfold lookup
  split_ifs with hwell
  · simp only [Except.ok.injEq, exists_eq_left']
    rw [← (hcheck hr hkind hspan).2]
    constructor
    · rintro ⟨d, hd, hcode, hplace⟩
      obtain ⟨r', hr', hproblem⟩ := exists_call_of_mem_problems hlaid hd hcode
      rw [Snapshot.analyze_uri] at hproblem
      obtain ⟨hkind', _, hspan', _⟩ := argumentProblem?_eq_some hproblem
      have hcheck' := (hcheck hr' hkind' (hspan'.symm.trans (hplace.trans hspan))).2
      exact (hcheck hr hkind hspan).2.mpr (hcheck'.mp (Option.isSome_of_mem hproblem))
    · intro hproblem
      obtain ⟨d, hd⟩ := Option.isSome_iff_exists.mp hproblem
      obtain ⟨_, _, hplace, hcode⟩ := argumentProblem?_eq_some hd
      exact ⟨d, mem_problems hr (by rwa [Snapshot.analyze_uri]), hcode, hplace⟩
  · simp

/-- The first parameter of `f` is ignored. The arguments of `g` stand in two lists. -/
def ignoringText : String := "function f(~, a)\nend\nfunction g(a)\nend\nf(1, 2);\ng(1)(2);"

def ignoringIndex : Index := (Event.update "a" ignoringText).apply (.empty .default false)

theorem ignoringIndex_read :
    (ignoringIndex.documentDiagnostics "a").toOption.map (·.map fun d => (d.code, d.span)) =
      some [(.tooManyArguments, .ofNats 4 0 4 1), (.tooManyArguments, .ofNats 5 0 5 1)] ∧
    (∃ use ∈ (Snapshot.analyze defaultTokenLimit "a" ignoringText 1).program.nodes.filterMap Node.use?,
      use.root = "g" ∧ use.rootSpan = .ofNats 5 0 5 1 ∧ use.fields = [] ∧ use.command = false ∧
        use.args.map List.length = some 2) ∧
    (Snapshot.analyze defaultTokenLimit "a" ignoringText 1).program.functions.map
      (fun f => (f.header.name, f.header.params.length)) = [("f", 2), ("g", 1)] ∧
    (Snapshot.analyze defaultTokenLimit "a" ignoringText 1).references.filterMap
      (fun r => r.argumentCount.map (r.name, ·)) = [("f", 2), ("g", 2)] ∧
    ⟨"g", .function, .ofNats 5 0 5 1, "", some 2⟩ ∈
      (Snapshot.analyze defaultTokenLimit "a" ignoringText 1).references ∧
    (ignoringIndex.problems (.analyze defaultTokenLimit "a" ignoringText 1)).length ≤
      ignoringIndex.settings.maxProblems := by
  decide +kernel

theorem ignoringIndex_diagnostics : ∃ ds, ignoringIndex.documentDiagnostics "a" = .ok ds ∧
    ds.map (fun d => (d.code, d.span)) =
      [(.tooManyArguments, .ofNats 4 0 4 1), (.tooManyArguments, .ofNats 5 0 5 1)] := by
  have hshown := ignoringIndex_read.1
  cases hds : ignoringIndex.documentDiagnostics "a" with
  | error e =>
    rw [hds] at hshown
    contradiction
  | ok ds =>
    rw [hds] at hshown
    exact ⟨ds, rfl, Option.some.inj hshown⟩

theorem argument_check_ignoringIndex : ∃ use args lists,
    .expr (.name use) ∈ (Snapshot.analyze defaultTokenLimit "a" ignoringText 1).program.nodes ∧
    use.rootSpan = .ofNats 5 0 5 1 ∧ use.args = some args ∧ args.length = 2 ∧
    use.HasLists (Code.ofTokens (Snapshot.analyze defaultTokenLimit "a" ignoringText 1).tokens) lists ∧
    args = lists.flatten ∧
    ∃ d f, ignoringIndex.findFunction "a" "g" = .ok (some d) ∧ ignoringIndex.Declares f d ∧
      "varargin" ∉ f.header.paramNames ∧ f.header.paramNames.length < 2 := by
  obtain ⟨-, ⟨use, hmem, hroot, hspan, hplain, hcommand, hcount⟩, -, -, hr, hshown⟩ := ignoringIndex_read
  obtain ⟨args, hargs, hlength⟩ := Option.map_eq_some_iff.mp hcount
  have huse := Node.mem_use?.mp hmem
  have hs : ignoringIndex.snapshot? "a" = some (.analyze defaultTokenLimit "a" ignoringText 1) := rfl
  obtain ⟨hlists, hcheck⟩ := argument_check (.event _ (.empty _ _)) hs hshown huse hplain hargs hr rfl hspan.symm
  obtain ⟨lists, hread, hflatten⟩ := hlists hcommand
  obtain ⟨ds, hds, hshown⟩ := ignoringIndex_diagnostics
  have hreported : (.tooManyArguments, .ofNats 5 0 5 1) ∈ ds.map fun d => (d.code, d.span) := by
    rw [hshown]
    decide
  obtain ⟨d, hd, hreported⟩ := List.mem_map.mp hreported
  obtain ⟨hcode, hplace⟩ := Prod.mk.inj hreported
  have hfound := hcheck.mp ⟨ds, hds, d, hd, hcode, hplace⟩
  rw [hroot, hlength] at hfound
  exact ⟨use, args, lists, huse, hspan, hargs, hlength, hread, hflatten, hfound⟩

/-- The call `f(1, 2)` is reported although `f` has two parameters, and `g(1)(2)` is although the first of
its lists has just as many arguments as `g` has parameters. -/
theorem matching_calls_reported :
    (∃ ds, ignoringIndex.documentDiagnostics "a" = .ok ds ∧ ds.map (fun d => (d.code, d.span)) =
      [(.tooManyArguments, .ofNats 4 0 4 1), (.tooManyArguments, .ofNats 5 0 5 1)]) ∧
    (Snapshot.analyze defaultTokenLimit "a" ignoringText 1).program.functions.map
        (fun f => (f.header.name, f.header.params.length)) = [("f", 2), ("g", 1)] ∧
    (Snapshot.analyze defaultTokenLimit "a" ignoringText 1).references.filterMap
        (fun r => r.argumentCount.map (r.name, ·)) = [("f", 2), ("g", 2)] :=
  ⟨ignoringIndex_diagnostics, ignoringIndex_read.2.2.1, ignoringIndex_read.2.2.2.1⟩

end Index

end MatrixScript
