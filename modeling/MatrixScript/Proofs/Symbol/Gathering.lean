import MatrixScript.Proofs.Symbol.Walk
import MatrixScript.Proofs.Syntax.Extent

/-! What is collected from a tree.

Main statements: the references and definitions of a program are its occurrences of names, in the same
order. Every definition comes with a reference of its own. The definitions of functions and of default
values are made by the first lines of functions, and a reference to a function counts the arguments of the
call that it is recorded at. -/
namespace MatrixScript

/-- A function with the names of the functions around it, outermost first. -/
structure PlacedFunction where
  path : List ScopeName
  header : FunctionHeader
  documentation : String

mutual

/-- The functions in a statement, one before those inside it. -/
def Stmt.functions (path : List ScopeName) : Stmt → List PlacedFunction
  | .function header body _ documentation _ =>
    ⟨path, header, documentation⟩ :: stmtFunctions (path ++ [.function header.name]) body
  | .ifElse _ body clauses none _ => stmtFunctions path body ++ branchFunctions path clauses
  | .ifElse _ body clauses (some other) _ =>
    stmtFunctions path body ++ branchFunctions path clauses ++ stmtFunctions path other
  | .forLoop _ _ body _ => stmtFunctions path body
  | .whileLoop _ body _ => stmtFunctions path body
  | .doUntil body _ _ => stmtFunctions path body
  | .switch _ cases none _ => branchFunctions path cases
  | .switch _ cases (some other) _ => branchFunctions path cases ++ stmtFunctions path other
  | .tryCatch body _ handler _ => stmtFunctions path body ++ stmtFunctions path handler
  | .assign _ _ _ _ => []
  | .assignMany _ _ _ _ => []
  | .call _ _ => []
  | .expr _ _ => []
  | .declare _ _ _ => []
  | .jump _ _ => []

def stmtFunctions (path : List ScopeName) : List Stmt → List PlacedFunction
  | [] => []
  | s :: ss => s.functions path ++ stmtFunctions path ss

def branchFunctions (path : List ScopeName) : List (Branch Stmt) → List PlacedFunction
  | [] => []
  | ⟨_, body, _⟩ :: branches => stmtFunctions path body ++ branchFunctions path branches

end

def Program.functions (p : Program) : List PlacedFunction := stmtFunctions [] p.body

namespace PlacedFunction

/-- The scope of its parameters. -/
def inner (f : PlacedFunction) : List ScopeName := f.path ++ [.function f.header.name]

/-- The definition of the function itself; without a name there is none. -/
def definition? (f : PlacedFunction) : Option Definition :=
  if f.header.name.isEmpty then none
  else some { Definition.plain f.header.name .function f.header.nameSpan f.path with
    documentation := f.documentation
    arguments := f.header.params.filterMap Collection.paramName?
    optionalArguments := f.header.params.countP Collection.isOptionalParam }

end PlacedFunction

/-- The definition of a parameter that is declared with an equals sign. -/
def Param.defaultDefinition? (scope : List ScopeName) : Param → Option Definition
  | .optional value => some { Definition.plain value.name .defaultArgument value.nameSpan scope with
      content := value.value.map Expr.render }
  | .plain _ => none
  | .ignored _ => none

/-- What the first line of a function defines, but for the plain variables in it. -/
def PlacedFunction.definitions (f : PlacedFunction) : List Definition :=
  f.definition?.toList ++ f.header.params.filterMap (Param.defaultDefinition? f.inner)

/-- Whether the first line of a function makes the definition, and not only as one of its variables. -/
def Definition.isDeclared (d : Definition) : Bool :=
  d.kind == .function || d.kind == .defaultArgument

/-- The reference to a function is recorded at the node. It counts the arguments of a name without fields. -/
def Node.Calls (r : Reference) : Node → Prop
  | .expr (.name use) => r.name = use.root ∧ r.span = use.rootSpan ∧
    r.argumentCount = if use.isDotted then none else use.args.map List.length
  | .expr (.handle function _) => r.span = function.span
  | .stmt (.function header _ _ _ _) => header.name.isEmpty = false ∧ r.span = header.nameSpan
  | _ => False

/-- The names without fields that are collected at a node itself, without its parts. The parameters of an anonymous
function have the place of the whole function. -/
def Node.sites : Node → List Variable
  | .expr (.name use) => [⟨use.root, use.rootSpan⟩]
  | .expr (.handle function _) => [function]
  | .expr (.named value) => [⟨value.name, value.nameSpan⟩]
  | .expr (.anonymous params _ span) => params.map (⟨·, span⟩)
  | .stmt s => s.introduced
  | _ => []

/-- The name is collected at one of the nodes, or it has fields. -/
def Occurrence.SitedIn (ns : List Node) (o : Occurrence) : Prop :=
  (o.role = .path ∧ '.' ∈ o.name.toList) ∨ ∃ n ∈ ns, ⟨o.name, o.span⟩ ∈ n.sites

/-- The name is collected at one of the nodes. -/
def NameSited (ns : List Node) (name : String) : Prop :=
  ∃ n ∈ ns, ∃ span, ⟨name, span⟩ ∈ n.sites

/-- What is recorded for the nodes `ns` with the names `os` in them. The first lines of functions declare
`ds`. -/
structure Symbols.Gathered (s : Symbols) (ns : List Node) (os : List Occurrence) (ds : List Definition) :
    Prop where
  references : List.Forall₂ Reference.Records s.references (os.filter Occurrence.isReference)
  definitions : List.Forall₂ Definition.Records s.definitions (os.filter Occurrence.isBinding)
  declared : s.definitions.filter Definition.isDeclared = ds
  calls : ∀ r ∈ s.references, r.kind = .function → ∃ n ∈ ns, n.Calls r
  sites : ∀ o ∈ os, o.SitedIn ns
  arguments : ∀ d ∈ s.definitions, ∀ name ∈ d.arguments, NameSited ns name

theorem Occurrence.SitedIn.mono {ns ns' : List Node} {o : Occurrence} (h : o.SitedIn ns)
    (hns : ns ⊆ ns') : o.SitedIn ns' := by
  obtain hpath | ⟨n, hn, hsite⟩ := h
  · exact .inl hpath
  · exact .inr ⟨n, hns hn, hsite⟩

theorem NameSited.mono {ns ns' : List Node} {name : String} (h : NameSited ns name) (hns : ns ⊆ ns') :
    NameSited ns' name := by
  obtain ⟨n, hn, hsite⟩ := h
  exact ⟨n, hns hn, hsite⟩

/-- Points separate the fields of a name. -/
theorem NameUse.period_mem_name {ε : Type} (use : NameUse ε) (h : use.isDotted = true) :
    '.' ∈ use.name.toList := by
  obtain ⟨root, fields, span, args, native, command⟩ := use
  cases fields with
  | nil => contradiction
  | cons field fields => simp [name, String.intercalate_cons_cons]

namespace Symbols.Gathered

variable {s t : Symbols} {ns ns' : List Node} {os os' : List Occurrence} {ds ds' : List Definition}

theorem mono (h : s.Gathered ns os ds) (hns : ns ⊆ ns') : s.Gathered ns' os ds where
  references := h.references
  definitions := h.definitions
  declared := h.declared
  calls r hr hkind := by
    obtain ⟨n, hn, hcalls⟩ := h.calls r hr hkind
    exact ⟨n, hns hn, hcalls⟩
  sites o ho := (h.sites o ho).mono hns
  arguments d hd name hname := (h.arguments d hd name hname).mono hns

theorem append (h : s.Gathered ns os ds) (h' : t.Gathered ns' os' ds') :
    (s ++ t).Gathered (ns ++ ns') (os ++ os') (ds ++ ds') := by
  have hleft := h.mono (List.subset_append_left ns ns')
  have hright := h'.mono (List.subset_append_right ns ns')
  refine ⟨?_, ?_, ?_, List.forall_mem_append.mpr ⟨hleft.calls, hright.calls⟩,
    List.forall_mem_append.mpr ⟨hleft.sites, hright.sites⟩,
    List.forall_mem_append.mpr ⟨hleft.arguments, hright.arguments⟩⟩
  · rw [List.filter_append]
    exact List.rel_append h.references h'.references
  · rw [List.filter_append]
    exact List.rel_append h.definitions h'.definitions
  · rw [Symbols.definitions_append, List.filter_append, h.declared, h'.declared]

theorem empty : (∅ : Symbols).Gathered [] [] [] :=
  ⟨.nil, .nil, rfl, List.forall_mem_nil _, List.forall_mem_nil _, List.forall_mem_nil _⟩

/-- One reference to a name that is collected at a node. -/
theorem refer {r : Reference} {n : Node} (hsite : ⟨r.name, r.span⟩ ∈ n.sites)
    (hcalls : r.kind = .function → n.Calls r) : Gathered ⟨[r], []⟩ [n] [⟨r.name, r.span, .use⟩] [] where
  references := .cons ⟨rfl, rfl, nofun⟩ .nil
  definitions := .nil
  declared := rfl
  calls := List.forall_mem_singleton.mpr fun hkind => ⟨n, List.mem_cons_self, hcalls hkind⟩
  sites := List.forall_mem_singleton.mpr (.inr ⟨n, List.mem_cons_self, hsite⟩)
  arguments := List.forall_mem_nil _

/-- A variable that is introduced and referred to at the same place. -/
theorem binding {r : Reference} {d : Definition} (hname : r.name = d.name) (hspan : r.span = d.span)
    {n : Node} (hsite : ⟨d.name, d.span⟩ ∈ n.sites) (harguments : ∀ name ∈ d.arguments, NameSited [n] name)
    (hcalls : r.kind = .function → n.Calls r) :
    Gathered ⟨[r], [d]⟩ [n] (Variable.occurrences ⟨d.name, d.span⟩) ([d].filter Definition.isDeclared) where
  references := .cons ⟨hname, hspan, nofun⟩ .nil
  definitions := .cons ⟨rfl, rfl⟩ .nil
  declared := rfl
  calls := List.forall_mem_singleton.mpr fun hkind => ⟨n, List.mem_cons_self, hcalls hkind⟩
  sites := by
    have hnode : ∃ m ∈ [n], ⟨d.name, d.span⟩ ∈ m.sites := ⟨n, List.mem_cons_self, hsite⟩
    exact List.forall_mem_cons.mpr ⟨.inr hnode, List.forall_mem_singleton.mpr (.inr hnode)⟩
  arguments := List.forall_mem_singleton.mpr harguments

end Symbols.Gathered

namespace Collection

/-- In scopes with these names the collector records the names `os` of the nodes `ns`, and declares `ds`. -/
def Gathers (m : Collector Unit) (path : List ScopeName) (ns : List Node) (os : List Occurrence)
    (ds : List Definition) : Prop :=
  ∀ sees, ∃ names s, Acts m path sees names s ∧ s.Gathered ns os ds

variable {m n : Collector Unit} {path : List ScopeName} {ns ns' : List Node} {os os' : List Occurrence}
  {ds ds' : List Definition}

theorem useReferences_gathered (asCall isVariable : Bool) (use : NameUse Expr) :
    Symbols.Gathered ⟨useReferences asCall isVariable use, []⟩ [.expr (.name use)] use.ownOccurrences [] := by
  have hroot (r : Reference) (hname : r.name = use.root) (hspan : r.span = use.rootSpan)
      (hcalls : r.kind = .function → (Node.expr (.name use)).Calls r) :
      Symbols.Gathered ⟨[r], []⟩ [.expr (.name use)] [⟨use.root, use.rootSpan, .use⟩] [] := by
    have hgathered := Symbols.Gathered.refer (r := r) (n := .expr (.name use)) (by
      rw [hname, hspan]
      exact List.mem_cons_self) hcalls
    rwa [hname, hspan] at hgathered
  have hpath (hdotted : use.isDotted = true) : Symbols.Gathered
      ⟨[⟨use.name, .variable, use.nameSpan, "", none⟩], []⟩ [] [⟨use.name, use.nameSpan, .path⟩] [] :=
    ⟨.cons ⟨rfl, rfl, fun _ => rfl⟩ .nil, .nil, rfl, List.forall_mem_singleton.mpr nofun,
      List.forall_mem_singleton.mpr (.inl ⟨rfl, use.period_mem_name hdotted⟩), List.forall_mem_nil _⟩
  have hfunction {isFunction : Bool} (h : (if isFunction then Reference.Kind.function else .variable) = .function) :
      isFunction = true := by
    by_contra hne
    rw [if_neg hne] at h
    contradiction
  by_cases hdotted : use.isDotted = true
  · rw [useReferences, NameUse.ownOccurrences, if_pos hdotted, if_pos hdotted]
    refine (hroot _ rfl rfl fun _ => ⟨rfl, rfl, ?_⟩).append (hpath hdotted)
    simp [hdotted]
  · rw [useReferences, NameUse.ownOccurrences, if_neg hdotted, if_neg hdotted]
    refine hroot _ rfl rfl fun hkind => ⟨rfl, rfl, ?_⟩
    rw [if_neg hdotted]
    exact if_pos (Bool.and_eq_true_iff.mpr ⟨hfunction hkind, by simpa using hdotted⟩)

theorem paramSymbols_gathered (path : List ScopeName) (params : List String) (span : Span) {node : Node}
    (hsites : ∀ param ∈ params, ⟨param, span⟩ ∈ node.sites) :
    (paramSymbols path params span).Gathered [node] (paramOccurrences params span) [] where
  references := by
    rw [paramOccurrences, List.filter_append, List.filter_eq_self.mpr (List.forall_mem_map.mpr fun _ _ => rfl),
      List.filter_eq_nil_iff.mpr (List.forall_mem_map.mpr fun _ _ => Bool.false_ne_true), List.append_nil,
      paramSymbols, List.forall₂_map_left_iff, List.forall₂_map_right_iff]
    exact List.forall₂_same.mpr fun _ _ => ⟨rfl, rfl, nofun⟩
  definitions := by
    rw [paramOccurrences, List.filter_append,
      List.filter_eq_nil_iff.mpr (List.forall_mem_map.mpr fun _ _ => Bool.false_ne_true), List.nil_append,
      List.filter_eq_self.mpr (List.forall_mem_map.mpr fun _ _ => rfl), paramSymbols,
      List.forall₂_map_left_iff, List.forall₂_map_right_iff]
    exact List.forall₂_same.mpr fun _ _ => ⟨rfl, rfl⟩
  declared := by simp [paramSymbols, Definition.plain, Definition.isDeclared]
  calls := by
    rw [paramSymbols, List.forall_mem_map]
    exact fun _ _ => nofun
  sites := by
    have hsited (role : Role) : ∀ param ∈ params, Occurrence.SitedIn [node] ⟨param, span, role⟩ :=
      fun param hparam => .inr ⟨node, List.mem_cons_self, hsites param hparam⟩
    rw [paramOccurrences, List.forall_mem_append, List.forall_mem_map, List.forall_mem_map]
    exact ⟨hsited .use, hsited .binding⟩
  arguments := List.forall_mem_map.mpr fun _ _ => List.forall_mem_nil _

theorem outputSymbols_gathered (inner : List ScopeName) {outputs : List Output} {node : Node}
    (hsites : ∀ v ∈ outputs.filterMap outputVariable?, v ∈ node.sites) :
    (outputSymbols inner (outputs.filterMap outputVariable?)).Gathered [node]
      (outputs.flatMap Output.occurrences) [] := by
  induction outputs with
  | nil => exact Symbols.Gathered.empty.mono (List.nil_subset _)
  | cons output outputs ih =>
    obtain v | span := output
    · obtain ⟨hfirst, hmore⟩ := List.forall_mem_cons.mp hsites
      have hvariable : Symbols.Gathered _ [node] v.occurrences [] :=
        .binding (r := ⟨v.name, .variable, v.span, "", none⟩) (d := .plain v.name .variable v.span inner)
          rfl rfl hfirst (List.forall_mem_nil _) nofun
      exact (hvariable.append (ih hmore)).mono (List.append_subset.mpr ⟨fun _ => id, fun _ => id⟩)
    · exact ih hsites

theorem headerSymbols_gathered (path : List ScopeName) (header : FunctionHeader) (documentation : String)
    {node : Node} (houtputs : ∀ v ∈ header.outputs.filterMap outputVariable?, v ∈ node.sites)
    (hname : header.name.isEmpty = false → ⟨header.name, header.nameSpan⟩ ∈ node.sites ∧
      node.Calls ⟨header.name, .function, header.nameSpan, documentation, none⟩)
    (hparams : ∀ name ∈ header.params.filterMap paramName?, NameSited [node] name) :
    (headerSymbols path header documentation).Gathered [node]
      (header.outputs.flatMap Output.occurrences ++ header.nameOccurrences)
      (PlacedFunction.mk path header documentation).definition?.toList := by
  have hfunction : (functionSymbols path header documentation).Gathered [node] header.nameOccurrences
      (PlacedFunction.mk path header documentation).definition?.toList := by
    unfold functionSymbols FunctionHeader.nameOccurrences PlacedFunction.definition?
    split_ifs with hempty
    · exact Symbols.Gathered.empty.mono (List.nil_subset _)
    · obtain ⟨hsite, hcalls⟩ := hname (by simpa using hempty)
      exact .binding rfl rfl hsite hparams fun _ => hcalls
  exact ((outputSymbols_gathered _ houtputs).append hfunction).mono
    (List.append_subset.mpr ⟨fun _ => id, fun _ => id⟩)

namespace Gathers

theorem done : Gathers (pure ()) path [] [] [] :=
  fun _ => ⟨_, _, .done, .empty⟩

theorem mono (h : Gathers m path ns os ds) (hns : ns ⊆ ns') : Gathers m path ns' os ds := by
  intro sees
  obtain ⟨names, s, hacts, hgathered⟩ := h sees
  exact ⟨names, s, hacts, hgathered.mono hns⟩

theorem next (hm : Gathers m path ns os ds) (hn : Gathers n path ns' os' ds') :
    Gathers (do m; n) path (ns ++ ns') (os ++ os') (ds ++ ds') := by
  intro sees
  obtain ⟨names, s, hacts, hgathered⟩ := hm sees
  obtain ⟨more, t, hacts', hgathered'⟩ := hn fun name => names.contains name || sees name
  exact ⟨_, _, hacts.next hacts', hgathered.append hgathered'⟩

/-- A part that is no function, and then another one. -/
theorem behind (hm : Gathers m path ns os []) (hn : Gathers n path ns' os' ds) :
    Gathers (do m; n) path (ns ++ ns') (os ++ os') ds :=
  hm.next hn

/-- A part, and then one that is no function. -/
theorem before (hm : Gathers m path ns os ds) (hn : Gathers n path ns' os' []) :
    Gathers (do m; n) path (ns ++ ns') (os ++ os') ds := by
  have hboth := hm.next hn
  rwa [List.append_nil] at hboth

/-- The parts of a node. -/
theorem node (h : Gathers m path ns os ds) {node : Node} : Gathers m path (node :: ns) os ds :=
  h.mono (List.subset_cons_self _ _)

theorem forM {α : Type} {f : α → Collector Unit} {os : α → List Occurrence} {ds : α → List Definition}
    {as : List α} (h : ∀ a ∈ as, Gathers (f a) path ns (os a) (ds a)) :
    Gathers (as.forM f) path ns (as.flatMap os) (as.flatMap ds) := by
  induction as with
  | nil => exact done.mono (List.nil_subset _)
  | cons a as ih =>
    obtain ⟨hfirst, hmore⟩ := List.forall_mem_cons.mp h
    exact (next hfirst (ih hmore)).mono (List.append_subset.mpr ⟨fun _ => id, fun _ => id⟩)

/-- Things none of which is a function. -/
theorem all {α : Type} {f : α → Collector Unit} {os : α → List Occurrence} {as : List α}
    (h : ∀ a ∈ as, Gathers (f a) path ns (os a) []) :
    Gathers (as.forM f) path ns (as.flatMap os) [] := by
  have hall := forM h
  rwa [List.flatMap_eq_nil_iff.mpr fun _ _ => rfl] at hall

theorem refer {r : Reference} {node : Node} (hsite : ⟨r.name, r.span⟩ ∈ node.sites)
    (hcalls : r.kind = .function → node.Calls r) :
    Gathers (Collection.refer r) path [node] [⟨r.name, r.span, .use⟩] [] :=
  fun _ => ⟨_, _, .refer r, .refer hsite hcalls⟩

theorem use (asCall : Bool) (use : NameUse Expr) :
    Gathers (referUse asCall use) path [.expr (.name use)] use.ownOccurrences [] :=
  fun _ => ⟨_, _, .use asCall use, useReferences_gathered asCall _ use⟩

theorem binding (d : Definition) (hkind : d.isFunction = false) (harguments : d.arguments = []) {node : Node}
    (hsite : ⟨d.name, d.span⟩ ∈ node.sites) :
    Gathers (do introduceAs d; referVariable ⟨d.name, d.span⟩) path [node]
      (Variable.occurrences ⟨d.name, d.span⟩) ([{ d with scope := path }].filter Definition.isDeclared) :=
  fun _ => ⟨_, _, .binding d hkind, .binding rfl rfl hsite (harguments ▸ List.forall_mem_nil _) nofun⟩

/-- A plain variable. -/
theorem declare {v : Variable} {node : Node} (hsite : v ∈ node.sites) :
    Gathers (Collection.declare v) path [node] v.occurrences [] :=
  binding (.plain v.name .variable v.span []) rfl rfl hsite

theorem declareOption {v : Option Variable} {node : Node} (hsite : ∀ x ∈ v.toList, x ∈ node.sites) :
    Gathers (v.forM Collection.declare) path [node] (v.toList.flatMap Variable.occurrences) [] := by
  cases v with
  | none => exact done.mono (List.nil_subset _)
  | some v => exact declare (hsite v List.mem_cons_self)

theorem target (d : Definition) (hkind : d.isDeclared = false) (use : NameUse Expr)
    (hname : d.name = use.root) (hspan : d.span = use.rootSpan)
    (harguments : ∀ name ∈ d.arguments, NameSited (.expr (.name use) :: ns) name) :
    Gathers (do introduceAs d; referUse false use) path (.expr (.name use) :: ns)
      (⟨use.root, use.rootSpan, .binding⟩ :: use.ownOccurrences) [] := by
  have hfunction : d.isFunction = false := (Bool.or_eq_false_iff.mp hkind).1
  have huse := (useReferences_gathered false true use).mono
    (List.cons_subset_cons _ (List.nil_subset ns))
  refine fun _ => ⟨_, _, .target d hfunction use hname hspan, huse.references,
    .cons ⟨hname, hspan⟩ huse.definitions, List.filter_cons_of_neg (ne_true_of_eq_false hkind), huse.calls,
    List.forall_mem_cons.mpr ⟨.inr ⟨_, List.mem_cons_self, List.mem_cons_self⟩, huse.sites⟩,
    List.forall_mem_singleton.mpr harguments⟩

theorem anonymous (params : List String) (span : Span) {body : Collector Unit} {node : Node}
    (hsites : ∀ param ∈ params, ⟨param, span⟩ ∈ node.sites)
    (hbody : Gathers body (path ++ [.anonymous]) ns os []) :
    Gathers (do
        params.forM fun param => referVariable ⟨param, span⟩
        within ⟨.anonymous, []⟩ do
          introduceParams params span
          body) path (node :: ns) (paramOccurrences params span ++ os) [] := by
  intro sees
  obtain ⟨names, s, hacts, hgathered⟩ := hbody fun name => params.contains name || sees name
  exact ⟨_, _, hacts.anonymous params span, (paramSymbols_gathered _ params span hsites).append hgathered⟩

theorem function (header : FunctionHeader) (documentation : String) {body : Collector Unit} {node : Node}
    (houtputs : ∀ v ∈ header.outputs.filterMap outputVariable?, v ∈ node.sites)
    (hname : header.name.isEmpty = false → ⟨header.name, header.nameSpan⟩ ∈ node.sites ∧
      node.Calls ⟨header.name, .function, header.nameSpan, documentation, none⟩)
    (hparams : ∀ name ∈ header.params.filterMap paramName?, NameSited [node] name)
    (hbody : Gathers body (path ++ [.function header.name]) ns os ds) :
    Gathers (do
        let scope ← collectHeader header documentation
        within scope body) path (node :: ns)
      (header.outputs.flatMap Output.occurrences ++ header.nameOccurrences ++ os)
      ((PlacedFunction.mk path header documentation).definition?.toList ++ ds) := by
  intro sees
  obtain ⟨names, s, hacts, hgathered⟩ := hbody ((outputNames header).contains ·)
  exact ⟨_, _, hacts.function header documentation,
    (headerSymbols_gathered path header documentation houtputs hname hparams).append hgathered⟩

end Gathers

mutual

theorem collectExpr_gathers : ∀ (e : Expr) (path : List ScopeName),
    Gathers (collectExpr e) path e.nodes e.occurrences []
  | .name use, path => by
    rw [collectExpr, Expr.occurrences]
    exact collectUse_gathers false use path
  | .binary op left right span, path => by
    rw [collectExpr, Expr.nodes, Expr.occurrences]
    exact ((collectExpr_gathers left path).behind (collectExpr_gathers right path)).node
  | .prefixed op operand span, path => by
    rw [collectExpr, Expr.nodes, Expr.occurrences]
    exact (collectExpr_gathers operand path).node
  | .transposed op operand span, path => by
    rw [collectExpr, Expr.nodes, Expr.occurrences]
    exact (collectExpr_gathers operand path).node
  | .matrix kind rows span, path => by
    rw [collectExpr, Expr.nodes, Expr.occurrences]
    exact (collectRows_gathers rows path).node
  | .anonymous params none span, path => by
    rw [collectExpr, Expr.nodes, Expr.occurrences, ← List.append_nil (paramOccurrences params span)]
    exact .anonymous params span (fun _ => List.mem_map_of_mem) .done
  | .anonymous params (some body) span, path => by
    rw [collectExpr, Expr.nodes, Expr.occurrences]
    exact .anonymous params span (fun _ => List.mem_map_of_mem) (collectExpr_gathers body _)
  | .handle function span, path => by
    rw [collectExpr, Expr.nodes, Expr.occurrences]
    exact .refer List.mem_cons_self fun _ => rfl
  | .named value, path => by
    rw [collectExpr, Expr.nodes, Expr.occurrences]
    exact collectNamed_gathers value path
  | .number text span, path => by
    rw [collectExpr, Expr.occurrences]
    exact Gathers.done.mono (List.nil_subset _)
  | .string text span, path => by
    rw [collectExpr, Expr.occurrences]
    exact Gathers.done.mono (List.nil_subset _)
  | .mark mark span, path => by
    rw [collectExpr, Expr.occurrences]
    exact Gathers.done.mono (List.nil_subset _)

theorem collectUse_gathers (asCall : Bool) : ∀ (use : NameUse Expr) (path : List ScopeName),
    Gathers (collectUse asCall use) path (Expr.name use).nodes (useOccurrences use) []
  | ⟨root, fields, span, none, native, command⟩, path => by
    rw [collectUse, Expr.nodes, useNodes, useOccurrences]
    exact .use asCall _
  | ⟨root, fields, span, some args, native, command⟩, path => by
    rw [collectUse, Expr.nodes, useNodes, useOccurrences]
    exact (Gathers.use asCall _).behind (collectExprs_gathers args path)

theorem collectNamed_gathers : ∀ (value : NamedValue Expr) (path : List ScopeName),
    Gathers (collectNamed value) path (.expr (.named value) :: namedNodes value) (namedOccurrences value) []
  | ⟨name, nameSpan, none, span⟩, path => by
    rw [collectNamed, namedNodes, namedOccurrences]
    exact .refer List.mem_cons_self nofun
  | ⟨name, nameSpan, some value, span⟩, path => by
    rw [collectNamed, namedNodes, namedOccurrences]
    have hname : Gathers (referVariable ⟨name, nameSpan⟩) path
        [.expr (.named ⟨name, nameSpan, some value, span⟩)] _ [] := .refer List.mem_cons_self nofun
    exact hname.behind (collectExpr_gathers value path)

theorem collectExprs_gathers : ∀ (es : List Expr) (path : List ScopeName),
    Gathers (collectExprs es) path (exprNodes es) (exprOccurrences es) []
  | [], path => by
    rw [collectExprs, exprNodes, exprOccurrences]
    exact .done
  | e :: es, path => by
    rw [collectExprs, exprNodes, exprOccurrences]
    exact (collectExpr_gathers e path).behind (collectExprs_gathers es path)

theorem collectRows_gathers : ∀ (rows : List (List Expr)) (path : List ScopeName),
    Gathers (collectRows rows) path (rowNodes rows) (rowOccurrences rows) []
  | [], path => by
    rw [collectRows, rowNodes, rowOccurrences]
    exact .done
  | row :: rows, path => by
    rw [collectRows, rowNodes, rowOccurrences]
    exact (collectExprs_gathers row path).behind (collectRows_gathers rows path)

end

theorem collectOptional_gathers (e : Option Expr) (path : List ScopeName) :
    Gathers (collectOptional e) path (optionalNodes e) (optionalOccurrences e) [] := by
  cases e with
  | none => exact .done
  | some e => exact collectExpr_gathers e path

/-- The target of an assignment with the references to it. The parameters of an anonymous function stand in the
value. -/
theorem target_gathers (use : NameUse Expr) (value : Option Expr) (path : List ScopeName) :
    Gathers (do defineTarget use value; collectUse false use) path
      ((Expr.name use).nodes ++ optionalNodes value)
      (⟨use.root, use.rootSpan, .binding⟩ :: useOccurrences use) [] := by
  obtain ⟨d, hkind, hname, hspan, hparams, hdefine⟩ := exists_defineTarget use value
  have hdeclared : d.isDeclared = false := by
    obtain h | h := hkind <;> simp [Definition.isDeclared, h]
  have harguments : ∀ name ∈ d.arguments, NameSited (.expr (.name use) :: optionalNodes value) name := by
    intro name hname
    obtain ⟨params, body, span, rfl, hparam⟩ := hparams name hname
    exact ⟨_, List.mem_cons_of_mem _ (Expr.mem_nodes _), span, List.mem_map_of_mem hparam⟩
  have htarget : Gathers _ path _ _ _ := .target d hdeclared use hname hspan harguments
  obtain ⟨root, fields, span, args, native, command⟩ := use
  rw [hdefine, Expr.nodes]
  cases args with
  | none =>
    rw [collectUse, useNodes, useOccurrences]
    exact htarget
  | some args =>
    rw [collectUse, useNodes, useOccurrences]
    refine (htarget.behind (collectExprs_gathers args path)).mono fun n hn => ?_
    simp only [List.cons_append, List.mem_append, List.mem_cons] at hn ⊢
    tauto

theorem collectTarget_gathers (target : Target) (path : List ScopeName) :
    Gathers (collectTarget target) path target.toExpr.nodes target.occurrences [] := by
  cases target with
  | name use =>
    have htarget := target_gathers use none path
    rwa [optionalNodes, Option.elim_none, List.append_nil] at htarget
  | ignored span => exact Gathers.done.mono (List.nil_subset _)

theorem collectParam_gathers {param : Param} {node : Node} (hsite : ∀ v ∈ param.variable?, v ∈ node.sites)
    (path : List ScopeName) :
    Gathers (collectParam param) path (node :: param.toExpr.nodes) param.occurrences
      (param.defaultDefinition? path).toList := by
  cases param with
  | plain v =>
    exact (Gathers.binding (.plain v.name .argument v.span []) rfl rfl (hsite v rfl)).mono
      (List.cons_subset_cons _ (List.nil_subset _))
  | optional value =>
    have hdefault := Gathers.before (.binding { Definition.plain value.name .defaultArgument
      value.nameSpan [] with content := value.value.map Expr.render } rfl rfl (hsite _ rfl))
        (collectOptional_gathers value.value path)
    rw [← namedNodes_eq] at hdefault
    rw [Param.toExpr, Expr.nodes]
    exact hdefault.mono (List.cons_subset_cons _ (List.subset_cons_self _ _))
  | ignored span => exact Gathers.done.mono (List.nil_subset _)

/-- What the functions among the statements of a block declare. -/
def declared (fs : List PlacedFunction) : List Definition := fs.flatMap PlacedFunction.definitions

theorem declared_append (fs fs' : List PlacedFunction) :
    declared (fs ++ fs') = declared fs ++ declared fs' :=
  List.flatMap_append

/-- A function: its first line, its parameters in its own scope, and then its body. -/
theorem function_gathers {header : FunctionHeader} {body : List Stmt} {span : Span} {documentation : String}
    {closed : Bool} (hbody : ∀ path, Gathers (collectStmts body) path (stmtNodes body)
      (stmtOccurrences body) (declared (stmtFunctions path body))) :
    Gathers (do
        let scope ← collectHeader header documentation
        within scope do
          header.params.forM collectParam
          collectStmts body) path
      (.stmt (.function header body span documentation closed) ::
        exprNodes (header.outputs.map Output.toExpr) ++ exprNodes (header.params.map Param.toExpr) ++
        stmtNodes body)
      (header.outputs.flatMap Output.occurrences ++ header.nameOccurrences ++
        (header.params.flatMap Param.occurrences ++ stmtOccurrences body))
      (declared (⟨path, header, documentation⟩ :: stmtFunctions (path ++ [.function header.name]) body)) := by
  have hsites : ∀ v ∈ header.outputs.filterMap outputVariable? ++
      (if header.name.isEmpty then [] else [⟨header.name, header.nameSpan⟩]) ++
      header.params.filterMap Param.variable?,
        v ∈ (Node.stmt (.function header body span documentation closed)).sites := fun _ => id
  rw [List.forall_mem_append, List.forall_mem_append] at hsites
  obtain ⟨⟨houtputs, hname⟩, hvars⟩ := hsites
  have hparams : Gathers (header.params.forM collectParam) (path ++ [.function header.name])
      (.stmt (.function header body span documentation closed) ::
        exprNodes (header.params.map Param.toExpr)) (header.params.flatMap Param.occurrences)
      (header.params.flatMap fun param =>
        (param.defaultDefinition? (path ++ [.function header.name])).toList) := by
    refine .forM fun param hparam => ?_
    have hparam' := collectParam_gathers (fun v hv => hvars v (List.mem_filterMap.mpr ⟨param, hparam, hv⟩))
      (path ++ [.function header.name])
    exact hparam'.mono (List.cons_subset_cons _ fun n hn =>
      mem_exprNodes.mpr ⟨_, List.mem_map_of_mem hparam, hn⟩)
  have hnames : ∀ name ∈ header.params.filterMap paramName?,
      NameSited [.stmt (.function header body span documentation closed)] name := by
    intro name hmem
    obtain ⟨param, hparam, hname⟩ := List.mem_filterMap.mp hmem
    obtain ⟨v, hv, rfl⟩ : ∃ v ∈ param.variable?, v.name = name := by
      obtain v | value | span := param
      · exact ⟨v, rfl, Option.some.inj hname⟩
      · exact ⟨_, rfl, Option.some.inj hname⟩
      · contradiction
    exact ⟨_, List.mem_cons_self, v.span, hvars v (List.mem_filterMap.mpr ⟨param, hparam, hv⟩)⟩
  have hfunction := Gathers.function header documentation houtputs
    (fun hempty => ⟨hname _ (by simp [hempty]), hempty, rfl⟩) hnames (hparams.next (hbody _))
  rw [← List.filterMap_eq_flatMap_toList, ← List.append_assoc _ _ (declared _)] at hfunction
  refine hfunction.mono fun n hn => ?_
  simp only [List.cons_append, List.mem_append, List.mem_cons] at hn ⊢
  tauto

mutual

theorem collectStmt_gathers : ∀ (s : Stmt) (path : List ScopeName),
    Gathers (collectStmt s) path s.nodes s.occurrences (declared (s.functions path))
  | .assign target value span silent, path => by
    rw [collectStmt, Stmt.nodes, Stmt.occurrences, Stmt.functions]
    have hassign := (target_gathers target value path).behind (collectOptional_gathers value path)
    refine hassign.mono fun n hn => ?_
    simp only [List.mem_append, List.mem_cons] at hn ⊢
    tauto
  | .assignMany targets value span silent, path => by
    rw [collectStmt, Stmt.nodes, Stmt.occurrences, Stmt.functions]
    have htargets : Gathers (targets.forM collectTarget) path (exprNodes (targets.map Target.toExpr))
        (targets.flatMap Target.occurrences) [] :=
      .all fun target htarget => (collectTarget_gathers target path).mono fun n hn =>
        mem_exprNodes.mpr ⟨_, List.mem_map_of_mem htarget, hn⟩
    exact (htargets.behind (collectOptional_gathers value path)).node
  | .call use silent, path => by
    rw [collectStmt, Stmt.nodes, Stmt.occurrences, Stmt.functions]
    exact (collectUse_gathers true use path).node
  | .expr value silent, path => by
    rw [collectStmt, Stmt.nodes, Stmt.occurrences, Stmt.functions]
    exact (collectExpr_gathers value path).node
  | .function header body span documentation closed, path => by
    rw [collectStmt, Stmt.nodes, Stmt.occurrences, Stmt.functions, FunctionHeader.occurrences,
      List.append_assoc _ _ (stmtOccurrences _)]
    exact function_gathers fun inner => collectStmts_gathers body inner
  | .ifElse condition body clauses none span, path => by
    rw [collectStmt, Stmt.nodes, Stmt.occurrences, Stmt.functions, declared_append, List.append_assoc,
      List.append_assoc]
    exact ((collectOptional_gathers condition path).behind ((collectStmts_gathers body path).next
      (collectBranches_gathers clauses path))).node
  | .ifElse condition body clauses (some other) span, path => by
    rw [collectStmt, Stmt.nodes, Stmt.occurrences, Stmt.functions]
    simp only [declared_append, List.append_assoc]
    exact ((collectOptional_gathers condition path).behind ((collectStmts_gathers body path).next
      ((collectBranches_gathers clauses path).next (collectStmts_gathers other path)))).node
  | .forLoop loopVar iterable body span, path => by
    rw [collectStmt, Stmt.nodes, Stmt.occurrences, Stmt.functions, List.append_assoc, List.append_assoc]
    have hvar : Gathers (loopVar.forM declare) path [.stmt (.forLoop loopVar iterable body span)]
        (loopVar.toList.flatMap Variable.occurrences) [] := .declareOption fun _ => id
    have hloop := hvar.behind ((collectOptional_gathers iterable path).behind (collectStmts_gathers body path))
    exact hloop.mono (List.cons_subset_cons _ (List.subset_append_right _ _))
  | .whileLoop condition body span, path => by
    rw [collectStmt, Stmt.nodes, Stmt.occurrences, Stmt.functions]
    exact ((collectOptional_gathers condition path).behind (collectStmts_gathers body path)).node
  | .doUntil body condition span, path => by
    rw [collectStmt, Stmt.nodes, Stmt.occurrences, Stmt.functions]
    exact ((collectStmts_gathers body path).before (collectOptional_gathers condition path)).node
  | .switch subject cases none span, path => by
    rw [collectStmt, Stmt.nodes, Stmt.occurrences, Stmt.functions]
    exact ((collectOptional_gathers subject path).behind (collectBranches_gathers cases path)).node
  | .switch subject cases (some other) span, path => by
    rw [collectStmt, Stmt.nodes, Stmt.occurrences, Stmt.functions]
    simp only [declared_append, List.append_assoc]
    exact ((collectOptional_gathers subject path).behind ((collectBranches_gathers cases path).next
      (collectStmts_gathers other path))).node
  | .tryCatch body errorVar handler span, path => by
    rw [collectStmt, Stmt.nodes, Stmt.occurrences, Stmt.functions, declared_append, List.append_assoc,
      List.append_assoc]
    have hvar : Gathers (errorVar.forM declare) path [.stmt (.tryCatch body errorVar handler span)]
        (errorVar.toList.flatMap Variable.occurrences) [] := .declareOption fun _ => id
    have htry := (collectStmts_gathers body path).next (hvar.behind (collectStmts_gathers handler path))
    refine htry.mono fun n hn => ?_
    simp only [List.cons_append, List.mem_append, List.mem_cons, List.not_mem_nil] at hn ⊢
    tauto
  | .declare storage names span, path => by
    rw [collectStmt, Stmt.nodes, Stmt.occurrences, Stmt.functions]
    have hnames : Gathers (names.forM declare) path [.stmt (.declare storage names span)]
        (names.flatMap Variable.occurrences) [] := .all fun _ hv => .declare hv
    exact hnames.mono (List.cons_subset_cons _ (List.nil_subset _))
  | .jump jump span, path => by
    rw [collectStmt, Stmt.occurrences, Stmt.functions]
    exact Gathers.done.mono (List.nil_subset _)

theorem collectStmts_gathers : ∀ (ss : List Stmt) (path : List ScopeName),
    Gathers (collectStmts ss) path (stmtNodes ss) (stmtOccurrences ss) (declared (stmtFunctions path ss))
  | [], path => by
    rw [collectStmts, stmtNodes, stmtOccurrences, stmtFunctions]
    exact .done
  | s :: ss, path => by
    rw [collectStmts, stmtNodes, stmtOccurrences, stmtFunctions, declared_append]
    exact (collectStmt_gathers s path).next (collectStmts_gathers ss path)

theorem collectBranches_gathers : ∀ (bs : List (Branch Stmt)) (path : List ScopeName),
    Gathers (collectBranches bs) path (branchNodes bs) (branchOccurrences bs)
      (declared (branchFunctions path bs))
  | [], path => by
    rw [collectBranches, branchNodes, branchOccurrences, branchFunctions]
    exact .done
  | ⟨guard, body, span⟩ :: bs, path => by
    rw [collectBranches, branchNodes, branchNodesOne, branchOccurrences, branchFunctions]
    simp only [declared_append, List.append_assoc]
    exact ((collectOptional_gathers guard path).behind ((collectStmts_gathers body path).next
      (collectBranches_gathers bs path))).node

end

theorem Walk.of_gathers {m : Collector Unit} {ns : List Node} {os : List Occurrence}
    {ds : List ScopeName → List Definition} (h : ∀ path, Gathers m path ns os (ds path)) : Walk m := by
  intro path sees
  obtain ⟨names, s, hacts, -⟩ := h path sees
  exact ⟨names, s, hacts⟩

theorem collectOptional_walk (e : Option Expr) : Walk (collectOptional e) :=
  .of_gathers (collectOptional_gathers e)

theorem collectStmts_walk (ss : List Stmt) : Walk (collectStmts ss) :=
  .of_gathers (collectStmts_gathers ss)

theorem collectBranches_walk (bs : List (Branch Stmt)) : Walk (collectBranches bs) :=
  .of_gathers (collectBranches_gathers bs)

theorem collectParam_walk (param : Param) : Walk (collectParam param) := by
  cases param with
  | plain v => exact fun _ _ => ⟨_, _, .binding (.plain v.name .argument v.span []) rfl⟩
  | optional value =>
    have hdefault : Walk (do
        introduceAs { Definition.plain value.name .defaultArgument value.nameSpan [] with
          content := value.value.map Expr.render }
        referVariable ⟨value.name, value.nameSpan⟩) := fun _ _ => ⟨_, _, .binding _ rfl⟩
    exact hdefault.next (collectOptional_walk value.value)
  | ignored span => exact fun _ _ => ⟨_, _, .done⟩

end Collection

namespace Program

theorem symbols_gathered (p : Program) :
    p.symbols.Gathered p.nodes p.occurrences (p.functions.flatMap PlacedFunction.definitions) := by
  obtain ⟨names, s, hacts, hgathered⟩ := Collection.collectStmts_gathers p.body []
    (Collection.isVariable .empty)
  have hsymbols : p.symbols = s := by
    change (Collection.collectStmts p.body .empty).2.symbols = s
    rw [hacts.run .empty rfl fun _ => rfl, Collection.symbols_add, Collection.symbols_rememberAll]
    rfl
  rw [hsymbols]
  exact hgathered.mono (List.subset_cons_self _ _)

/-- The symbols of a program are its occurrences of names, one by one. -/
theorem symbols_record (p : Program) :
    List.Forall₂ Reference.Records p.symbols.references (p.occurrences.filter Occurrence.isReference) ∧
      List.Forall₂ Definition.Records p.symbols.definitions
        (p.occurrences.filter Occurrence.isBinding) := by
  exact ⟨p.symbols_gathered.references, p.symbols_gathered.definitions⟩

theorem exists_occurrence_of_reference {p : Program} {r : Reference} (hr : r ∈ p.symbols.references) :
    ∃ o ∈ p.occurrences, o.isReference = true ∧ r.Records o := by
  obtain ⟨o, ho, hrecords⟩ := exists_related p.symbols_record.1 hr
  exact ⟨o, (List.mem_filter.mp ho).1, (List.mem_filter.mp ho).2, hrecords⟩

theorem exists_occurrence_of_definition {p : Program} {d : Definition} (hd : d ∈ p.symbols.definitions) :
    ∃ o ∈ p.occurrences, o.isBinding = true ∧ d.Records o := by
  obtain ⟨o, ho, hrecords⟩ := exists_related p.symbols_record.2 hd
  exact ⟨o, (List.mem_filter.mp ho).1, (List.mem_filter.mp ho).2, hrecords⟩

theorem exists_reference_of_occurrence {p : Program} {o : Occurrence} (ho : o ∈ p.occurrences)
    (hreference : o.isReference = true) : ∃ r ∈ p.symbols.references, r.Records o :=
  exists_related p.symbols_record.1.flip (List.mem_filter.mpr ⟨ho, hreference⟩)

theorem reference_spans (p : Program) :
    p.symbols.references.map (·.span) = (p.occurrences.filter Occurrence.isReference).map (·.span) := by
  rw [← List.forall₂_eq_eq_eq, List.forall₂_map_left_iff, List.forall₂_map_right_iff]
  exact p.symbols_record.1.imp fun _ _ h => h.span_eq

theorem definition_spans (p : Program) :
    p.symbols.definitions.map (·.span) = (p.occurrences.filter Occurrence.isBinding).map (·.span) := by
  rw [← List.forall₂_eq_eq_eq, List.forall₂_map_left_iff, List.forall₂_map_right_iff]
  exact p.symbols_record.2.imp fun _ _ h => h.span_eq

/-- Every symbol of a program is collected at one of its nodes. -/
theorem symbols_within (p : Program) :
    (∀ r ∈ p.symbols.references, '.' ∉ r.name.toList → ∃ n ∈ p.nodes, ⟨r.name, r.span⟩ ∈ n.sites) ∧
      ∀ d ∈ p.symbols.definitions, ∃ n ∈ p.nodes, ⟨d.name, d.span⟩ ∈ n.sites := by
  refine ⟨fun r hr hname => ?_, fun d hd => ?_⟩
  · obtain ⟨o, ho, -, hrecords⟩ := exists_occurrence_of_reference hr
    rw [hrecords.name_eq] at hname ⊢
    rw [hrecords.span_eq]
    exact (p.symbols_gathered.sites o ho).resolve_left fun hpath => hname hpath.2
  · obtain ⟨o, ho, hbinding, hrecords⟩ := exists_occurrence_of_definition hd
    rw [hrecords.name_eq, hrecords.span_eq]
    refine (p.symbols_gathered.sites o ho).resolve_left fun hpath => ?_
    rw [Occurrence.isBinding, hpath.1] at hbinding
    contradiction

/-- The definition of a function comes from the first line of one. -/
theorem exists_function (p : Program) {d : Definition} (hd : d ∈ p.symbols.definitions)
    (hkind : d.kind = .function) : ∃ f ∈ p.functions, f.definition? = some d := by
  have hmem : d ∈ p.symbols.definitions.filter Definition.isDeclared :=
    List.mem_filter.mpr ⟨hd, by simp [Definition.isDeclared, hkind]⟩
  rw [p.symbols_gathered.declared] at hmem
  obtain ⟨f, hf, hmem⟩ := List.mem_flatMap.mp hmem
  obtain hown | hdefault := List.mem_append.mp hmem
  · exact ⟨f, hf, Option.mem_toList.mp hown⟩
  · obtain ⟨param, -, hparam⟩ := List.mem_filterMap.mp hdefault
    obtain v | value | span := param
    · contradiction
    · obtain rfl := Option.some.inj hparam
      contradiction
    · contradiction

theorem definition_mem (p : Program) {f : PlacedFunction} {d : Definition} (hf : f ∈ p.functions)
    (hd : f.definition? = some d) : d ∈ p.symbols.definitions := by
  have hmem : d ∈ p.symbols.definitions.filter Definition.isDeclared := by
    rw [p.symbols_gathered.declared]
    exact List.mem_flatMap.mpr ⟨f, hf, List.mem_append_left _ (Option.mem_toList.mpr hd)⟩
  exact (List.mem_filter.mp hmem).1

end Program

/-- The walk over a node with all its parts. -/
def Node.collect : Node → Collector Unit
  | .expr e => Collection.collectExpr e
  | .stmt s => Collection.collectStmt s
  | .branch b => Collection.collectBranches [b]
  | .program p => Collection.collectStmts p.body

theorem Node.collect_walk (n : Node) : Collection.Walk n.collect := by
  cases n with
  | expr e => exact .of_gathers (Collection.collectExpr_gathers e)
  | stmt s => exact .of_gathers (Collection.collectStmt_gathers s)
  | branch b => exact Collection.collectBranches_walk [b]
  | program p => exact Collection.collectStmts_walk p.body

/-- What the walk over a node does to a collection. -/
theorem Node.exists_acts (n : Node) (c : Collection) :
    ∃ names s, Symbols.Sited s ∧ (n.collect c).2 = (c.rememberAll names).add s := by
  obtain ⟨names, s, hacts⟩ := n.collect_walk c.path c.isVariable
  exact ⟨names, s, hacts.sited, hacts.run c rfl fun _ => rfl⟩

/-- Each definition has its own reference, which stands for a function just if the definition does. The
order of the definitions is that of their references. -/
def Symbols.Matched (s : Symbols) : Prop :=
  ∃ site : Nat ↪o Nat, ∀ (i : Nat) (d : Definition), s.definitions[i]? = some d →
    ∃ r, s.references[site i]? = some r ∧ r.name = d.name ∧ r.span = d.span ∧
      (r.kind = .function ↔ d.kind = .function)

theorem Symbols.Sited.matched {s : Symbols} (h : s.Sited) : s.Matched := by
  obtain ⟨site, hsite⟩ := List.sublist_iff_exists_orderEmbedding_getElem?_eq.mp h
  refine ⟨site, fun i d hd => ?_⟩
  have hsame := hsite i
  rw [List.getElem?_map, List.getElem?_map, hd] at hsame
  obtain ⟨r, hr, heq⟩ := Option.map_eq_some_iff.mp hsame.symm
  refine ⟨r, hr, congrArg Site.name heq, congrArg Site.span heq, ?_⟩
  have hkind := congrArg Site.isFunction heq
  simp only [Reference.site, Definition.site, Definition.isFunction] at hkind
  rw [← beq_iff_eq, hkind, beq_iff_eq]

/-- A definition implies a reference at its own site: the definitions of a program match references of it,
and already those that the walk over one node adds match references that the same walk adds. -/
theorem Program.definitions_matched (p : Program) : p.symbols.Matched ∧ ∀ (n : Node) (c : Collection),
    ∃ added : Symbols, (n.collect c).2.symbols = c.symbols ++ added ∧ added.Matched := by
  have hnode (n : Node) (c : Collection) :
      ∃ added : Symbols, (n.collect c).2.symbols = c.symbols ++ added ∧ added.Matched := by
    obtain ⟨names, added, hsited, hrun⟩ := n.exists_acts c
    refine ⟨added, ?_, hsited.matched⟩
    rw [hrun, Collection.symbols_add, Collection.symbols_rememberAll]
  refine ⟨?_, hnode⟩
  obtain ⟨added, hsymbols, hmatched⟩ := hnode (.program p) .empty
  have hadded : p.symbols = added := hsymbols
  exact hadded ▸ hmatched

end MatrixScript
