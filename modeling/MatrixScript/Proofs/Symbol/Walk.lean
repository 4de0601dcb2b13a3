import MatrixScript.Symbol.Collection
import MatrixScript.Syntax.Node
import Mathlib.Data.List.NodupEquivFin
import Mathlib.Tactic.Common

/-! What a walk over a tree does to a collection.

Every walk is put together from a few kinds of steps. Main statement: a walk notes some names in the
innermost scope and records some symbols. Which ones depends only on the names of the scopes around it and
on the variables that are visible, and every definition among them comes with a reference of its own. -/
namespace MatrixScript

/-- The name and the place of a symbol, and whether it stands for a function. -/
structure Site where
  name : String
  span : Span
  isFunction : Bool
deriving DecidableEq, Repr

def Reference.site (r : Reference) : Site := ⟨r.name, r.span, r.kind == .function⟩

def Definition.site (d : Definition) : Site := ⟨d.name, d.span, d.isFunction⟩

namespace Symbols

instance : EmptyCollection Symbols := ⟨⟨[], []⟩⟩

instance : Append Symbols :=
  ⟨fun s t => ⟨s.references ++ t.references, s.definitions ++ t.definitions⟩⟩

@[simp] theorem references_empty : (∅ : Symbols).references = [] := rfl

@[simp] theorem definitions_empty : (∅ : Symbols).definitions = [] := rfl

@[simp] theorem references_append (s t : Symbols) :
    (s ++ t).references = s.references ++ t.references := rfl

@[simp] theorem definitions_append (s t : Symbols) :
    (s ++ t).definitions = s.definitions ++ t.definitions := rfl

theorem append_assoc (s t u : Symbols) : s ++ t ++ u = s ++ (t ++ u) :=
  congrArg₂ mk (List.append_assoc _ _ _) (List.append_assoc _ _ _)

@[simp] theorem append_empty (s : Symbols) : s ++ ∅ = s :=
  congrArg₂ mk (List.append_nil _) (List.append_nil _)

@[simp] theorem empty_append (s : Symbols) : ∅ ++ s = s := rfl

/-- Every definition has a reference of its own, in the same order, that agrees with it. -/
def Sited (s : Symbols) : Prop :=
  (s.definitions.map Definition.site).Sublist (s.references.map Reference.site)

theorem Sited.append {s t : Symbols} (hs : s.Sited) (ht : t.Sited) : (s ++ t).Sited := by
  unfold Sited
  rw [references_append, definitions_append, List.map_append, List.map_append]
  exact List.Sublist.append hs ht

/-- References alone. -/
theorem sited_of_definitions_nil {s : Symbols} (h : s.definitions = []) : s.Sited := by
  rw [Sited, h]
  exact List.nil_sublist _

/-- A definition with the first reference. -/
theorem sited_cons {d : Definition} {r : Reference} (rs : List Reference) (h : d.site = r.site) :
    (⟨r :: rs, [d]⟩ : Symbols).Sited := by
  have hfirst : [r.site].Sublist ((r :: rs).map Reference.site) :=
    List.singleton_sublist.mpr List.mem_cons_self
  rw [Sited, List.map_singleton, h]
  exact hfirst

/-- Definitions and references made from the same things. -/
theorem sited_map {α : Type} (as : List α) {f : α → Reference} {g : α → Definition}
    (h : ∀ a, (g a).site = (f a).site) : (⟨as.map f, as.map g⟩ : Symbols).Sited := by
  have hsites : (as.map g).map Definition.site = (as.map f).map Reference.site := by
    simp only [List.map_map]
    exact List.map_congr_left fun a _ => h a
  rw [Sited, hsites]

end Symbols

namespace Collection

/-- The collection with more symbols. -/
def add (c : Collection) (s : Symbols) : Collection :=
  { c with
    references := c.references ++ s.references.toArray
    definitions := c.definitions ++ s.definitions.toArray }

def rememberAll (c : Collection) (names : List String) : Collection :=
  names.foldl remember c

/-- What was collected so far. -/
def symbols (c : Collection) : Symbols := ⟨c.references.toList, c.definitions.toList⟩

@[simp] theorem symbols_add (c : Collection) (s : Symbols) : (c.add s).symbols = c.symbols ++ s :=
  congrArg₂ Symbols.mk Array.toList_append Array.toList_append

@[simp] theorem symbols_remember (c : Collection) (name : String) :
    (c.remember name).symbols = c.symbols := by
  obtain ⟨references, definitions, scopes, topLevel⟩ := c
  cases scopes <;> rfl

@[simp] theorem path_add (c : Collection) (s : Symbols) : (c.add s).path = c.path := rfl

@[simp] theorem isVariable_add (c : Collection) (s : Symbols) (name : String) :
    (c.add s).isVariable name = c.isVariable name := rfl

@[simp] theorem add_empty (c : Collection) : c.add ∅ = c := by
  simp [add]

@[simp] theorem add_add (c : Collection) (s t : Symbols) : (c.add s).add t = c.add (s ++ t) := by
  simp [add]

@[simp] theorem remember_add (c : Collection) (s : Symbols) (name : String) :
    (c.add s).remember name = (c.remember name).add s := by
  obtain ⟨references, definitions, scopes, topLevel⟩ := c
  cases scopes <;> rfl

@[simp] theorem path_remember (c : Collection) (name : String) : (c.remember name).path = c.path := by
  obtain ⟨references, definitions, scopes, topLevel⟩ := c
  cases scopes <;> simp [remember, path]

@[simp] theorem isVariable_remember (c : Collection) (name other : String) :
    (c.remember name).isVariable other = (other == name || c.isVariable other) := by
  obtain ⟨references, definitions, scopes, topLevel⟩ := c
  cases scopes <;> simp [remember, isVariable, isVisible, Bool.or_assoc, Bool.beq_eq_decide_eq]

@[simp] theorem rememberAll_nil (c : Collection) : c.rememberAll [] = c := rfl

@[simp] theorem rememberAll_cons (c : Collection) (name : String) (names : List String) :
    c.rememberAll (name :: names) = (c.remember name).rememberAll names := rfl

theorem rememberAll_append (c : Collection) (names more : List String) :
    c.rememberAll (names ++ more) = (c.rememberAll names).rememberAll more :=
  List.foldl_append

@[simp] theorem rememberAll_add (c : Collection) (s : Symbols) (names : List String) :
    (c.add s).rememberAll names = (c.rememberAll names).add s := by
  induction names generalizing c with
  | nil => rfl
  | cons name names ih => rw [rememberAll_cons, remember_add, ih, rememberAll_cons]

@[simp] theorem symbols_rememberAll (c : Collection) (names : List String) :
    (c.rememberAll names).symbols = c.symbols := by
  induction names generalizing c with
  | nil => rfl
  | cons name names ih => rw [rememberAll_cons, ih, symbols_remember]

@[simp] theorem path_rememberAll (c : Collection) (names : List String) :
    (c.rememberAll names).path = c.path := by
  induction names generalizing c with
  | nil => rfl
  | cons name names ih => rw [rememberAll_cons, ih, path_remember]

@[simp] theorem isVariable_rememberAll (c : Collection) (names : List String) (other : String) :
    (c.rememberAll names).isVariable other = (names.contains other || c.isVariable other) := by
  induction names generalizing c with
  | nil => rfl
  | cons name names ih =>
    rw [rememberAll_cons, ih, isVariable_remember, List.contains_cons, Bool.or_left_comm, Bool.or_assoc]

/-- The collection with one more scope. -/
def enter (c : Collection) (scope : Scope) : Collection := { c with scopes := scope :: c.scopes }

/-- The collection without its innermost scope. -/
def leave (c : Collection) : Collection := { c with scopes := c.scopes.tail }

@[simp] theorem path_enter (c : Collection) (scope : Scope) :
    (c.enter scope).path = c.path ++ [scope.name] := by
  simp [enter, path]

theorem isVariable_enter (c : Collection) (scope : Scope) (name : String) :
    (c.enter scope).isVariable name =
      (scope.assigned.contains name || (scope.name == .anonymous && c.isVariable name)) := rfl

/-- Names noted in a scope are forgotten with it. -/
theorem leave_rememberAll (c : Collection) (scope : Scope) (names : List String) :
    ((c.enter scope).rememberAll names).leave = c := by
  induction names generalizing scope with
  | nil => rfl
  | cons name names ih => exact ih { scope with assigned := scope.assigned.insert name }

@[simp] theorem leave_add (c : Collection) (s : Symbols) : (c.add s).leave = c.leave.add s := rfl

theorem bind_run {α β : Type} (m : Collector α) (f : α → Collector β) (c : Collection) :
    ((m >>= f) c).2 = (f (m c).1 (m c).2).2 := rfl

theorem within_run (scope : Scope) (body : Collector Unit) (c : Collection) :
    (within scope body c).2 = (body (c.enter scope)).2.leave := rfl

theorem refer_run (r : Reference) (c : Collection) : (refer r c).2 = c.add ⟨[r], []⟩ := by
  change ({ c with references := c.references.push r } : Collection) = _
  simp [add]

theorem define_run (d : Definition) (c : Collection) : (define d c).2 = c.add ⟨[], [d]⟩ := by
  change ({ c with definitions := c.definitions.push d } : Collection) = _
  simp [add]

/-- A definition in the present scope. -/
def introduceAs (d : Definition) : Collector Unit := do
  define { d with scope := (← get).path }
  modify (·.remember d.name)

theorem introduceAs_run (d : Definition) (c : Collection) :
    (introduceAs d c).2 = (c.remember d.name).add ⟨[], [{ d with scope := c.path }]⟩ := by
  change (define { d with scope := c.path } c).2.remember d.name = _
  rw [define_run, remember_add]

/-- The references that a use of a name makes. -/
def useReferences (asCall isVariable : Bool) (use : NameUse Expr) : List Reference :=
  let isFunction := (asCall || use.isCall || use.native || use.command) && !isVariable
  let count := if isFunction && !use.isDotted then use.args.map List.length else none
  ⟨use.root, if isFunction then .function else .variable, use.rootSpan, "", count⟩ ::
    if use.isDotted then [⟨use.name, .variable, use.nameSpan, "", none⟩] else []

theorem referUse_run (asCall : Bool) (use : NameUse Expr) (c : Collection) :
    (referUse asCall use c).2 = c.add ⟨useReferences asCall (c.isVariable use.root) use, []⟩ := by
  change ((if use.isDotted then refer _ else pure ()) (refer _ c).2).2 = _
  rw [refer_run, useReferences]
  by_cases hdotted : use.isDotted = true
  · rw [if_pos hdotted, if_pos hdotted]
    exact (refer_run _ _).trans (add_add _ _ _)
  · rw [if_neg hdotted, if_neg hdotted]
    rfl

theorem referVariables_run (params : List String) (span : Span) (c : Collection) :
    ((params.forM fun param => referVariable ⟨param, span⟩) c).2 =
      c.add ⟨params.map (⟨·, .variable, span, "", none⟩), []⟩ := by
  induction params generalizing c with
  | nil => exact (add_empty c).symm
  | cons param params ih =>
    rw [List.forM, bind_run, ih, referVariable, refer_run, add_add]
    rfl

theorem introduceParams_run (params : List String) (span : Span) (c : Collection) :
    (introduceParams params span c).2 =
      (c.rememberAll params).add ⟨[], params.map (.plain · .argument span c.path)⟩ := by
  induction params generalizing c with
  | nil => exact (add_empty c).symm
  | cons param params ih =>
    change (introduceParams params span (introduceAs (.plain param .argument span []) c).2).2 = _
    rw [ih, introduceAs_run, rememberAll_add, add_add, path_add, path_remember]
    rfl

/-- What the parameters of an anonymous function make. -/
def paramSymbols (path : List ScopeName) (params : List String) (span : Span) : Symbols :=
  ⟨params.map (⟨·, .variable, span, "", none⟩), params.map (.plain · .argument span path)⟩

/-- The names of the outputs, which are variables of the function from the start. -/
def outputNames (header : FunctionHeader) : List String :=
  (header.outputs.filterMap outputVariable?).map (·.name)

/-- What the outputs of a function make, in the scope of the function. -/
def outputSymbols (inner : List ScopeName) (outputs : List Variable) : Symbols :=
  ⟨outputs.map fun v => ⟨v.name, .variable, v.span, "", none⟩,
    outputs.map fun v => .plain v.name .variable v.span inner⟩

theorem defineOutputs_run (inner : List ScopeName) (outputs : List Variable) (c : Collection) :
    (outputs.forM (defineOutput inner) c).2 = c.add (outputSymbols inner outputs) := by
  induction outputs generalizing c with
  | nil => exact (add_empty c).symm
  | cons v outputs ih =>
    rw [List.forM, bind_run, ih, defineOutput, bind_run, define_run, referVariable, refer_run, add_add,
      add_add]
    rfl

/-- What the name of a function makes. -/
def functionSymbols (path : List ScopeName) (header : FunctionHeader) (documentation : String) :
    Symbols :=
  if header.name.isEmpty then ∅
  else ⟨[⟨header.name, .function, header.nameSpan, documentation, none⟩],
    [{ Definition.plain header.name .function header.nameSpan path with
      documentation
      arguments := header.params.filterMap paramName?
      optionalArguments := header.params.countP isOptionalParam }]⟩

theorem defineFunction_run (header : FunctionHeader) (documentation : String) (c : Collection) :
    (defineFunction header documentation c).2 =
      c.add (functionSymbols c.path header documentation) := by
  unfold defineFunction functionSymbols
  split_ifs
  · exact (add_empty c).symm
  · change (refer _ (define _ c).2).2 = _
    rw [define_run, refer_run, add_add]
    rfl

/-- What a header makes before the scope of the function is entered. -/
def headerSymbols (path : List ScopeName) (header : FunctionHeader) (documentation : String) : Symbols :=
  outputSymbols (path ++ [.function header.name]) (header.outputs.filterMap outputVariable?) ++
    functionSymbols path header documentation

theorem headerSymbols_sited (path : List ScopeName) (header : FunctionHeader) (documentation : String) :
    (headerSymbols path header documentation).Sited := by
  refine Symbols.Sited.append (Symbols.sited_map _ fun _ => rfl) ?_
  unfold functionSymbols
  split_ifs
  · exact List.Sublist.refl _
  · exact Symbols.sited_cons [] rfl

theorem collectHeader_run (header : FunctionHeader) (documentation : String) (c : Collection) :
    collectHeader header documentation c =
      (⟨.function header.name, outputNames header⟩,
        c.add (headerSymbols c.path header documentation)) := by
  refine Prod.ext rfl ?_
  change (defineFunction header documentation
    ((header.outputs.filterMap outputVariable?).forM (defineOutput _) c).2).2 = _
  rw [defineOutputs_run, defineFunction_run, add_add]
  rfl

/-- In scopes with these names, and with these variables visible, the collector notes `names` in the
innermost scope and records `s`. -/
structure Acts (m : Collector Unit) (path : List ScopeName) (sees : String → Bool)
    (names : List String) (s : Symbols) : Prop where
  run : ∀ c : Collection, c.path = path → (∀ name, c.isVariable name = sees name) →
    (m c).2 = (c.rememberAll names).add s
  sited : s.Sited

namespace Acts

variable {m n : Collector Unit} {path : List ScopeName} {sees : String → Bool}
  {names more : List String} {s t : Symbols}

theorem done : Acts (pure ()) path sees [] ∅ :=
  ⟨fun c _ _ => (add_empty c).symm, List.Sublist.refl _⟩

/-- The names that the first part notes are visible to the second one. -/
theorem next (hm : Acts m path sees names s)
    (hn : Acts n path (fun name => names.contains name || sees name) more t) :
    Acts (do m; n) path sees (names ++ more) (s ++ t) := by
  refine ⟨fun c hpath hsees => ?_, hm.sited.append hn.sited⟩
  change (n (m c).2).2 = _
  rw [hm.run c hpath hsees, hn.run, rememberAll_add, add_add, rememberAll_append]
  · rw [path_add, path_rememberAll, hpath]
  · intro name
    rw [isVariable_add, isVariable_rememberAll, hsees]

theorem refer (r : Reference) : Acts (Collection.refer r) path sees [] ⟨[r], []⟩ :=
  ⟨fun c _ _ => refer_run r c, Symbols.sited_of_definitions_nil rfl⟩

theorem use (asCall : Bool) (use : NameUse Expr) :
    Acts (referUse asCall use) path sees [] ⟨useReferences asCall (sees use.root) use, []⟩ := by
  refine ⟨fun c _ hsees => ?_, Symbols.sited_of_definitions_nil rfl⟩
  rw [referUse_run, hsees]
  rfl

/-- A variable that is introduced and referred to at the same place. -/
theorem binding (d : Definition) (hkind : d.isFunction = false) :
    Acts (do introduceAs d; referVariable ⟨d.name, d.span⟩) path sees [d.name]
      ⟨[⟨d.name, .variable, d.span, "", none⟩], [{ d with scope := path }]⟩ := by
  refine ⟨fun c hpath _ => ?_, Symbols.sited_cons [] (congrArg (Site.mk d.name d.span) hkind)⟩
  change (referVariable ⟨d.name, d.span⟩ (introduceAs d c).2).2 = _
  rw [introduceAs_run, hpath]
  exact (refer_run _ _).trans (add_add _ _ _)

/-- The target of an assignment is a variable from now on, also where it looks like a call. -/
theorem target (d : Definition) (hkind : d.isFunction = false) (use : NameUse Expr)
    (hname : d.name = use.root) (hspan : d.span = use.rootSpan) :
    Acts (do introduceAs d; referUse false use) path sees [d.name]
      ⟨useReferences false true use, [{ d with scope := path }]⟩ := by
  refine ⟨fun c hpath _ => ?_, Symbols.sited_cons _ ?_⟩
  · change (referUse false use (introduceAs d c).2).2 = _
    rw [introduceAs_run, referUse_run, isVariable_add, isVariable_remember, hname, beq_self_eq_true,
      Bool.true_or, add_add, hpath]
    rfl
  · simp [Definition.site, Reference.site, Definition.isFunction] at hkind ⊢
    exact ⟨hname, hspan, hkind⟩

/-- The parameters of an anonymous function are visible in its body, and so is what is visible around it. -/
theorem anonymous (params : List String) (span : Span) {body : Collector Unit}
    (hbody : Acts body (path ++ [.anonymous]) (fun name => params.contains name || sees name) names s) :
    Acts (do
        params.forM fun param => referVariable ⟨param, span⟩
        within ⟨.anonymous, []⟩ do
          introduceParams params span
          body) path sees []
      (paramSymbols (path ++ [.anonymous]) params span ++ s) := by
  refine ⟨fun c hpath hsees => ?_, (Symbols.sited_map params fun _ => rfl).append hbody.sited⟩
  rw [bind_run, referVariables_run, within_run, bind_run, introduceParams_run, hbody.run]
  · rw [path_enter, path_add, hpath, rememberAll_add, ← rememberAll_append, leave_add, leave_add,
      leave_rememberAll, add_add, add_add]
    rfl
  · rw [path_add, path_rememberAll, path_enter, path_add, hpath]
  · intro name
    rw [isVariable_add, isVariable_rememberAll, isVariable_enter, isVariable_add, hsees]
    rfl

/-- The body of a named function sees its outputs, and nothing from around it. -/
theorem function (header : FunctionHeader) (documentation : String) {body : Collector Unit}
    (hbody : Acts body (path ++ [.function header.name]) ((outputNames header).contains ·) names s) :
    Acts (do
        let scope ← collectHeader header documentation
        within scope body) path sees []
      (headerSymbols path header documentation ++ s) := by
  refine ⟨fun c hpath _ => ?_, (headerSymbols_sited path header documentation).append hbody.sited⟩
  rw [bind_run, collectHeader_run, within_run, hbody.run]
  · rw [leave_add, leave_rememberAll, add_add, hpath]
    rfl
  · rw [path_enter, path_add, hpath]
  · intro name
    rw [isVariable_enter]
    exact Bool.or_false _

end Acts

/-- What the collector does depends only on the names of the scopes and on the visible variables. -/
def Walk (m : Collector Unit) : Prop :=
  ∀ path sees, ∃ names s, Acts m path sees names s

namespace Walk

variable {m n : Collector Unit}

theorem next (hm : Walk m) (hn : Walk n) : Walk (do m; n) := by
  intro path sees
  obtain ⟨names, s, hacts⟩ := hm path sees
  obtain ⟨more, t, hacts'⟩ := hn path fun name => names.contains name || sees name
  exact ⟨_, _, hacts.next hacts'⟩

theorem forM {α : Type} {f : α → Collector Unit} (h : ∀ a, Walk (f a)) (as : List α) :
    Walk (as.forM f) := by
  induction as with
  | nil => exact fun _ _ => ⟨_, _, .done⟩
  | cons a as ih => exact next (h a) ih

/-- A plain variable, if there is one. -/
theorem declareOption (v : Option Variable) : Walk (v.forM Collection.declare) := by
  cases v with
  | none => exact fun _ _ => ⟨_, _, .done⟩
  | some v => exact fun _ _ => ⟨_, _, .binding (.plain v.name .variable v.span []) rfl⟩

end Walk

/-- An assignment introduces a variable or an anonymous function. The parameters of an anonymous function are
the arguments of its definition. -/
theorem exists_defineTarget (use : NameUse Expr) (value : Option Expr) :
    ∃ d : Definition, (d.kind = .variable ∨ d.kind = .anonymousFunction) ∧ d.name = use.root ∧
      d.span = use.rootSpan ∧
      (∀ name ∈ d.arguments, ∃ params body span, value = some (.anonymous params body span) ∧ name ∈ params) ∧
      defineTarget use value = introduceAs d := by
  have hplain : ∃ d : Definition, (d.kind = .variable ∨ d.kind = .anonymousFunction) ∧
      d.name = use.root ∧ d.span = use.rootSpan ∧
      (∀ name ∈ d.arguments, ∃ params body span, value = some (.anonymous params body span) ∧ name ∈ params) ∧
      (do define (.plain use.root .variable use.rootSpan (← get).path)
          modify (·.remember use.root)) = introduceAs d :=
    ⟨.plain use.root .variable use.rootSpan [], .inl rfl, rfl, rfl, List.forall_mem_nil _, rfl⟩
  cases value with
  | none => exact hplain
  | some value =>
    cases value with
    | anonymous params body span =>
      exact ⟨{ Definition.plain use.root .anonymousFunction use.rootSpan [] with arguments := params },
        .inr rfl, rfl, rfl, fun name hname => ⟨params, body, span, rfl, hname⟩, rfl⟩
    | _ => exact hplain

end Collection

end MatrixScript
