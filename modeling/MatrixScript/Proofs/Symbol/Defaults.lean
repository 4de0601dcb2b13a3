import MatrixScript.Document
import MatrixScript.Proofs.Symbol.Gathering
import MatrixScript.Symbol.Signature

/-! The default values that the signature of a function shows.

Main statement: they are the last ones declared by any function of that name in that scope, so that a
function shows its own ones unless another function of its name declares others. -/
namespace MatrixScript

theorem Registry.get?_foldl_put {α : Type} (r : Registry α) (entries : List (String × α)) (name : String) :
    (entries.foldl (fun found entry => found.put entry.1 entry.2) r).get? name =
      (entries.reverse.lookup name).or (r.get? name) := by
  induction entries generalizing r with
  | nil => rfl
  | cons entry entries ih =>
    rw [List.foldl_cons, ih, get?_put, List.reverse_cons, List.lookup_append, lookup_cons_eq_ite,
      Option.or_assoc]
    split_ifs <;> rfl

/-- A default value that could be read, with the name of its parameter. -/
def Param.default? : Param → Option (String × String)
  | .optional value => value.value.map fun e => (value.name, e.render)
  | .plain _ => none
  | .ignored _ => none

/-- The default values in the first line of a function. If a parameter stands there twice, the last one counts. -/
def FunctionHeader.default? (header : FunctionHeader) (name : String) : Option String :=
  (header.params.filterMap Param.default?).reverse.lookup name

/-- The default value that a definition stands for in this scope. -/
def Definition.defaultIn? (inner : List ScopeName) (d : Definition) : Option (String × String) :=
  if d.kind == .defaultArgument && d.scope == inner then d.content.map (d.name, ·) else none

namespace PlacedFunction

/-- The default values of the parameters that belong to this scope. -/
def defaultsIn (inner : List ScopeName) (f : PlacedFunction) : List (String × String) :=
  if f.inner == inner then f.header.params.filterMap Param.default? else []

/-- The last default value that one of the functions declares for a name of this scope. -/
def lastDefault (fs : List PlacedFunction) (inner : List ScopeName) (name : String) : Option String :=
  (fs.flatMap (defaultsIn inner)).reverse.lookup name

theorem lastDefault_append (fs fs' : List PlacedFunction) (inner : List ScopeName) (name : String) :
    lastDefault (fs ++ fs') inner name = (lastDefault fs' inner name).or (lastDefault fs inner name) := by
  rw [lastDefault, List.flatMap_append, List.reverse_append, List.lookup_append]
  rfl

theorem lastDefault_cons (f : PlacedFunction) (fs : List PlacedFunction) (name : String) :
    lastDefault (f :: fs) f.inner name = (lastDefault fs f.inner name).or (f.header.default? name) := by
  have hown : lastDefault [f] f.inner name = f.header.default? name := by
    simp [lastDefault, defaultsIn, FunctionHeader.default?]
  rw [← List.singleton_append, lastDefault_append, hown]

theorem lastDefault_eq_none_iff (fs : List PlacedFunction) (inner : List ScopeName) :
    (∀ name, lastDefault fs inner name = none) ↔ ∀ f ∈ fs, f.defaultsIn inner = [] := by
  rw [← List.flatMap_eq_nil_iff]
  refine ⟨fun h => List.eq_nil_iff_forall_not_mem.mpr fun entry hentry => ?_, fun h name => ?_⟩
  · have hother := List.lookup_eq_none_iff.mp (h entry.1) entry (List.mem_reverse.mpr hentry)
    exact bne_iff_ne.mp hother rfl
  · rw [lastDefault, h]
    rfl

theorem innerScope_eq {f : PlacedFunction} {d : Definition} (h : f.definition? = some d) :
    d.innerScope = f.inner := by
  obtain ⟨-, h⟩ := Option.ite_none_left_eq_some.mp h
  obtain rfl := Option.some.inj h
  rfl

/-- The first line of a function declares its default values in its own scope only. -/
theorem filterMap_definitions (f : PlacedFunction) (inner : List ScopeName) :
    f.definitions.filterMap (Definition.defaultIn? inner) = f.defaultsIn inner := by
  have hown : f.definition?.toList.filterMap (Definition.defaultIn? inner) = [] := by
    unfold definition?
    split_ifs <;> rfl
  have hparam (param : Param) : (param.defaultDefinition? f.inner).bind (Definition.defaultIn? inner) =
      if f.inner == inner then param.default? else none := by
    obtain v | value | span := param
    · exact (ite_self none).symm
    · simp [Param.defaultDefinition?, Param.default?, Definition.defaultIn?, Definition.plain,
        Function.comp_def]
    · exact (ite_self none).symm
  rw [definitions, List.filterMap_append, hown, List.nil_append, List.filterMap_filterMap, defaultsIn]
  simp only [hparam]
  split_ifs
  · rfl
  · exact List.filterMap_eq_nil_iff.mpr fun _ _ => rfl

end PlacedFunction

theorem Definition.get?_defaults (f : Definition) (ds : List Definition) (name : String) :
    (f.defaults ds).get? name = (ds.filterMap (defaultIn? f.innerScope)).reverse.lookup name := by
  have hdefaults : f.defaults ds = (ds.filterMap (defaultIn? f.innerScope)).foldl
      (fun found entry => found.put entry.1 entry.2) .empty := by
    rw [defaults, List.foldl_filterMap]
    congr 1
    funext found d
    unfold defaultIn?
    split_ifs
    · cases d.content <;> rfl
    · rfl
  rw [hdefaults, Registry.get?_foldl_put, Registry.get?_empty, Option.or_none]

theorem Program.get?_defaults (p : Program) (f : Definition) (name : String) :
    (f.defaults p.symbols.definitions).get? name =
      PlacedFunction.lastDefault p.functions f.innerScope name := by
  have hdeclared : p.symbols.definitions.filterMap (Definition.defaultIn? f.innerScope) =
      (p.symbols.definitions.filter Definition.isDeclared).filterMap
        (Definition.defaultIn? f.innerScope) := by
    rw [List.filterMap_filter]
    congr 1
    funext d
    by_cases hkind : d.kind = .defaultArgument
    · simp [Definition.isDeclared, hkind]
    · simp [Definition.defaultIn?, hkind]
  rw [Definition.get?_defaults, hdeclared, p.symbols_gathered.declared, List.filterMap_flatMap]
  simp only [PlacedFunction.filterMap_definitions]
  rfl

theorem or_or_eq_middle_iff {α : Type} (later own earlier : Option α) :
    (later.or own).or earlier = own ↔
      (∀ value ∈ later, own = some value) ∧ (own = none → earlier = none) := by
  cases later <;> cases own <;> simp [eq_comm]

namespace Snapshot

/-- The default values that signatures show. -/
structure ShowsLastDefaults (s : Snapshot) : Prop where
  /-- The definition of a function comes from the first line of one. -/
  recorded : ∀ f ∈ s.definitions, f.kind = .function → ∃ g ∈ s.program.functions, g.definition? = some f
  /-- Whatever has the name and the scope of a function shows the last values declared there. -/
  values : ∀ (f : Definition) (name : String), (f.defaults s.definitions).get? name =
    PlacedFunction.lastDefault s.program.functions f.innerScope name
  /-- A function shows its own values, unless a later one of its name and scope declares others or an
  earlier one declares some where it has none. -/
  own : ∀ front g back f, s.program.functions = front ++ g :: back → g.definition? = some f →
    f ∈ s.definitions ∧
      ((∀ name, (f.defaults s.definitions).get? name = g.header.default? name) ↔ ∀ name,
        (∀ value ∈ PlacedFunction.lastDefault back g.inner name, g.header.default? name = some value) ∧
          (g.header.default? name = none → PlacedFunction.lastDefault front g.inner name = none))
  /-- An anonymous function shows none, unless a function of its name declares some. -/
  anonymous : ∀ f ∈ s.definitions, f.kind = .anonymousFunction →
    ((∀ name, (f.defaults s.definitions).get? name = none) ↔
      ∀ g ∈ s.program.functions, g.defaultsIn f.innerScope = [])

theorem analyze_definitions (limit : Int) (uri text : String) (version : Int) :
    (analyze limit uri text version).definitions =
      (analyze limit uri text version).program.symbols.definitions := by
  unfold analyze
  split
  · rfl
  · rfl

/-- The default values of a function are looked up by its name and scope only. -/
theorem last_defaults_shown (limit : Int) (uri text : String) (version : Int) :
    (analyze limit uri text version).ShowsLastDefaults := by
  have hdefinitions := analyze_definitions limit uri text version
  generalize analyze limit uri text version = s at hdefinitions ⊢
  have hvalues (f : Definition) (name : String) : (f.defaults s.definitions).get? name =
      PlacedFunction.lastDefault s.program.functions f.innerScope name := by
    rw [hdefinitions, Program.get?_defaults]
  refine ⟨fun f hf => ?_, hvalues, fun front g back f hfunctions hdefinition => ⟨?_, ?_⟩, fun f _ _ => ?_⟩
  · exact s.program.exists_function (hdefinitions ▸ hf)
  · rw [hdefinitions]
    exact s.program.definition_mem (hfunctions ▸ List.mem_append_right _ List.mem_cons_self) hdefinition
  · refine forall_congr' fun name => ?_
    rw [hvalues, PlacedFunction.innerScope_eq hdefinition, hfunctions, PlacedFunction.lastDefault_append,
      PlacedFunction.lastDefault_cons]
    exact or_or_eq_middle_iff _ _ _
  · rw [← PlacedFunction.lastDefault_eq_none_iff]
    exact forall_congr' fun name => by rw [hvalues]

/-- Two functions of one name. -/
def twoDefaults : String := "function f(a = 1)\nend\nfunction f(a = 2)\nend\n"

/-- A function beside an anonymous one of the same name. -/
def sharedDefault : String := "f = @(a) a;\nfunction f(a = 1)\nend\n"

/-- The first function shows the default value of the second one, and the anonymous function one that it
does not have. -/
theorem foreign_defaults_shown :
    (∃ f ∈ (analyze 100 "" twoDefaults 0).definitions,
      (f.defaults (analyze 100 "" twoDefaults 0).definitions).get? "a" = some "2" ∧
      ∃ g ∈ (analyze 100 "" twoDefaults 0).program.functions,
        g.definition? = some f ∧ g.header.default? "a" = some "1") ∧
    ∃ f ∈ (analyze 100 "" sharedDefault 0).definitions, f.kind = .anonymousFunction ∧
      (f.defaults (analyze 100 "" sharedDefault 0).definitions).get? "a" = some "1" := by
  decide +kernel

end Snapshot

end MatrixScript
