import MatrixScript.Symbol
import MatrixScript.Syntax.Render

/-! Collecting the references and definitions of a program, in document order. -/
namespace MatrixScript

/-- A scope with the variables that were assigned in it so far. -/
structure Scope where
  name : ScopeName
  assigned : List String

/-- What was collected so far; the scopes are innermost first. -/
structure Collection where
  references : Array Reference
  definitions : Array Definition
  scopes : List Scope
  topLevel : List String

abbrev Collector := StateM Collection

namespace Collection

def empty : Collection := ⟨#[], #[], [], []⟩

/-- The names of the scopes, outermost first. -/
def path (c : Collection) : List ScopeName := (c.scopes.map (·.name)).reverse

/-- Whether a name was assigned in a scope that is visible: outwards through anonymous functions up
to the next named one, else at the top level. -/
def isVisible (name : String) (topLevel : List String) : List Scope → Bool
  | [] => topLevel.contains name
  | scope :: outer =>
    scope.assigned.contains name || (scope.name == .anonymous && isVisible name topLevel outer)

def isVariable (c : Collection) (name : String) : Bool :=
  isVisible name c.topLevel c.scopes

/-- Notes an assignment in the innermost scope. -/
def remember (c : Collection) (name : String) : Collection :=
  match c.scopes with
  | [] => { c with topLevel := c.topLevel.insert name }
  | scope :: outer =>
    { c with scopes := { scope with assigned := scope.assigned.insert name } :: outer }

def refer (r : Reference) : Collector Unit :=
  modify fun c => { c with references := c.references.push r }

def referVariable (v : Variable) : Collector Unit :=
  refer ⟨v.name, .variable, v.span, "", none⟩

def define (d : Definition) : Collector Unit :=
  modify fun c => { c with definitions := c.definitions.push d }

/-- Introduces a variable of some kind in the present scope. -/
def introduce (kind : Definition.Kind) (v : Variable) : Collector Unit := do
  define (.plain v.name kind v.span (← get).path)
  modify (·.remember v.name)

/-- Introduces a variable and refers to it at the same place. -/
def declare (v : Variable) : Collector Unit := do
  introduce .variable v
  referVariable v

/-- Runs `body` in one more scope. -/
def within (scope : Scope) (body : Collector Unit) : Collector Unit := do
  modify fun c => { c with scopes := scope :: c.scopes }
  body
  modify fun c => { c with scopes := c.scopes.tail }

/-- Refers to the leading name and, if there are fields, to the whole dotted name. A call refers to
a function, unless the name is a variable. -/
def referUse (asCall : Bool) (use : NameUse Expr) : Collector Unit := do
  let isFunction :=
    (asCall || use.isCall || use.native || use.command) && !(← get).isVariable use.root
  let count := if isFunction && !use.isDotted then use.args.map List.length else none
  refer ⟨use.root, if isFunction then .function else .variable, use.rootSpan, "", count⟩
  if use.isDotted then refer ⟨use.name, .variable, use.nameSpan, "", none⟩

/-- The parameters of an anonymous function have no places of their own, so they are referred to at
the place of the whole function. -/
def introduceParams (params : List String) (span : Span) : Collector Unit :=
  params.forM fun param => introduce .argument ⟨param, span⟩

mutual

def collectExpr : Expr → Collector Unit
  | .name use => collectUse false use
  | .binary _ left right _ => do
    collectExpr left
    collectExpr right
  | .prefixed _ operand _ => collectExpr operand
  | .transposed _ operand _ => collectExpr operand
  | .matrix _ rows _ => collectRows rows
  | .anonymous params none span => do
    params.forM fun param => referVariable ⟨param, span⟩
    within ⟨.anonymous, []⟩ (introduceParams params span)
  | .anonymous params (some body) span => do
    params.forM fun param => referVariable ⟨param, span⟩
    within ⟨.anonymous, []⟩ do
      introduceParams params span
      collectExpr body
  | .handle function _ => refer ⟨function.name, .function, function.span, "", none⟩
  | .named value => collectNamed value
  | .number _ _ => return ()
  | .string _ _ => return ()
  | .mark _ _ => return ()

def collectUse (asCall : Bool) : NameUse Expr → Collector Unit
  | ⟨root, fields, span, none, native, command⟩ =>
    referUse asCall ⟨root, fields, span, none, native, command⟩
  | ⟨root, fields, span, some args, native, command⟩ => do
    referUse asCall ⟨root, fields, span, some args, native, command⟩
    collectExprs args

def collectNamed : NamedValue Expr → Collector Unit
  | ⟨name, nameSpan, none, _⟩ => referVariable ⟨name, nameSpan⟩
  | ⟨name, nameSpan, some value, _⟩ => do
    referVariable ⟨name, nameSpan⟩
    collectExpr value

def collectExprs : List Expr → Collector Unit
  | [] => return ()
  | e :: es => do
    collectExpr e
    collectExprs es

def collectRows : List (List Expr) → Collector Unit
  | [] => return ()
  | row :: rows => do
    collectExprs row
    collectRows rows

end

def collectOptional (e : Option Expr) : Collector Unit :=
  e.forM collectExpr

/-- The definition that an assignment makes: of an anonymous function, if that is the value. -/
def defineTarget (use : NameUse Expr) (value : Option Expr) : Collector Unit := do
  let path := (← get).path
  match value with
  | some (.anonymous params _ _) =>
    define { Definition.plain use.root .anonymousFunction use.rootSpan path with
      arguments := params }
  | _ => define (.plain use.root .variable use.rootSpan path)
  modify (·.remember use.root)

def collectTarget : Target → Collector Unit
  | .name use => do
    defineTarget use none
    collectUse false use
  | .ignored _ => return ()

def collectParam : Param → Collector Unit
  | .plain v => do
    introduce .argument v
    referVariable v
  | .optional value => do
    let path := (← get).path
    define { Definition.plain value.name .defaultArgument value.nameSpan path with
      content := value.value.map Expr.render }
    modify (·.remember value.name)
    referVariable ⟨value.name, value.nameSpan⟩
    collectOptional value.value
  | .ignored _ => return ()

def outputVariable? : Output → Option Variable
  | .variable v => some v
  | .ignored _ => none

def paramName? : Param → Option String
  | .plain v => some v.name
  | .optional value => some value.name
  | .ignored _ => none

def isOptionalParam : Param → Bool
  | .optional _ => true
  | _ => false

/-- The function's own definition; a function without a name makes none. -/
def defineFunction (header : FunctionHeader) (documentation : String) : Collector Unit := do
  if header.name.isEmpty then return ()
  define { Definition.plain header.name .function header.nameSpan (← get).path with
    documentation
    arguments := header.params.filterMap paramName?
    optionalArguments := header.params.countP isOptionalParam }
  refer ⟨header.name, .function, header.nameSpan, documentation, none⟩

/-- A function's outputs belong to its own scope, also before that is entered. -/
def defineOutput (inner : List ScopeName) (v : Variable) : Collector Unit := do
  define (.plain v.name .variable v.span inner)
  referVariable v

/-- The header from left to right; the answer is the scope for the parameters and the body. -/
def collectHeader (header : FunctionHeader) (documentation : String) : Collector Scope := do
  let inner := (← get).path ++ [.function header.name]
  let outputs := header.outputs.filterMap outputVariable?
  outputs.forM (defineOutput inner)
  defineFunction header documentation
  return ⟨.function header.name, outputs.map (·.name)⟩

mutual

def collectStmt : Stmt → Collector Unit
  | .assign target value _ _ => do
    defineTarget target value
    collectUse false target
    collectOptional value
  | .assignMany targets value _ _ => do
    targets.forM collectTarget
    collectOptional value
  | .call use _ => collectUse true use
  | .expr value _ => collectExpr value
  | .function header body _ documentation _ => do
    let scope ← collectHeader header documentation
    within scope do
      header.params.forM collectParam
      collectStmts body
  | .ifElse condition body clauses none _ => do
    collectOptional condition
    collectStmts body
    collectBranches clauses
  | .ifElse condition body clauses (some other) _ => do
    collectOptional condition
    collectStmts body
    collectBranches clauses
    collectStmts other
  | .forLoop loopVar iterable body _ => do
    loopVar.forM declare
    collectOptional iterable
    collectStmts body
  | .whileLoop condition body _ => do
    collectOptional condition
    collectStmts body
  | .doUntil body condition _ => do
    collectStmts body
    collectOptional condition
  | .switch subject cases none _ => do
    collectOptional subject
    collectBranches cases
  | .switch subject cases (some other) _ => do
    collectOptional subject
    collectBranches cases
    collectStmts other
  | .tryCatch body errorVar handler _ => do
    collectStmts body
    errorVar.forM declare
    collectStmts handler
  | .declare _ names _ => names.forM declare
  | .jump _ _ => return ()

def collectStmts : List Stmt → Collector Unit
  | [] => return ()
  | s :: ss => do
    collectStmt s
    collectStmts ss

def collectBranches : List (Branch Stmt) → Collector Unit
  | [] => return ()
  | ⟨guard, body, _⟩ :: branches => do
    collectOptional guard
    collectStmts body
    collectBranches branches

end

end Collection

/-- The references and definitions of a program. -/
structure Symbols where
  references : List Reference
  definitions : List Definition

def Program.symbols (p : Program) : Symbols :=
  let c := ((Collection.collectStmts p.body).run .empty).2
  ⟨c.references.toList, c.definitions.toList⟩

end MatrixScript
