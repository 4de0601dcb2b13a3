import MatrixScript.Position

/-! Names of a document: where they are used and where they are introduced. -/
namespace MatrixScript

inductive Reference.Kind where
  | function | variable
deriving DecidableEq, Repr

/-- One use of a name. Calls of a plain name know how many arguments they pass. -/
structure Reference where
  name : String
  kind : Reference.Kind
  span : Span
  documentation : String
  argumentCount : Option Nat
deriving DecidableEq, Repr

/-- A part of the program with variables of its own. An anonymous function also sees the variables
around it. -/
inductive ScopeName where
  | function (name : String)
  | anonymous
deriving DecidableEq, Repr

def ScopeName.text : ScopeName → String
  | .function name => name
  | .anonymous => "@"

inductive Definition.Kind where
  | function | variable | argument | anonymousFunction | defaultArgument
deriving DecidableEq, Repr

/-- One introduction of a name. `content` is the source of a default value, and `scope` the
functions around the definition, outermost first. -/
structure Definition where
  name : String
  kind : Definition.Kind
  span : Span
  documentation : String
  arguments : List String
  optionalArguments : Nat
  content : Option String
  scope : List ScopeName
deriving DecidableEq, Repr

namespace Definition

/-- A definition with nothing but its name and place. -/
def plain (name : String) (kind : Kind) (span : Span) (scope : List ScopeName) : Definition :=
  ⟨name, kind, span, "", [], 0, none, scope⟩

def isTopLevel (d : Definition) : Bool := d.scope.isEmpty

def isFunction (d : Definition) : Bool := d.kind == .function

/-- Ignored parameters have no name, so the optional arguments are at most all of them. -/
def requiredArguments (d : Definition) : Nat := d.arguments.length - d.optionalArguments

/-- A function with this parameter takes any number of arguments. -/
def isVariadic (d : Definition) : Bool := d.arguments.contains "varargin"

/-- The scope of the definitions inside a function. -/
def innerScope (d : Definition) : List ScopeName := d.scope ++ [.function d.name]

end Definition

end MatrixScript
