import MatrixScript.Registry
import MatrixScript.Symbol

/-! How functions are shown to people: their signature, and a snippet that calls them. -/
namespace MatrixScript

/-- The default values of parameters, by name. -/
abbrev Defaults := Registry String

namespace Definition

/-- The default values declared in the header of a function, looked up by its scope. -/
def defaults (function : Definition) (definitions : List Definition) : Defaults :=
  definitions.foldl (fun found d =>
    if d.kind == .defaultArgument && d.scope == function.innerScope then
      d.content.elim found (found.put d.name)
    else found) .empty

/-- A parameter as it is written in the header. -/
def parameterText (defaults : Defaults) (name : String) : String :=
  match defaults.get? name with
  | some value => name ++ " = " ++ value
  | none => name

/-- `name(a, b = 1)`. -/
def signature (function : Definition) (defaults : Defaults) : String :=
  function.name ++ "(" ++ ", ".intercalate (function.arguments.map (parameterText defaults)) ++ ")"

/-- A place where the editor's cursor stops, with its number and text. -/
def tabStop (number : Nat) (text : String) : String :=
  "$\x7b" ++ toString number ++ ":" ++ text ++ "\x7d"

/-- A call with one place to fill in for each parameter. -/
def snippet (function : Definition) (defaults : Defaults) : String :=
  let stops := function.arguments.zipIdx.map fun (name, i) =>
    tabStop (i + 1) (parameterText defaults name)
  function.name ++ "(" ++ ", ".intercalate stops ++ ")"

end Definition

end MatrixScript
