import MatrixScript.Syntax.Tree

/-! Expressions written back as source text, with uniform spacing. -/
namespace MatrixScript

/-- The text between the quotes of a string literal. -/
def stringContent (text : String) : String :=
  match text.toList with
  | [] => ""
  | quote :: body =>
    String.ofList (if body.getLast? = some quote then body.dropLast else body)

def MatrixKind.enclose (rows : String) : MatrixKind → String
  | .vector => "[" ++ rows ++ "]"
  | .cell => "\x7b" ++ rows ++ "\x7d"

mutual

def Expr.render : Expr → String
  | .name use => renderUse use
  | .number text _ => text
  | .string text _ => text
  | .binary .range left right _ => left.render ++ ":" ++ right.render
  | .binary op left right _ => left.render ++ " " ++ op.spelling ++ " " ++ right.render
  | .prefixed op operand _ => op.spelling ++ operand.render
  | .transposed op operand _ => operand.render ++ op.spelling
  | .matrix kind rows _ => kind.enclose ("; ".intercalate (renderRows rows))
  | .anonymous params none _ => "@(" ++ ", ".intercalate params ++ ") "
  | .anonymous params (some body) _ => "@(" ++ ", ".intercalate params ++ ") " ++ body.render
  | .handle function _ => "@" ++ function.name
  | .named value => renderNamed value
  | .mark mark _ => mark.text

def renderUse : NameUse Expr → String
  | ⟨root, fields, _, none, _, _⟩ => ".".intercalate (root :: fields)
  | ⟨root, fields, _, some args, _, _⟩ =>
    ".".intercalate (root :: fields) ++ "(" ++ ", ".intercalate (renderAll args) ++ ")"

def renderNamed : NamedValue Expr → String
  | ⟨name, _, none, _⟩ => name ++ " = "
  | ⟨name, _, some value, _⟩ => name ++ " = " ++ value.render

def renderAll : List Expr → List String
  | [] => []
  | e :: es => e.render :: renderAll es

def renderRows : List (List Expr) → List String
  | [] => []
  | row :: rows => ", ".intercalate (renderAll row) :: renderRows rows

end

end MatrixScript
