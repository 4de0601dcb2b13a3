import MatrixScript.Number.Literal

/-! Settings, and the values by which a client changes them. -/
namespace MatrixScript

/-- A value sent by a client. Objects keep the order of their keys, and each key occurs once. -/
inductive Payload where
  | null
  | bool (b : Bool)
  | integer (n : Int)
  | double (x : Float)
  | string (s : String)
  | list (items : List Payload)
  | object (fields : List (String × Payload))
deriving Inhabited

structure Settings where
  /-- Only this many problems of a document are published. -/
  maxProblems : Int
  /-- How many directories deep files are searched; without a number there is no limit. -/
  maxDepth : Option Int
  /-- Seconds without an edit before a document is analysed again. -/
  delay : Float
  /-- The end of the names of source files. -/
  extension : String
  /-- Whether calls of unknown functions are reported. -/
  reportUnresolved : Bool

/-- A whole number was given for the delay that no double is near to. -/
structure DelayOverflow where

def DelayOverflow.message (_ : DelayOverflow) : String :=
  "int too large to convert to float"

namespace Settings

def default : Settings := ⟨1000, none, 0.5, ".m", false⟩

/-- The settings by which clients call them. -/
inductive Key where
  | maxProblems | maxDepth | delay | extension | reportUnresolved
deriving DecidableEq, Repr

/-- Each setting has two names. -/
def Key.ofName? : String → Option Key
  | "maxNumberOfProblems" | "max_number_of_problems" => some .maxProblems
  | "maxFilesSearchDepth" | "max_files_search_depth" => some .maxDepth
  | "debounceDelay" | "debounce_delay" => some .delay
  | "fileExtension" | "file_extension" => some .extension
  | "reportUnresolvedReferences" | "report_unresolved_references" => some .reportUnresolved
  | _ => none

/-- Whole numbers are also taken from doubles without a fraction and from texts. -/
def readInt? : Payload → Option Int
  | .integer n => some n
  | .double x => Number.toInt? x
  | .string s => Number.readInt? s
  | _ => none

def readDepth? : Payload → Option (Option Int)
  | .null => some none
  | value => (readInt? value).map some

/-- Whole numbers that are too large are an error, other unsuitable values are only ignored. -/
def readDelay : Payload → Except DelayOverflow (Option Float)
  | .integer n =>
    match Number.ofInt? n with
    | some x => .ok (some x)
    | none => .error ⟨⟩
  | .double x => .ok (some x)
  | .string s => .ok (Number.readFloat? s)
  | _ => .ok none

def readString? : Payload → Option String
  | .string s => some s
  | _ => none

/-- Truth values may also be written as words, in any case of letters. -/
def readBool? : Payload → Option Bool
  | .bool b => some b
  | .string s =>
    match String.ofList (s.toList.map Char.toLower) with
    | "true" => some true
    | "false" => some false
    | _ => none
  | _ => none

/-- Changes one setting; a value that does not suit it changes nothing. -/
def assign (s : Settings) (key : Key) (value : Payload) : Except DelayOverflow Settings :=
  match key with
  | .maxProblems => .ok ((readInt? value).elim s fun n => { s with maxProblems := n })
  | .maxDepth => .ok ((readDepth? value).elim s fun d => { s with maxDepth := d })
  | .delay => do return (← readDelay value).elim s fun x => { s with delay := x }
  | .extension => .ok ((readString? value).elim s fun e => { s with extension := e })
  | .reportUnresolved => .ok ((readBool? value).elim s fun b => { s with reportUnresolved := b })

/-- Names of no setting are ignored. -/
def assignNamed (s : Settings) (field : String × Payload) : Except DelayOverflow Settings :=
  match Key.ofName? field.1 with
  | some key => s.assign key field.2
  | none => .ok s

/-- The name under which the settings may stand in a larger object. -/
def sectionName : String := "mlang"

/-- The settings in a payload: its section, if it has one that is an object, else all of it. -/
def fieldsOf : Payload → List (String × Payload)
  | .object fields =>
    match fields.lookup sectionName with
    | some (.object fields) => fields
    | _ => fields
  | _ => []

/-- Applies all suitable values of a payload, or none of them if the delay overflows. -/
def update (s : Settings) (payload : Payload) : Except DelayOverflow Settings :=
  (fieldsOf payload).foldlM assignNamed s

end Settings

end MatrixScript
