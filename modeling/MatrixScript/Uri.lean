import MatrixScript.FileTree.Path
import MatrixScript.Text.Utf8
import MatrixScript.Uri.Host

/-! Names of documents, and the paths of the files they stand for. -/
namespace MatrixScript.Uri

/-- Characters that stand for themselves. -/
def isPlain (b : Nat) : Bool :=
  let c := Char.ofNat b
  b < 0x80 && (c.isAlphanum || c == '_' || c == '.' || c == '-' || c == '~' || c == '/')

def hexDigit (n : Nat) : Char :=
  Char.ofNat (if n < 10 then '0'.toNat + n else 'A'.toNat + (n - 10))

def encodeByte (b : UInt8) : List Char :=
  if isPlain b.toNat then [Char.ofNat b.toNat]
  else ['%', hexDigit (b.toNat / 16), hexDigit (b.toNat % 16)]

/-- The name of the document in a file. A relative path is written like one from the root. -/
def ofPath (path : String) : String :=
  "file:///" ++ String.ofList ((Path.fromRoot path).toUTF8.toList.flatMap encodeByte)

/-- The bytes of a text in which a percent sign and two hexadecimal digits stand for one byte. -/
def decodeBytes : List Char → List UInt8
  | [] => []
  | '%' :: a :: b :: cs =>
    match hexValue? a, hexValue? b with
    | some x, some y => UInt8.ofNat (16 * x + y) :: decodeBytes cs
    | _, _ => UInt8.ofNat '%'.toNat :: decodeBytes (a :: b :: cs)
  | c :: cs => (String.singleton c).toUTF8.toList ++ decodeBytes cs

def decode (cs : List Char) : List Char :=
  Text.decodeLossy (decodeBytes cs)

def isSchemeChar (c : Char) : Bool :=
  c.isAlphanum || c == '+' || c == '-' || c == '.'

/-- Control characters and spaces before a name do not count, nor do tabs and line breaks in it. -/
def clean (uri : String) : List Char :=
  (uri.toList.dropWhile fun c => c.toNat ≤ ' '.toNat).filter fun c =>
    c != '\t' && c != '\n' && c != '\r'

/-- Splits off a scheme before a colon. -/
def splitScheme (cs : List Char) : List Char × List Char :=
  match cs.span isSchemeChar with
  | (c :: scheme, ':' :: rest) => if c.isAlpha then (c :: scheme, rest) else ([], cs)
  | _ => ([], cs)

/-- Splits off a host behind two slashes. -/
def splitHost : List Char → List Char × List Char
  | '/' :: '/' :: cs => cs.span fun c => c != '/' && c != '?' && c != '#'
  | cs => ([], cs)

/-- The parts of a name that lead to a file. Scheme letters are small. -/
structure Parts where
  scheme : String
  host : List Char
  path : List Char
deriving DecidableEq, Repr

/-- Takes a name apart. What follows a question mark or a number sign is no part of a path. -/
def parts (uri : String) : Parts :=
  let (scheme, rest) := splitScheme (clean uri)
  let (host, rest) := splitHost rest
  ⟨String.ofList (scheme.map Char.toLower), host, rest.takeWhile fun c => c != '?' && c != '#'⟩

def isWellFormed (uri : String) : Bool := Host.isWellFormed (parts uri).host

theorem isWellFormed_ofPath (path : String) : isWellFormed (ofPath path) = true := by
  obtain ⟨rest, hclean⟩ : ∃ rest, clean (ofPath path) = "file:///".toList ++ rest := by
    rw [ofPath, clean, String.toList_append]
    exact ⟨_, rfl⟩
  have hhost : (parts (ofPath path)).host = [] := by
    rw [parts, hclean]
    rfl
  rw [isWellFormed, hhost]
  rfl

/-- The letter of a drive is written small and without a slash before it. -/
def normalizeDrive : List Char → List Char
  | '/' :: c :: ':' :: cs => if c.isAlpha then c.toLower :: ':' :: cs else '/' :: c :: ':' :: cs
  | cs => cs

/-- The path of the file that a document is in, if its name has one. -/
def toPath? (uri : String) : Option String :=
  let parts := parts uri
  let path := decode parts.path
  let host := decode parts.host
  if parts.scheme != "file" || path.isEmpty then none
  else if host.isEmpty then some (String.ofList (normalizeDrive path))
  else some (String.ofList ('/' :: '/' :: host ++ path))

/-- The name of a document's file without the extension, if it ends with that. An empty extension
leaves nothing of the name. -/
def stem? (uri extension : String) : Option String :=
  let name := Path.baseName ((toPath? uri).getD uri)
  if extension.isEmpty then some ""
  else if Path.endsWith name extension then
    some (String.ofList (name.toList.take (name.length - extension.length)))
  else none

end MatrixScript.Uri
