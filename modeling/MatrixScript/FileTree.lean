import MatrixScript.FileTree.Path
import MatrixScript.Registry
import MatrixScript.Text.Line
import MatrixScript.Text.Utf8

/-! Directories, files and symbolic links, and where paths lead among them.

Names are text without unpaired surrogates, and paths may be of any length. Of permissions there is only the one
to list a directory: files and links can always be read, and paths lead through every directory. -/
namespace MatrixScript

inductive FileTree.Entry where
  | file (content : List UInt8)
  /-- Paths lead to the entries of a directory also if they cannot be listed. -/
  | directory (entries : List (String × Entry)) (listed : Bool := true)
  | link (target : String)
  /-- A pipe, a socket or a device. -/
  | special
deriving Inhabited

/-- The entries of the root directory. -/
structure FileTree where
  root : List (String × FileTree.Entry)

namespace FileTree

/-- A tree, and the names that lead from its root to the directory where relative paths start. -/
structure View where
  tree : FileTree
  working : List String

/-- A tree as it is seen from its root. -/
instance : Coe FileTree View := ⟨(⟨·, []⟩)⟩

/-- A directory listing. -/
abbrev Listing := List (String × Entry)

/-- An entry that is no link, and the names that lead to it without any link. -/
structure Located where
  names : List String
  entry : Entry

/-- A directory that a walk has entered. -/
structure Folder where
  name : String
  entries : Listing
  listed : Bool

/-- The directory in which a walk stands, below the ones around it. -/
structure Place where
  here : Folder
  above : List Folder

namespace Place

def ofRoot (t : FileTree) : Place := ⟨⟨"", t.root, true⟩, []⟩

def enter (p : Place) (name : String) (entries : Listing) (listed : Bool) : Place :=
  ⟨⟨name, entries, listed⟩, p.here :: p.above⟩

/-- The directory above; the root is above itself. -/
def up (p : Place) : Place :=
  match p.above with
  | [] => p
  | parent :: more => ⟨parent, more⟩

/-- The names from the root to this directory. -/
def names (p : Place) : List String :=
  ((p.here :: p.above).map (·.name)).reverse.tail

end Place

/-- Why a file cannot be read. -/
inductive ReadError where
  | missing
  /-- The path goes on behind a file. -/
  | notDirectory
  | tooManyLinks
  /-- The path leads to something else than a file. -/
  | isDirectory
  | badEncoding
deriving DecidableEq, Repr

/-- Walks along `names`. Where a link is met, `follow` goes on from the directory that its target is
relative to. -/
def walk (root : Place) (follow : Place → List String → Except ReadError Located) (place : Place) :
    List String → Except ReadError Located
  | [] => .ok ⟨place.names, .directory place.here.entries place.here.listed⟩
  | name :: rest =>
    if name.isEmpty || name == "." then walk root follow place rest
    else if name == ".." then walk root follow place.up rest
    else match place.here.entries.lookup name with
      | none => .error .missing
      | some (.directory entries listed) => walk root follow (place.enter name entries listed) rest
      | some (.link target) =>
        follow (if Path.isAbsolute target then root else place) (Path.components target ++ rest)
      | some leaf =>
        if rest.isEmpty then .ok ⟨place.names ++ [name], leaf⟩ else .error .notDirectory

/-- Walks along `names` over fewer than `n` links. -/
def walkLinks (root : Place) : Nat → Place → List String → Except ReadError Located
  | 0, _, _ => .error .tooManyLinks
  | n + 1, place, names => walk root (walkLinks root n) place names

/-- The most links that one path may lead over. -/
def maxLinks : Nat := 40

namespace View

/-- The names along which a path leads from the root. -/
def names (t : View) (path : String) : List String :=
  (if Path.isAbsolute path then [] else t.working) ++ Path.components path

/-- What a path leads to. An empty path leads nowhere. -/
def locate (t : View) (path : String) : Except ReadError Located :=
  if path.isEmpty then .error .missing
  else walkLinks (.ofRoot t.tree) (maxLinks + 1) (.ofRoot t.tree) (t.names path)

def entry? (t : View) (path : String) : Option Entry :=
  (t.locate path).toOption.map (·.entry)

/-- The text of a file in a valid encoding, with newlines of one kind. -/
def readText (t : View) (path : String) : Except ReadError String := do
  match (← t.locate path).entry with
  | .file content =>
    match Text.decode? content with
    | some chars => return String.ofList (Text.unifyNewlines chars)
    | none => throw .badEncoding
  | _ => throw .isDirectory

end View

/-- Puts an entry at the place that the names lead to without any link. Directories on the way are
made where they are missing. -/
def insertAt (entry : Entry) : List String → Listing → Listing
  | [], entries => entries
  | [name], entries => Registry.insert name entry entries
  | name :: rest, entries =>
    match entries.lookup name with
    | some (.directory inner listed) =>
      Registry.insert name (.directory (insertAt entry rest inner) listed) entries
    | some _ => entries
    | none => Registry.insert name (.directory (insertAt entry rest [])) entries

/-- The names of the directory `name` below the one that `names` lead to, over links if need be. -/
private def descend (t : FileTree) (names : List String) (name : String) : List String :=
  match View.locate t ("/" ++ "/".intercalate (names ++ [name])) with
  | .ok ⟨real, .directory ..⟩ => real
  | _ => names ++ [name]

/-- Puts an entry at an absolute path, with the directories above it. -/
def put (t : FileTree) (path : String) (entry : Entry) : FileTree :=
  let names := (Path.components path).filter (!·.isEmpty)
  match names.getLast? with
  | none => t
  | some last => ⟨insertAt entry (names.dropLast.foldl t.descend [] ++ [last]) t.root⟩

/-- Makes an entry at an absolute path. A directory that is there already stays, and a file that is
there, perhaps behind a link, gets the new content. -/
def make (t : FileTree) (path : String) (entry : Entry) : FileTree :=
  match entry, View.locate t path with
  | .directory .., .ok ⟨_, .directory ..⟩ => t
  | .file _, .ok ⟨names, .file _⟩ => ⟨insertAt entry names t.root⟩
  | _, _ => t.put path entry

end FileTree

end MatrixScript
