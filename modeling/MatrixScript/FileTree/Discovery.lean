import MatrixScript.FileTree

/-! Finding the source files below a directory.

Directories are entered depth first, their entries in the order of their names. A symbolic link is
followed once: links met behind a followed one are passed over, so that the walk ends. -/
namespace MatrixScript.FileTree

/-- The files found, and the paths that could not be read. -/
structure Discovery where
  files : List String
  failures : List String
deriving DecidableEq, Repr

namespace Discovery

def empty : Discovery := ⟨[], []⟩

def append (a b : Discovery) : Discovery :=
  ⟨a.files ++ b.files, a.failures ++ b.failures⟩

def failure (path : String) : Discovery := ⟨[], [path]⟩

/-- The parts of a directory's discovery, in the order of the names of its entries. -/
def inOrder (parts : List (String × Discovery)) : Discovery :=
  ((parts.mergeSort fun a b => !(b.1 < a.1)).map (·.2)).foldr append empty

/-- The discovery of a directory, which fails if its entries cannot be listed. -/
def ofDirectory (path : String) (listed : Bool) (parts : List (String × Discovery)) : Discovery :=
  if listed then inOrder parts else failure path

end Discovery

/-- Which files are looked for and how many directories below the first one are entered. -/
structure Search where
  extension : String
  maxDepth : Option Int

namespace Search

def collect (s : Search) (path : String) : Discovery :=
  if Path.endsWith path s.extension then ⟨[path], []⟩ else .empty

/-- Whether directories inside one at this depth are entered. -/
def enters (s : Search) (depth : Nat) : Bool :=
  s.maxDepth.all fun limit => (depth : Int) < limit

mutual

/-- The parts of a directory. What a link leads to is found by `follow`. -/
def parts (s : Search) (follow : String → String → Nat → Discovery) (directory : String) (depth : Nat) :
    Listing → List (String × Discovery)
  | [] => []
  | entry :: rest =>
    (entry.1, visit s follow directory depth entry) :: parts s follow directory depth rest

def visit (s : Search) (follow : String → String → Nat → Discovery) (directory : String) (depth : Nat) :
    String × Entry → Discovery
  | (name, .file _) => s.collect (Path.join directory name)
  | (name, .directory entries listed) =>
    if s.enters depth then
      .ofDirectory (Path.join directory name) listed (parts s follow (Path.join directory name) (depth + 1) entries)
    else .empty
  | (name, .link target) => follow (Path.join directory name) target depth
  | (_, .special) => .empty

end

/-- Behind a followed link no link is followed. -/
def passOver (_link _target : String) (_depth : Nat) : Discovery := .empty

/-- The path of a link's target: relative to the directory that holds the link. -/
def targetPath (link target : String) : String :=
  Path.join (Path.directoryName link) target

/-- What a link leads to. -/
def followLink (s : Search) (t : View) (link target : String) (depth : Nat) : Discovery :=
  let path := targetPath link target
  match t.entry? path with
  | some (.directory entries listed) =>
    if s.enters depth then .ofDirectory path listed (s.parts passOver path (depth + 1) entries) else .empty
  | some (.file _) => s.collect path
  | _ => .failure link

/-- The files below `root`; a root that is no directory is a failure. -/
def discover (s : Search) (t : View) (root : String) : Discovery :=
  match t.entry? root with
  | some (.directory entries listed) => .ofDirectory root listed (s.parts (s.followLink t) root 0 entries)
  | _ => .failure root

end Search

end MatrixScript.FileTree
