import MatrixScript.FileTree.Discovery
import MatrixScript.Index.Analysis

/-! Taking in all source files below a directory. -/
namespace MatrixScript.Index

def search (i : Index) : FileTree.Search :=
  ⟨i.settings.extension, i.settings.maxDepth⟩

/-- Registers the file at a path, or adds the path to those that could not be read. -/
def takeFile (t : FileTree.View) (state : Index × List String) (path : String) : Index × List String :=
  match t.readText path with
  | .ok text => (state.1.register (Uri.ofPath path) text, state.2)
  | .error _ => (state.1, state.2 ++ [path])

/-- Registers the source files below `root`, and tells which paths could not be read. -/
def discover (i : Index) (t : FileTree.View) (root : String) : Index × List String :=
  let found := i.search.discover t root
  found.files.foldl (takeFile t) (i, found.failures)

end MatrixScript.Index
