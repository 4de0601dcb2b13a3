import MatrixScript.Text.Field

/-! Paths of files, with slashes between the names. -/
namespace MatrixScript.Path

def components (path : String) : List String :=
  (Text.fields '/' path.toList).map String.ofList

def isAbsolute (path : String) : Bool := path.toList.head? == some '/'

/-- A path without the slash at its start. -/
def fromRoot (path : String) : String :=
  if isAbsolute path then String.ofList path.toList.tail else path

def endsWith (path ending : String) : Bool :=
  ending.toList.isSuffixOf path.toList

/-- A path relative to a directory. Absolute paths stay as they are. -/
def join (directory path : String) : String :=
  if isAbsolute path then path
  else if directory.isEmpty || endsWith directory "/" then directory ++ path
  else directory ++ "/" ++ path

/-- The part behind the last slash. -/
def baseName (path : String) : String :=
  String.ofList (path.toList.reverse.takeWhile (· != '/')).reverse

/-- The part before the last slash, without slashes at its end unless there is nothing else. -/
def directoryName (path : String) : String :=
  let head := path.toList.reverse.dropWhile (· != '/')
  let trimmed := head.dropWhile (· == '/')
  String.ofList (if trimmed.isEmpty then head else trimmed).reverse

end MatrixScript.Path
