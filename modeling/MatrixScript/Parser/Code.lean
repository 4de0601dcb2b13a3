import MatrixScript.Text.Blank
import MatrixScript.Token

/-! Tokens made ready for parsing: comments are set apart and continued lines are joined. -/
namespace MatrixScript

/-- The tokens that a program is made of, with their end token, and the comments between them. -/
structure Code where
  tokens : List Token
  eof : Token
  comments : List Token

namespace Code

/-- Three points in a row join a line with the next one. -/
def startsContinuation : List Token → Bool
  | a :: b :: c :: _ =>
    a.is .period && b.is .period && c.is .period && a.adjacent b && b.adjacent c
  | _ => false

/-- Sets code and comments apart. While `joining`, the rest of a continued line is left out through
its newline; its comments are kept. -/
def separate (joining : Bool) : List Token → List Token × List Token
  | [] => ([], [])
  | t :: ts =>
    if t.kind.isComment then
      let (code, comments) := separate joining ts
      (code, t :: comments)
    else if joining && t.kind != .eof then separate (t.kind != .newline) ts
    else if startsContinuation (t :: ts) then separate true ts
    else
      let (code, comments) := separate false ts
      (t :: code, comments)

/-- Code that lacks its end token gets one right behind its last token. -/
def ofTokens (tokens : List Token) : Code :=
  let (code, comments) := separate false tokens
  match code.getLast? with
  | none => ⟨[], ⟨.eof, "", .zero⟩, comments⟩
  | some last =>
    if last.kind = .eof then ⟨code.dropLast, last, comments⟩
    else ⟨code, ⟨.eof, "", ⟨last.span.stop, last.span.stop⟩⟩, comments⟩

end Code

/-- What a line of the source holds. Lines with a comment and code, and cell separators, count as
code. -/
inductive LineUse where
  | blank
  | code
  | comment (text : String)
deriving DecidableEq, Repr

/-- The use of every line; `lastLine` is where the code ends. -/
structure Layout where
  lines : Array LineUse
  lastLine : Nat

namespace Layout

/-- A comment without its marks and the blanks around it. -/
def commentText (text : String) : String :=
  String.ofList (Text.trim (text.toList.dropWhile fun c => c == '%' || c == '#'))

private def mark (use : Token → LineUse) (lines : Array LineUse) (t : Token) : Array LineUse :=
  lines.setIfInBounds t.span.start.line.toNat (use t)

private def commentUse (t : Token) : LineUse :=
  if t.kind = .comment then .comment (commentText t.text) else .code

def ofCode (code : Code) : Layout :=
  let words := code.tokens.filter (·.kind != .newline)
  let starts := (code.eof :: words ++ code.comments).map fun t => t.span.start.line.toNat
  let blank := Array.replicate (starts.foldl max 0 + 1) LineUse.blank
  let commented := code.comments.foldl (mark commentUse) blank
  ⟨words.foldl (mark fun _ => .code) commented, code.eof.span.stop.line.toNat⟩

def use (layout : Layout) (line : Nat) : LineUse :=
  layout.lines[line]?.getD .blank

/-- How many of the first `n` lines are left when blank ones are dropped from the end. -/
def lastUsed (layout : Layout) : Nat → Nat
  | 0 => 0
  | n + 1 => if layout.use n = .blank then layout.lastUsed n else n + 1

/-- The run of comment lines at the end of the first `n` lines, before those in `below`. -/
def runAbove (layout : Layout) : Nat → List String → List String
  | 0, below => below
  | n + 1, below =>
    match layout.use n with
    | .comment text => layout.runAbove n (text :: below)
    | _ => below

/-- The first of at most `n` lines from `line` on that is not blank. -/
def nextUsed (layout : Layout) : Nat → Nat → Nat
  | 0, line => line
  | n + 1, line => if layout.use line = .blank then layout.nextUsed n (line + 1) else line

/-- The run of at most `n` comment lines from `line` on. -/
def runBelow (layout : Layout) : Nat → Nat → List String
  | 0, _ => []
  | n + 1, line =>
    match layout.use line with
    | .comment text => text :: layout.runBelow n (line + 1)
    | _ => []

/-- The comment above a function documents it, else the comment below its header; blank lines may
stand in between. -/
def documentation (layout : Layout) (keywordLine headerLine : Nat) : String :=
  let above := layout.runAbove (layout.lastUsed keywordLine) []
  let comment :=
    if above.isEmpty then
      let first := layout.nextUsed (layout.lastLine - headerLine) (headerLine + 1)
      layout.runBelow (layout.lines.size - first) first
    else above
  "\n".intercalate comment

end Layout

end MatrixScript
