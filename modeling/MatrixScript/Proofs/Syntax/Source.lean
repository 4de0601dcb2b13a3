import MatrixScript.Proofs.Syntax.Pieces
import MatrixScript.Proofs.Syntax.Unplaced

/-! Programs as they are written: trees of statements, and the lines that they are printed on.

Everything that is put on a line knows that it can be read off it again, so a line knows how it is
spelled and read. -/
namespace MatrixScript.Source

open Piece

structure Name where
  text : String
  isName : IsNameText text

/-- An expression that is written without grouping parentheses. -/
structure Value (place : Expr.Place) where
  expr : Expr
  bare : expr.Bare place
  lexical : expr.Lexical

namespace Value

variable {place : Expr.Place} (value : Value place)

theorem renders : value.expr.Renders := value.bare.renders value.lexical

theorem isLegible : value.expr.IsLegible := value.bare.isLegible value.lexical

end Value

/-- A word that closes the block which a keyword opens. -/
abbrev Closer (opener : Keyword) := { word : Keyword // word ∈ opener.terminators }

/-- A line without its newline. -/
structure Line where
  text : String
  pieces : List Piece
  spells : spell pieces = text.toList
  legible : ∀ (previous : Option Token.Kind) (rest : List Char),
    previous.any Lexeme.beforeTranspose = false → AllLegible previous pieces ('\n' :: rest)

theorem stops_newline (rest : List Char) : Lexeme.Stops ('\n' :: rest) := by
  rintro _ ⟨⟩
  decide

theorem isWord_spelling (word : Keyword) : Lexeme.IsWord word.spelling.toList := by
  cases word <;> exact .mk (by decide) (List.all_eq_true.mp rfl)

/-- A keyword in front of something that does not continue it. -/
theorem legible_keyword (word : Keyword) {previous : Option Token.Kind} {rest : List Char}
    (hrest : ∀ c ∈ rest.head?, Lexeme.isNameChar c = false) :
    (Piece.word true word.spelling).Legible previous rest :=
  legible_word true (isWord_spelling word) hrest

theorem isNameChar_blank (cs : List Char) : ∀ c ∈ (' ' :: cs).head?, Lexeme.isNameChar c = false := by
  rintro _ ⟨⟩
  rfl

/-! Assignments and calls. -/

def assignmentPieces (name : String) (value : Expr) : List Piece :=
  .word true name :: .sign false .equals :: (value.pieces false ++ [.sign true .semicolon])

theorem spell_assignmentPieces {name : String} {value : Expr} (hrenders : value.Renders) :
    spell (assignmentPieces name value) = (name ++ " = " ++ value.render ++ ";").toList := by
  simp [assignmentPieces, hrenders false, Sign.char]

theorem legible_assignment {name : String} {value : Expr} (hname : IsNameText name)
    (hlegible : value.IsLegible) (previous : Option Token.Kind) (rest : List Char) :
    AllLegible previous (assignmentPieces name value) rest := by
  refine ⟨legible_word _ hname.isWord (isNameChar_blank _), legible_sign _ nofun nofun, ?_⟩
  refine allLegible_append.mpr ⟨hlegible _ _ _ nofun ?_, legible_sign _ nofun nofun, trivial⟩
  exact (stops_sign true .semicolon nofun _ _).stopsAt _

/-- The tree of `name = value;`. -/
def assignment (name : String) (value : Expr) : Stmt :=
  .assign ⟨name, [], .zero, none, Lexeme.nameKind name == .native, false⟩ (some value) .zero true

theorem lexical_name {use : NameUse Expr} (hhead : (Expr.name use).HeadLexical)
    (hargs : ∀ args ∈ use.args, ∀ e ∈ args, e.Lexical) : (Expr.name use).Lexical := by
  intro n hn
  rw [Expr.nodes, List.mem_cons, mem_useNodes] at hn
  obtain rfl | ⟨args, hmem, e, he, hn⟩ := hn
  · exact ⟨_, rfl, hhead⟩
  · exact hargs args hmem e he n hn

/-- The call of a function by its name. -/
def callUse (function : Name) (args : List (Value .argument)) : NameUse Expr :=
  ⟨function.text, [], .zero, some (args.map Value.expr), Lexeme.nameKind function.text == .native, false⟩

def Value.call (function : Name) (args : List (Value .argument)) : Value .outside where
  expr := .name (callUse function args)
  bare := by
    refine .name ?_
    rintro _ ⟨⟩ e he
    obtain ⟨arg, -, rfl⟩ := List.mem_map.mp he
    exact arg.bare
  lexical := by
    refine lexical_name ⟨function.isName, List.forall_mem_nil _, rfl, rfl⟩ ?_
    rintro _ ⟨⟩ e he
    obtain ⟨arg, -, rfl⟩ := List.mem_map.mp he
    exact arg.lexical

namespace Line

/-- `end` -/
def word (word : Keyword) : Line where
  text := word.spelling
  pieces := [.word true word.spelling]
  spells := by simp
  legible := fun _ rest _ =>
    ⟨legible_keyword word ((stops_newline rest).stopsAt (.keyword word)), trivial⟩

/-- `break;` -/
def jump (way : Jump) : Line where
  text := way.spelling ++ ";"
  pieces := [.word true way.spelling, .sign true .semicolon]
  spells := by simp [Sign.char]
  legible := fun _ rest _ => by
    refine ⟨legible_word true ?_ ?_, legible_sign _ nofun nofun, trivial⟩
    · cases way <;> exact .mk (by decide) (List.all_eq_true.mp rfl)
    · exact (stops_sign true .semicolon nofun [] _).stopsAt .identifier

/-- `if x > 1` -/
def headed (word : Keyword) (value : Value .outside) : Line where
  text := word.spelling ++ " " ++ value.expr.render
  pieces := .word true word.spelling :: value.expr.pieces false
  spells := by simp [value.renders false]
  legible := fun _ rest _ => by
    refine ⟨legible_keyword word ?_, value.isLegible _ _ _ nofun ((stops_newline rest).stopsAt _)⟩
    rw [value.renders false]
    exact isNameChar_blank _

/-- `x = 1;` -/
def assign (target : Name) (value : Value .outside) : Line where
  text := target.text ++ " = " ++ value.expr.render ++ ";"
  pieces := assignmentPieces target.text value.expr
  spells := spell_assignmentPieces value.renders
  legible := fun previous _ _ => legible_assignment target.isName value.isLegible previous _

/-- `f(x);` -/
def call (function : Name) (args : List (Value .argument)) : Line where
  text := (Value.call function args).expr.render ++ ";"
  pieces := (Value.call function args).expr.pieces true ++ [.sign true .semicolon]
  spells := by simp [(Value.call function args).renders true, Sign.char]
  legible := fun previous _ hprevious => by
    refine allLegible_append.mpr ⟨?_, legible_sign _ nofun nofun, trivial⟩
    refine (Value.call function args).isLegible _ _ _ (fun _ => hprevious) ?_
    exact (stops_sign true .semicolon nofun [] _).stopsAt _

/-- `for i = 1:10` -/
def loop (loopVar : Name) (iterable : Value .outside) : Line where
  text := "for " ++ loopVar.text ++ " = " ++ iterable.expr.render
  pieces := .word true "for" :: .word false loopVar.text :: .sign false .equals ::
    iterable.expr.pieces false
  spells := by simp [iterable.renders false, Sign.char]
  legible := fun _ rest _ => by
    refine ⟨legible_keyword .forLoop (isNameChar_blank _),
      legible_word false loopVar.isName.isWord (isNameChar_blank _), legible_sign _ nofun nofun, ?_⟩
    exact iterable.isLegible _ _ _ nofun ((stops_newline rest).stopsAt _)

/-- `catch` or `catch err` -/
def caught : Option Name → Line
  | none => word .catchBranch
  | some errorVar => {
    text := "catch " ++ errorVar.text
    pieces := [.word true "catch", .word false errorVar.text]
    spells := by simp
    legible := fun _ rest _ => by
      refine ⟨legible_keyword .catchBranch (isNameChar_blank _), ?_, trivial⟩
      exact legible_word false errorVar.isName.isWord ((stops_newline rest).stopsAt .identifier) }

end Line

/-! Headers of functions. -/

structure Header where
  outputs : List Name
  name : Name
  params : List Name

namespace Header

def names (ns : List Name) : List String := ns.map Name.text

theorem names_cons (n : Name) (ns : List Name) : names (n :: ns) = n.text :: names ns := rfl

def outputText (ns : List Name) : String :=
  if ns.isEmpty then "" else "[" ++ ", ".intercalate (names ns) ++ "] = "

def outputPieces (ns : List Name) : List Piece :=
  if ns.isEmpty then []
  else .sign false .openBracket :: (namePieces (names ns) ++ [.sign true .closeBracket]) ++
    [.sign false .equals]

def paramPieces (ns : List Name) : List Piece :=
  .sign true .openParen :: (namePieces (names ns) ++ [.sign true .closeParen])

def toHeader (header : Header) : FunctionHeader where
  name := header.name.text
  nameSpan := .zero
  outputs := header.outputs.map fun n => .variable ⟨n.text, .zero⟩
  params := header.params.map fun n => .plain ⟨n.text, .zero⟩

theorem isNameText_of_mem {ns : List Name} : ∀ text ∈ names ns, IsNameText text := by
  intro text htext
  obtain ⟨n, -, rfl⟩ := List.mem_map.mp htext
  exact n.isName

theorem spell_outputPieces (ns : List Name) (name : String) :
    spell (outputPieces ns ++ [.word false name]) = ' ' :: (outputText ns ++ name).toList := by
  unfold outputPieces outputText
  split_ifs
  · simp
  · simp [spell_namePieces, Sign.char]

theorem legible_outputPieces (ns : List Name) (previous : Option Token.Kind) (rest : List Char) :
    AllLegible previous (outputPieces ns) rest := by
  unfold outputPieces
  split_ifs
  · trivial
  · refine allLegible_append.mpr ⟨legible_closed .bracket (fun rest hrest => ?_) _ _,
      legible_sign _ nofun nofun, trivial⟩
    exact legible_namePieces isNameText_of_mem hrest _

theorem legible_paramPieces (ns : List Name) (previous : Option Token.Kind) (rest : List Char) :
    AllLegible previous (paramPieces ns) rest :=
  legible_closed .paren (fun _ hrest => legible_namePieces isNameText_of_mem hrest _) _ _

end Header

/-- `function [a, b] = f(x, y)` -/
def Line.function (header : Header) : Line where
  text := "function " ++ (Header.outputText header.outputs ++ header.name.text) ++
    ("(" ++ ", ".intercalate (Header.names header.params) ++ ")")
  pieces := .word true "function" :: (Header.outputPieces header.outputs ++ [.word false header.name.text]) ++
    Header.paramPieces header.params
  spells := by
    rw [spell_append, spell_cons, Header.spell_outputPieces]
    simp [Header.paramPieces, spell_namePieces, Sign.char]
  legible := fun _ _ _ => by
    refine allLegible_append.mpr ⟨⟨legible_keyword .function ?_, ?_⟩, Header.legible_paramPieces _ _ _⟩
    · rw [Header.spell_outputPieces]
      exact isNameChar_blank _
    · refine allLegible_append.mpr ⟨Header.legible_outputPieces _ _ _, ?_, trivial⟩
      refine legible_word false header.name.isName.isWord ?_
      exact (stops_sign true .openParen nofun _ _).stopsAt .identifier

/-! Several lines. -/

namespace Line

def allPieces (lines : List Line) : List Piece :=
  lines.flatMap fun line => line.pieces ++ [.newline]

@[simp] theorem allPieces_nil : allPieces [] = [] := rfl

@[simp] theorem allPieces_cons (line : Line) (lines : List Line) :
    allPieces (line :: lines) = line.pieces ++ .newline :: allPieces lines := by
  simp [allPieces]

@[simp] theorem allPieces_append (lines lines' : List Line) :
    allPieces (lines ++ lines') = allPieces lines ++ allPieces lines' :=
  List.flatMap_append

/-- Every line with its newline. -/
def join : List Line → String
  | [] => ""
  | line :: lines => line.text ++ "\n" ++ join lines

theorem spell_allPieces (lines : List Line) : spell (allPieces lines) = (join lines).toList := by
  induction lines with
  | nil => rfl
  | cons line lines ih => simp [join, line.spells, ih, newline, chars, blanks]

theorem legible_allPieces (lines : List Line) {previous : Option Token.Kind}
    (hprevious : previous.any Lexeme.beforeTranspose = false) :
    AllLegible previous (allPieces lines) [] := by
  induction lines generalizing previous with
  | nil => trivial
  | cons line lines ih =>
    rw [allPieces_cons]
    refine allLegible_append.mpr ⟨?_, legible_newline _ _, ih rfl⟩
    exact line.legible previous _ hprevious

end Line

/-! Trees of statements. -/

/-- An `elseif` or a `case` with its body. -/
structure Clause (τ : Type) where
  guard : Value .outside
  body : List τ

/-- Statements that can stand in any block. Each block comes with the word that closes it. -/
inductive Tree where
  | assign (target : Name) (value : Value .outside)
  | call (function : Name) (args : List (Value .argument))
  | jump (way : Jump)
  | ifElse (condition : Value .outside) (body : List Tree) (clauses : List (Clause Tree))
      (otherwise : Option (List Tree)) (close : Closer .ifBlock)
  | forLoop (loopVar : Name) (iterable : Value .outside) (body : List Tree) (close : Closer .forLoop)
  | whileLoop (condition : Value .outside) (body : List Tree) (close : Closer .whileLoop)
  | doUntil (body : List Tree) (condition : Value .outside)
  | switch (subject : Value .outside) (cases : List (Clause Tree)) (otherwise : Option (List Tree))
      (close : Closer .switchBlock)
  | tryCatch (body : List Tree) (errorVar : Option Name) (handler : List Tree) (close : Closer .tryBlock)

namespace Tree

mutual

@[simp]
def lines : Tree → List Line
  | .assign target value => [.assign target value]
  | .call function args => [.call function args]
  | .jump way => [.jump way]
  | .ifElse condition body clauses otherwise close =>
    .headed .ifBlock condition :: (blockLines body ++ (clauseLines .elseifBranch clauses ++
      (lastLines .elseBranch otherwise ++ [.word close])))
  | .forLoop loopVar iterable body close =>
    .loop loopVar iterable :: (blockLines body ++ [.word close])
  | .whileLoop condition body close =>
    .headed .whileLoop condition :: (blockLines body ++ [.word close])
  | .doUntil body condition => .word .doBlock :: (blockLines body ++ [.headed .untilTest condition])
  | .switch subject cases otherwise close =>
    .headed .switchBlock subject :: (clauseLines .caseBranch cases ++
      (lastLines .otherwiseBranch otherwise ++ [.word close]))
  | .tryCatch body errorVar handler close =>
    .word .tryBlock :: (blockLines body ++ (.caught errorVar :: (blockLines handler ++ [.word close])))

def blockLines : List Tree → List Line
  | [] => []
  | t :: ts => t.lines ++ blockLines ts

def clauseLines (word : Keyword) : List (Clause Tree) → List Line
  | [] => []
  | ⟨guard, body⟩ :: clauses => .headed word guard :: (blockLines body ++ clauseLines word clauses)

def lastLines (word : Keyword) : Option (List Tree) → List Line
  | none => []
  | some body => .word word :: blockLines body

end

mutual

/-- The tree that the parser makes, without places. -/
@[simp]
def toStmt : Tree → Stmt
  | .assign target value => assignment target.text value.expr
  | .call function args => .call (callUse function args) true
  | .jump way => .jump way .zero
  | .ifElse condition body clauses otherwise _ =>
    .ifElse (some condition.expr) (toBlock body) (toBranches clauses) (toOption otherwise) .zero
  | .forLoop loopVar iterable body _ =>
    .forLoop (some ⟨loopVar.text, .zero⟩) (some iterable.expr) (toBlock body) .zero
  | .whileLoop condition body _ => .whileLoop (some condition.expr) (toBlock body) .zero
  | .doUntil body condition => .doUntil (toBlock body) (some condition.expr) .zero
  | .switch subject cases otherwise _ =>
    .switch (some subject.expr) (toBranches cases) (toOption otherwise) .zero
  | .tryCatch body errorVar handler _ =>
    .tryCatch (toBlock body) (errorVar.map fun n => ⟨n.text, .zero⟩) (toBlock handler) .zero

def toBlock : List Tree → List Stmt
  | [] => []
  | t :: ts => t.toStmt :: toBlock ts

def toBranches : List (Clause Tree) → List (Branch Stmt)
  | [] => []
  | ⟨guard, body⟩ :: clauses => ⟨some guard.expr, toBlock body, .zero⟩ :: toBranches clauses

def toOption : Option (List Tree) → Option (List Stmt)
  | none => none
  | some body => some (toBlock body)

end

mutual

/-- No block in the tree has too many statements. -/
@[simp]
def fits : Tree → Bool
  | .assign _ _ | .call _ _ | .jump _ => true
  | .ifElse _ body clauses otherwise _ =>
    body.length ≤ maxStatements && allFit body && clausesFit clauses && lastFits otherwise
  | .forLoop _ _ body _ | .whileLoop _ body _ | .doUntil body _ =>
    body.length ≤ maxStatements && allFit body
  | .switch _ cases otherwise _ => clausesFit cases && lastFits otherwise
  | .tryCatch body _ handler _ =>
    body.length ≤ maxStatements && allFit body && (handler.length ≤ maxStatements && allFit handler)

def allFit : List Tree → Bool
  | [] => true
  | t :: ts => t.fits && allFit ts

def clausesFit : List (Clause Tree) → Bool
  | [] => true
  | ⟨_, body⟩ :: clauses => body.length ≤ maxStatements && allFit body && clausesFit clauses

def lastFits : Option (List Tree) → Bool
  | none => true
  | some body => body.length ≤ maxStatements && allFit body

end

theorem blockLines_eq (ts : List Tree) : blockLines ts = ts.flatMap lines := by
  induction ts with
  | nil => rfl
  | cons t ts ih => rw [blockLines, ih, List.flatMap_cons]

theorem toBlock_eq (ts : List Tree) : toBlock ts = ts.map toStmt := by
  induction ts with
  | nil => rfl
  | cons t ts ih => rw [toBlock, ih, List.map_cons]

theorem fits_of_mem {ts : List Tree} (h : allFit ts = true) {t : Tree} (ht : t ∈ ts) : t.fits = true := by
  induction ts with
  | nil => contradiction
  | cons t' ts ih =>
    rw [allFit, Bool.and_eq_true] at h
    rcases List.mem_cons.mp ht with rfl | ht
    · exact h.1
    · exact ih h.2 ht

end Tree

/-- What can stand at the top of a program. -/
inductive Item where
  | statement (tree : Tree)
  | function (header : Header) (body : List Tree) (close : Closer .function)

namespace Item

def lines : Item → List Line
  | .statement tree => tree.lines
  | .function header body close => .function header :: (Tree.blockLines body ++ [.word close])

def toStmt : Item → Stmt
  | .statement tree => tree.toStmt
  | .function header body _ => .function header.toHeader (Tree.toBlock body) .zero "" true

def fits : Item → Bool
  | .statement tree => tree.fits
  | .function _ body _ => body.length ≤ maxStatements && Tree.allFit body

end Item

end MatrixScript.Source
