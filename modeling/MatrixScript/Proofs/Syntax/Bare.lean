import MatrixScript.Parser.Problem
import MatrixScript.Proofs.Syntax.Spelled
import MatrixScript.Proofs.Token.Piece

/-! Expressions that keep their structure when they are written down. -/
namespace MatrixScript

/-- A word that can name a variable or a function. -/
structure IsNameText (name : String) : Prop where
  isWord : Lexeme.IsWord name.toList
  isName : (Lexeme.nameKind name).isName = true

theorem IsNameText.kind_cases {name : String} (h : IsNameText name) :
    Lexeme.nameKind name = .identifier ∨ Lexeme.nameKind name = .native := by
  have hname := h.isName
  cases hkind : Lexeme.nameKind name with
  | identifier => exact .inl rfl
  | native => exact .inr rfl
  | _ => rw [hkind] at hname; contradiction

/-- A string token that is closed by the quote it starts with, so that nothing behind it belongs to
it. -/
def isClosedLiteral (text : String) : Bool :=
  match text.toList with
  | [] => false
  | quote :: body => Lexeme.closes quote body

namespace Expr

/-- Every node in the expression, itself among them, satisfies `P`. -/
def AllHeads (P : Expr → Prop) (e : Expr) : Prop :=
  ∀ n ∈ e.nodes, ∃ x, n = .expr x ∧ P x

/-- The node itself, without its parts, has the texts that tokens can have. -/
def HeadLexical : Expr → Prop
  | .name use => IsNameText use.root ∧ (∀ field ∈ use.fields, IsNameText field) ∧
      use.native = (Lexeme.nameKind use.root == .native) ∧ use.command = false
  | .number text _ => Lexeme.IsNumber text.toList
  | .string text _ => Lexeme.StartsString text.toList
  | .matrix _ rows _ => ∀ row ∈ rows, row ≠ []
  | .anonymous params _ _ => ∀ param ∈ params, IsNameText param
  | .handle function _ => IsNameText function.name
  | .named value => IsNameText value.name
  | _ => True

/-- All names and literals have texts that tokens can have. -/
abbrev Lexical : Expr → Prop := AllHeads HeadLexical

namespace AllHeads

variable {P Q : Expr → Prop} {e : Expr}

theorem imp (h : e.AllHeads P) (himp : ∀ x, P x → Q x) : e.AllHeads Q := by
  intro n hn
  obtain ⟨x, hx, hP⟩ := h n hn
  exact ⟨x, hx, himp x hP⟩

theorem head (h : e.AllHeads P) : P e := by
  have hmem : Node.expr e ∈ e.nodes := by
    cases e with
    | anonymous params body span => cases body <;> simp [nodes]
    | _ => simp [nodes]
  obtain ⟨x, hx, hP⟩ := h _ hmem
  cases hx
  exact hP

theorem left {op : BinaryOp} {left right : Expr} {span : Span}
    (h : (binary op left right span).AllHeads P) : left.AllHeads P :=
  fun n hn => h n (by simp [nodes, hn])

theorem right {op : BinaryOp} {left right : Expr} {span : Span}
    (h : (binary op left right span).AllHeads P) : right.AllHeads P :=
  fun n hn => h n (by simp [nodes, hn])

theorem ofPrefixed {op : PrefixOp} {operand : Expr} {span : Span}
    (h : (prefixed op operand span).AllHeads P) : operand.AllHeads P :=
  fun n hn => h n (by simp [nodes, hn])

theorem ofTransposed {op : TransposeOp} {operand : Expr} {span : Span}
    (h : (transposed op operand span).AllHeads P) : operand.AllHeads P :=
  fun n hn => h n (by simp [nodes, hn])

theorem ofAnonymous {params : List String} {body : Expr} {span : Span}
    (h : (anonymous params (some body) span).AllHeads P) : body.AllHeads P :=
  fun n hn => h n (by simp [nodes, hn])

theorem ofNamed {value : NamedValue Expr} (h : (named value).AllHeads P) :
    ∀ x ∈ value.value, x.AllHeads P := by
  intro x hx n hn
  refine h n ?_
  rw [nodes, List.mem_cons, mem_namedNodes]
  exact .inr ⟨x, hx, hn⟩

theorem ofName {use : NameUse Expr} (h : (name use).AllHeads P) :
    ∀ args ∈ use.args, ∀ x ∈ args, x.AllHeads P := by
  intro args hargs x hx n hn
  refine h n ?_
  rw [nodes, List.mem_cons, mem_useNodes]
  exact .inr ⟨args, hargs, x, hx, hn⟩

theorem ofMatrix {kind : MatrixKind} {rows : List (List Expr)} {span : Span}
    (h : (matrix kind rows span).AllHeads P) : ∀ row ∈ rows, ∀ x ∈ row, x.AllHeads P := by
  intro row hrow x hx n hn
  refine h n ?_
  rw [nodes, List.mem_cons, mem_rowNodes]
  exact .inr ⟨row, hrow, x, hx, hn⟩

end AllHeads

/-- What is made of tokens has texts that tokens can have. -/
theorem Spelled.lexical {ts : List Token} {e : Expr} (h : e.Spelled ts)
    (hts : ∀ t ∈ ts, t.WellSpelled) : e.Lexical := by
  have hname {name : String} (h : NamedBy ts name) : IsNameText name := by
    obtain ⟨t, ht, hname, rfl⟩ := h
    obtain ⟨hword, hkind⟩ := (hts t ht).isWord hname
    exact ⟨hword, by rw [hkind]; exact hname⟩
  refine AllHeads.imp (P := HeadSpelled ts) h fun x hx => ?_
  cases x with
  | name use =>
    obtain ⟨t, ht, ⟨hroot, -, -⟩, hnative⟩ := hx.root
    refine ⟨hname ⟨t, ht, hroot⟩, fun field hf => hname (hx.fields field hf), ?_, hx.command⟩
    rw [hnative, ← hroot.text_eq, ((hts t ht).isWord hroot.isName).2]
  | number text span => exact hts _ hx
  | string text span => exact hts _ hx
  | matrix kind rows span => exact hx
  | anonymous params body span => exact fun param hparam => hname (hx param hparam)
  | handle function span =>
    obtain ⟨t, ht, hnames, -⟩ := hx
    exact hname ⟨t, ht, hnames⟩
  | named value =>
    obtain ⟨t, ht, hnames, -⟩ := hx
    exact hname ⟨t, ht, hnames⟩
  | binary | prefixed | transposed | mark => trivial

/-! How strongly an expression holds together. -/

/-- More strongly than any operator binds. -/
def tightest : Nat := 11

/-- How strongly the outermost operator binds, if it is one between two operands. -/
def level : Expr → Nat
  | .binary op _ _ _ => op.precedence
  | _ => tightest

/-- An operator behind the expression takes all of it as its operand if it does not bind more strongly
than this. Behind an anonymous function every operator belongs to its body. -/
def edge : Expr → Nat
  | .binary op _ right _ => min op.precedence right.edge
  | .prefixed _ operand _ => min PrefixOp.precedence operand.edge
  | .anonymous _ _ _ => 0
  | _ => tightest

/-- The class of the last token. -/
def lastKind : Expr → Token.Kind
  | .name ⟨root, fields, _, none, _, _⟩ => Lexeme.nameKind (fields.getLastD root)
  | .name ⟨_, _, _, some _, _, _⟩ => .sign .closeParen
  | .number _ _ => .number
  | .string _ _ => .string
  | .binary _ _ right _ => right.lastKind
  | .prefixed _ operand _ => operand.lastKind
  | .transposed _ _ _ => .transpose
  | .matrix kind _ _ => .sign (Group.ofMatrix kind).closing
  | .anonymous _ none _ => .sign .closeParen
  | .anonymous _ (some body) _ => body.lastKind
  | .handle function _ => Lexeme.nameKind function.name
  | .named ⟨_, _, none, _⟩ => .sign .equals
  | .named ⟨_, _, some value, _⟩ => value.lastKind
  | .mark .whole _ => .sign .colon
  | .mark .last _ => .keyword .endAny
  | .mark .ignored _ => .sign .tilde

/-- The expression starts with `end`. -/
def startsWithEnd : Expr → Bool
  | .binary _ left _ _ => left.startsWithEnd
  | .transposed _ operand _ => operand.startsWithEnd
  | .mark .last _ => true
  | _ => false

/-- A transpose behind the expression applies to all of it. Behind a string or a mark, a quote would
start a string. -/
def takesTranspose (op : TransposeOp) : Expr → Bool
  | .name _ | .number _ _ | .matrix _ _ _ | .handle _ _ | .transposed _ _ _ => true
  | .string _ _ | .mark _ _ => op == .plain
  | _ => false

/-- Where an expression stands. -/
inductive Place where
  | outside | bracketed | argument
deriving DecidableEq, Repr

/-- Where the parts of an expression stand. -/
def Place.part : Place → Place
  | .argument => .bracketed
  | place => place

/-- Written without grouping parentheses, the expression keeps its structure. Not all that it leaves out needs
such parentheses. In `s(1).f % 2` the sign would stand behind the arguments, which are written last, and start a
comment there. A string that ends with a doubled quote, such as `'abc''`, is not closed and would go on. -/
inductive Bare : Place → Expr → Prop where
  | name {place : Place} {use : NameUse Expr}
      (hargs : ∀ args ∈ use.args, ∀ e ∈ args, Bare .argument e) : Bare place (.name use)
  | number {place : Place} (text : String) (span : Span) : Bare place (.number text span)
  | string {place : Place} {text : String} (h : isClosedLiteral text = true) (span : Span) :
      Bare place (.string text span)
  | binary {place : Place} {op : BinaryOp} {left right : Expr} (hleft : Bare place.part left)
      (hright : Bare place.part right) (hedge : op.precedence ≤ left.edge)
      (hlevel : op.precedence < right.level)
      (hmodulus : op = .modulus → Lexeme.beforeModulus left.lastKind = true) (span : Span) :
      Bare place (.binary op left right span)
  | prefixed {place : Place} {op : PrefixOp} {operand : Expr} (h : Bare place.part operand)
      (hlevel : PrefixOp.precedence < operand.level) (span : Span) :
      Bare place (.prefixed op operand span)
  | transposed {place : Place} {op : TransposeOp} {operand : Expr} (h : Bare place.part operand)
      (htakes : operand.takesTranspose op = true) (span : Span) :
      Bare place (.transposed op operand span)
  | matrix {place : Place} {kind : MatrixKind} {rows : List (List Expr)}
      (h : ∀ row ∈ rows, ∀ e ∈ row, Bare .bracketed e)
      (hstart : ∀ row ∈ rows, ∀ e ∈ row, e.startsWithEnd = false) (span : Span) :
      Bare place (.matrix kind rows span)
  | anonymous {place : Place} {body : Expr} (params : List String) (h : Bare place.part body)
      (span : Span) : Bare place (.anonymous params (some body) span)
  | handle {place : Place} (function : Variable) (span : Span) : Bare place (.handle function span)
  | named {value : Expr} (name : String) (nameSpan : Span) (h : Bare .bracketed value) (span : Span) :
      Bare .argument (.named ⟨name, nameSpan, some value, span⟩)
  | mark {place : Place} {mark : Mark} (hplace : place ≠ .outside) (hmark : mark ≠ .ignored)
      (span : Span) : Bare place (.mark mark span)

theorem Bare.startsWithEnd_eq {place : Place} {e : Expr} (h : e.Bare place) (hplace : place = .outside) :
    e.startsWithEnd = false := by
  induction h with
  | binary _ _ _ _ _ _ ihleft => exact ihleft (by rw [hplace]; rfl)
  | transposed _ _ _ ih => exact ih (by rw [hplace]; rfl)
  | mark hne => exact absurd hplace hne
  | _ => rfl

/-- An argument is a named value or an expression as it stands in brackets. -/
theorem Bare.argument_cases {e : Expr} (h : e.Bare .argument) :
    (∃ word wordSpan value span, e = .named ⟨word, wordSpan, some value, span⟩ ∧
      value.Bare .bracketed) ∨ e.Bare .bracketed := by
  cases h with
  | named word wordSpan h span => exact .inl ⟨word, wordSpan, _, span, rfl, h⟩
  | name hargs => exact .inr (.name hargs)
  | number text span => exact .inr (.number text span)
  | string h span => exact .inr (.string h span)
  | binary hleft hright hedge hlevel hmodulus span =>
    exact .inr (@Bare.binary .bracketed _ _ _ hleft hright hedge hlevel hmodulus span)
  | prefixed h hlevel span => exact .inr (@Bare.prefixed .bracketed _ _ h hlevel span)
  | transposed h htakes span => exact .inr (@Bare.transposed .bracketed _ _ h htakes span)
  | matrix h hstart span => exact .inr (.matrix h hstart span)
  | anonymous params h span => exact .inr (@Bare.anonymous .bracketed _ params h span)
  | handle function span => exact .inr (.handle function span)
  | mark hplace hmark span => exact .inr (.mark (by decide) hmark span)

end Expr

end MatrixScript
