import MatrixScript.Proofs.Symbol.Occurrences
import MatrixScript.Proofs.Syntax.Parts

/-! How far a part of a tree reaches, and what its nodes owe to the code.

Main definition: `Lies`, for the nodes of a part of a tree and the names that occur in it. All of them lie
between two places, the names occur from left to right, and no two nodes have their name at one place. Parts
that stand behind each other are put together with `Lies.append`. -/
namespace MatrixScript

/-- The token is the last field of a dotted name: it belongs to the name, and to none of its arguments. -/
structure NameUse.EndsAt (use : NameUse Expr) (t : Token) : Prop where
  names : ∃ field ∈ use.fields.getLast?, t.Names field
  encloses : use.span.Encloses t.span
  apart : ∀ arg ∈ use.args.getD [], arg.span.Apart t.span

/-- A dotted name has no more letters than there are columns up to the end of its last field. -/
def NameUse.PathEnds (ts : List Token) (use : NameUse Expr) : Prop :=
  use.fields ≠ [] → ∃ t ∈ ts, use.EndsAt t ∧ use.nameSpan.stop ≤ t.span.stop

/-- Argument lists that stand behind each other, as the parser reads them. -/
inductive Parser.ReadsLists (gas exprGas : Nat) : State → List (List Expr) → State → Prop where
  | none (s : State) : ReadsLists gas exprGas s [] s
  | next {s s₁ s₂ : State} {lists : List (List Expr)} {group : Group} {args : List Expr} {stop : Position} :
    ReadsLists gas exprGas s lists s₁ →
    parseArguments gas (parseExpression exprGas) group s₁ = ((args, stop), s₂) →
    ReadsLists gas exprGas s (lists ++ [args]) s₂

/-- The lists that the parser reads behind the first letters of a name. -/
def NameUse.HasLists (code : Code) (use : NameUse Expr) (lists : List (List Expr)) : Prop :=
  lists ≠ [] ∧ ∃ gas exprGas s s', s.code = code ∧ s.previous.span.start = use.span.start ∧
    Parser.ReadsLists gas exprGas s lists s'

/-- A name without fields has the arguments of all lists that follow it. -/
def NameUse.Listed (code : Code) (use : NameUse Expr) : Prop :=
  use.fields = [] → use.command = false → ∀ args ∈ use.args, ∃ lists,
    use.HasLists code lists ∧ args = lists.flatten

/-- An expression: the names of the node itself, without its parts, and its literal are tokens. -/
def Node.Spelled (code : Code) : Node → Prop
  | .expr (.name use) => use.Spelled code.all ∧ use.PathEnds code.all ∧ use.Listed code
  | .expr e => e.HeadSpelled code.all
  | _ => False

/-- An `otherwise` of a switch: the token is in the switch, and in none of its parts. -/
structure Node.OtherwiseAt (code : Code) (n : Node) (t : Token) : Prop where
  mem : t ∈ code.all
  kind : t.kind = .keyword .otherwiseBranch
  encloses : n.span.Encloses t.span
  apart : ∀ part ∈ n.parts, part.span.Apart t.span

/-- The names of the node itself, without its parts, and its literal stand at tokens of the code. So does
the `otherwise` of a switch. -/
def Node.Placed (code : Code) : Node → Prop
  | .expr (.name use) => (∃ t ∈ code.all, use.StartsAt t) ∧ use.PathEnds code.all ∧ use.Listed code
  | .expr (.number text span) => Stands code.all text span
  | .expr (.string text span) => Stands code.all text span
  | .expr (.anonymous params _ _) => ∀ param ∈ params, NamedBy code.all param
  | .expr (.handle function _) => function.StandsIn code.all
  | .expr (.named value) => Variable.StandsIn code.all ⟨value.name, value.nameSpan⟩
  | .stmt s => (∀ v ∈ s.introduced, v.StandsIn code.all) ∧ (∀ e ∈ s.value?, e.Spelled code.all) ∧
      ∀ st ∈ s.otherwise, ∃ t, (Node.stmt s).OtherwiseAt code t ∧ t.span.start ≤ st.span.start
  | _ => True

/-- A statement without a value. -/
theorem Node.Placed.of_introduced {code : Code} {s : Stmt} (hvalue : s.value? = none) (hother : s.otherwise = [])
    (h : ∀ v ∈ s.introduced, v.StandsIn code.all) : (Node.stmt s).Placed code := by
  refine ⟨h, ?_, hother ▸ List.forall_mem_nil _⟩
  rw [hvalue]
  exact nofun

/-- A statement without a value that introduces nothing. -/
theorem Node.Placed.bare {code : Code} {s : Stmt} (hvalue : s.value? = none) (hother : s.otherwise = [])
    (hnone : s.introduced = []) : (Node.stmt s).Placed code :=
  .of_introduced hvalue hother (hnone ▸ List.forall_mem_nil _)

theorem Node.Spelled.exists_head {code : Code} {n : Node} (h : n.Spelled code) :
    ∃ e, n = .expr e ∧ e.HeadSpelled code.all := by
  cases n with
  | expr e =>
    refine ⟨e, rfl, ?_⟩
    cases e with
    | name use => exact h.1
    | _ => exact h
  | _ => contradiction

theorem Node.Spelled.placed {code : Code} {n : Node} (h : n.Spelled code) : n.Placed code := by
  cases n with
  | expr e =>
    cases e with
    | name use =>
      obtain ⟨t, ht, hstarts, _⟩ := h.1.root
      exact ⟨⟨t, ht, hstarts⟩, h.2⟩
    | number text span => exact Stands.token (t := ⟨.number, text, span⟩) h
    | string text span => exact Stands.token (t := ⟨.string, text, span⟩) h
    | anonymous params body span => exact h
    | handle function span => exact h
    | named value => exact h
    | _ => trivial
  | _ => contradiction

def Node.PathEnds (ts : List Token) : Node → Prop
  | .expr (.name use) => use.PathEnds ts
  | _ => True

theorem Node.Placed.pathEnds {code : Code} {ts : List Token} {n : Node} (h : n.Placed code)
    (hts : code.all ⊆ ts) : n.PathEnds ts := by
  unfold PathEnds
  split
  · intro hfields
    obtain ⟨t, ht, hends⟩ := h.2.1 hfields
    exact ⟨t, hts ht, hends⟩
  · trivial

/-- Where the name of a node stands, if it can be the name of a function. -/
def Node.place? : Node → Option Position
  | .expr (.name use) => some use.span.start
  | .expr (.handle function _) => some function.span.start
  | .stmt (.function header _ _ _ _) => if header.name.isEmpty then none else some header.nameSpan.start
  | _ => none

/-- The names of the nodes stand at different places. -/
def Node.Apart (n n' : Node) : Prop := ∀ p ∈ n.place?, p ∉ n'.place?

instance : Std.Symm Node.Apart where
  symm _ _ h p hp hp' := h p hp' hp

/-- No case of a switch stands behind a statement of its `otherwise`. -/
def Node.CasesFirst : Node → Prop
  | .stmt (.switch _ cases otherwise _) =>
    ∀ branch ∈ cases, ∀ st ∈ otherwise.getD [], ¬st.span.start ≤ branch.span.start
  | _ => True

instance : (n : Node) → Decidable n.CasesFirst
  | .stmt (.switch _ cases otherwise _) => inferInstanceAs (Decidable
      (∀ branch ∈ cases, ∀ st ∈ otherwise.getD [], ¬st.span.start ≤ branch.span.start))
  | .stmt (.assign ..) | .stmt (.assignMany ..) | .stmt (.call ..) | .stmt (.expr ..)
  | .stmt (.function ..) | .stmt (.ifElse ..) | .stmt (.forLoop ..) | .stmt (.whileLoop ..)
  | .stmt (.doUntil ..) | .stmt (.tryCatch ..) | .stmt (.declare ..) | .stmt (.jump ..)
  | .expr _ | .branch _ | .program _ => .isTrue trivial

/-- Every `otherwise` of a switch stands behind its cases. -/
def Node.OtherwiseLast (code : Code) : Node → Prop
  | .stmt (.switch subject cases body span) =>
    ∀ t, (Node.stmt (.switch subject cases body span)).OtherwiseAt code t →
      ∀ branch ∈ cases, ¬t.span.start ≤ branch.span.start
  | _ => True

theorem Node.OtherwiseLast.casesFirst {code : Code} {n : Node} (hlast : n.OtherwiseLast code)
    (h : n.Placed code) : n.CasesFirst := by
  cases n with
  | stmt s =>
    cases s with
    | switch subject cases body span =>
      intro branch hbranch st hst hle
      obtain ⟨t, ht, hstart⟩ := h.2.2 st hst
      exact hlast t ht branch hbranch (Position.le_trans hstart hle)
    | _ => trivial
  | _ => trivial

/-- A name that occurs between two places. Only whole dotted names may reach further, and these belong
to one of the nodes. -/
structure Occurrence.LiesIn (B : Position → Prop) (lo hi : Position) (ns : List Node)
    (o : Occurrence) : Prop where
  lo_le : lo ≤ o.span.start
  le_hi : o.span.start ≤ hi
  valid : o.role ≠ .path → o.span.Valid B
  path : o.role = .path → ∃ use, .expr (.name use) ∈ ns ∧ use.isDotted = true ∧
    o.name = use.name ∧ o.span = use.nameSpan

def Occurrence.Before (o o' : Occurrence) : Prop := o.span.start ≤ o'.span.start

/-- The nodes `ns` with the names `os` in them lie between two places, and `P` holds of each node. -/
structure Lies (B : Position → Prop) (P : Node → Prop) (lo hi : Position) (ns : List Node)
    (os : List Occurrence) : Prop where
  le : lo ≤ hi
  nodes : ∀ n ∈ ns, n.span.Between B lo hi ∧ P n
  names : ∀ o ∈ os, o.LiesIn B lo hi ns
  sorted : (∀ n ∈ ns, n.CasesFirst) → os.Pairwise Occurrence.Before
  places : ∀ n ∈ ns, ∀ p ∈ n.place?, lo ≤ p ∧ ¬hi ≤ p
  apart : ns.Pairwise Node.Apart

variable {B : Position → Prop} {P Q : Node → Prop} {code : Code} {lo mid hi lo' hi' : Position}
  {ns ns' : List Node} {os os' : List Occurrence}

theorem Occurrence.LiesIn.mono {o : Occurrence} (h : o.LiesIn B lo hi ns) (hlo : lo' ≤ lo)
    (hhi : hi ≤ hi') (hns : ns ⊆ ns') : o.LiesIn B lo' hi' ns' where
  lo_le := Position.le_trans hlo h.lo_le
  le_hi := Position.le_trans h.le_hi hhi
  valid := h.valid
  path hpath := by
    obtain ⟨use, hmem, huse⟩ := h.path hpath
    exact ⟨use, hns hmem, huse⟩

namespace Lies

theorem nil (h : lo ≤ hi) : Lies B P lo hi [] [] :=
  ⟨h, List.forall_mem_nil _, List.forall_mem_nil _, fun _ => .nil, List.forall_mem_nil _, .nil⟩

theorem mono (h : Lies B P lo hi ns os) (hlo : lo' ≤ lo) (hhi : hi ≤ hi') :
    Lies B P lo' hi' ns os where
  le := Position.le_trans hlo (Position.le_trans h.le hhi)
  nodes n hn := ⟨(h.nodes n hn).1.mono hlo hhi, (h.nodes n hn).2⟩
  names o ho := (h.names o ho).mono hlo hhi (List.Subset.refl _)
  sorted := h.sorted
  places n hn p hp := ⟨Position.le_trans hlo (h.places n hn p hp).1,
    fun hle => (h.places n hn p hp).2 (Position.le_trans hhi hle)⟩
  apart := h.apart

theorem imp (h : Lies B P lo hi ns os) (hP : ∀ n, P n → Q n) : Lies B Q lo hi ns os :=
  { h with nodes := fun n hn => ⟨(h.nodes n hn).1, hP n (h.nodes n hn).2⟩ }

/-- Without the order of the names. -/
theorem append_names (h : ∀ o ∈ os, o.LiesIn B lo hi ns) (h' : ∀ o ∈ os', o.LiesIn B lo hi ns') :
    ∀ o ∈ os ++ os', o.LiesIn B lo hi (ns ++ ns') :=
  List.forall_mem_append.mpr
    ⟨fun o ho => (h o ho).mono (Position.le_refl _) (Position.le_refl _) (List.subset_append_left _ _),
      fun o ho => (h' o ho).mono (Position.le_refl _) (Position.le_refl _) (List.subset_append_right _ _)⟩

/-- What lies behind each other. -/
theorem append (h : Lies B P lo mid ns os) (h' : Lies B P mid hi ns' os') :
    Lies B P lo hi (ns ++ ns') (os ++ os') := by
  have hleft := h.mono (Position.le_refl _) h'.le
  have hright := h'.mono h.le (Position.le_refl _)
  refine ⟨hleft.le, List.forall_mem_append.mpr ⟨hleft.nodes, hright.nodes⟩,
    append_names hleft.names hright.names, fun hcases => ?_,
    List.forall_mem_append.mpr ⟨hleft.places, hright.places⟩, ?_⟩
  · obtain ⟨hcases, hcases'⟩ := List.forall_mem_append.mp hcases
    refine List.pairwise_append.mpr ⟨h.sorted hcases, h'.sorted hcases', fun o ho o' ho' => ?_⟩
    exact Position.le_trans (h.names o ho).le_hi (h'.names o' ho').lo_le
  · refine List.pairwise_append.mpr ⟨h.apart, h'.apart, fun n hn n' hn' p hp hp' => ?_⟩
    exact (h.places n hn p hp).2 (h'.places n' hn' p hp').1

/-- A node over the whole of its parts. -/
theorem node {n : Node} (hplace : ∀ p ∈ n.place?, lo ≤ p ∧ ¬hi ≤ p ∧ ∀ n' ∈ ns, p ∉ n'.place?)
    (hspan : n.span.Between B lo hi) (hn : P n) (h : Lies B P lo hi ns os) :
    Lies B P lo hi (n :: ns) os where
  le := h.le
  nodes := List.forall_mem_cons.mpr ⟨⟨hspan, hn⟩, h.nodes⟩
  names o ho := (h.names o ho).mono (Position.le_refl _) (Position.le_refl _) (List.subset_cons_self _ _)
  sorted hcases := h.sorted (List.forall_mem_cons.mp hcases).2
  places := List.forall_mem_cons.mpr ⟨fun p hp => ⟨(hplace p hp).1, (hplace p hp).2.1⟩, h.places⟩
  apart := List.pairwise_cons.mpr ⟨fun n' hn' p hp => (hplace p hp).2.2 n' hn', h.apart⟩

/-- Names at one place, which are no dotted ones. -/
theorem at_span {span : Span} (hspan : span.Valid B) (hlo : lo ≤ span.start) (hhi : span.start ≤ hi)
    (hos : ∀ o ∈ os, o.span = span ∧ o.role ≠ .path) : Lies B P lo hi [] os where
  le := Position.le_trans hlo hhi
  nodes := List.forall_mem_nil _
  names o ho := by
    obtain ⟨hspan', hrole⟩ := hos o ho
    exact ⟨hspan' ▸ hlo, hspan' ▸ hhi, fun _ => hspan' ▸ hspan, fun hpath => absurd hpath hrole⟩
  sorted _ := List.pairwise_of_forall_mem_list fun o ho o' ho' => by
    rw [Occurrence.Before, (hos o ho).1, (hos o' ho').1]
    exact Position.le_refl _
  places := List.forall_mem_nil _
  apart := .nil

/-- The same parts in another order. -/
theorem reorder (h : Lies B P lo hi ns os) (hns : ns.Perm ns') (hos : os' ⊆ os)
    (hsorted : (∀ n ∈ ns', n.CasesFirst) → os'.Pairwise Occurrence.Before) :
    Lies B P lo hi ns' os' where
  le := h.le
  nodes n hn := h.nodes n (hns.mem_iff.mpr hn)
  names o ho := (h.names o (hos ho)).mono (Position.le_refl _) (Position.le_refl _) hns.subset
  sorted := hsorted
  places n hn := h.places n (hns.mem_iff.mpr hn)
  apart := (hns.pairwise_iff symm).mp h.apart

/-- A use of a name over its arguments, with names at its first letter in front of them. -/
theorem head {use : NameUse Expr} (hspan : use.span.Between B lo hi) (hn : P (.expr (.name use)))
    (hnames : ∀ o ∈ os', o.LiesIn B lo hi (.expr (.name use) :: ns))
    (hstart : ∀ o ∈ os', o.span.start = use.span.start) (hmid : ¬mid ≤ use.span.start)
    (h : Lies B P mid hi ns os) : Lies B P lo hi (.expr (.name use) :: ns) (os' ++ os) := by
  have hle : use.span.start ≤ mid := (Position.le_total _ _).resolve_right hmid
  have hparts := h.mono (Position.le_trans hspan.lo_le hle) (Position.le_refl _)
  refine ⟨hspan.le, List.forall_mem_cons.mpr ⟨⟨hspan, hn⟩, hparts.nodes⟩, ?_, fun hcases => ?_, ?_, ?_⟩
  · refine List.forall_mem_append.mpr ⟨hnames, fun o ho => ?_⟩
    exact (hparts.names o ho).mono (Position.le_refl _) (Position.le_refl _) (List.subset_cons_self _ _)
  · refine List.pairwise_append.mpr ⟨?_, h.sorted (List.forall_mem_cons.mp hcases).2, fun o ho o' ho' => ?_⟩
    · refine List.pairwise_of_forall_mem_list fun o ho o' ho' => ?_
      rw [Occurrence.Before, hstart o ho, hstart o' ho']
      exact Position.le_refl _
    · rw [Occurrence.Before, hstart o ho]
      exact Position.le_trans hle (h.names o' ho').lo_le
  · refine List.forall_mem_cons.mpr ⟨fun p hp => ?_, hparts.places⟩
    obtain rfl := Option.some.inj hp
    exact ⟨hspan.lo_le, fun hhi => hmid (Position.le_trans h.le hhi)⟩
  · refine List.pairwise_cons.mpr ⟨fun n hn' p hp hp' => hmid ?_, h.apart⟩
    obtain rfl := Option.some.inj hp
    exact (h.places n hn' _ hp').1

end Lies

end MatrixScript
