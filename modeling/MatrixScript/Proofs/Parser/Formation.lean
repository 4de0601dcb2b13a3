import MatrixScript.Proofs.Parser.Extent

/-! What the parser builds from the tokens that it reads.

Main definition: `Built`, for the nodes read from a place up to the present token. They lie there, end with
tokens and enclose their parts. What was read up to one state and from there up to the next is put together
with `Built.append`. -/
namespace MatrixScript

/-- What the parser knows of a node: it encloses its parts, a function has its documentation, and it ends
with a token. Only an assignment of several values can end behind the last token. -/
structure Node.Formed (code : Code) (s : Parser.State) (n : Node) : Prop where
  nests : n.Nests s.Reports code.eof
  documented : n.Documented code (s.faults ≠ [])
  ends : code.Ends n.span.stop ∨ n.Overhangs s.Reports code.eof

theorem Node.Formed.later {code : Code} {s s' : Parser.State} {n : Node} (h : n.Formed code s)
    (hextends : Parser.Extends s s') : n.Formed code s' where
  nests := h.nests.mono fun _ => hextends.reports
  documented := h.documented.mono fun hfaults hnone =>
    hfaults (List.suffix_nil.mp (hnone ▸ hextends.faults))
  ends := h.ends.imp_right (·.mono fun _ => hextends.reports)

theorem Node.mem_nodes (n : Node) : n ∈ n.nodes := by
  rw [n.nodes_eq]
  exact List.mem_cons_self

theorem Node.parts_subset {n : Node} {ns : List Node} (h : n.nodes = n :: ns) : n.parts ⊆ ns := by
  rw [n.nodes_eq] at h
  rw [← (List.cons.inj h).2]
  exact fun part hpart => List.mem_flatMap.mpr ⟨part, hpart, part.mem_nodes⟩

namespace Parser

variable {Q : Node → Prop} {B : Position → Prop} {code : Code} {lo lo' mid hi : Position}
  {ns ns' : List Node} {os os' : List Occurrence} {n : Node} {s s' s₁ : State}

/-- The nodes `ns` with the names `os` in them were read from a place up to the present token. -/
def Built (Q : Node → Prop) (B : Position → Prop) (code : Code) (lo : Position) (ns : List Node)
    (os : List Occurrence) (s : State) : Prop :=
  Lies B (fun n => Q n ∧ n.Formed code s) lo s.here ns os

namespace Built

theorem nil (h : lo ≤ s.here) : Built Q B code lo [] [] s := Lies.nil h

theorem later (h : Built Q B code lo ns os s) (hs : s.Sound B code) (hextends : Extends s s') :
    Built Q B code lo ns os s' :=
  (Lies.mono h (Position.le_refl _) (hs.here_le hextends)).imp fun _ hn => ⟨hn.1, hn.2.later hextends⟩

theorem wider (h : Built Q B code lo ns os s) (hlo : lo' ≤ lo) : Built Q B code lo' ns os s :=
  Lies.mono h hlo (Position.le_refl _)

theorem append (h : Built Q B code lo ns os s) (hextends : Extends s s')
    (h' : Built Q B code s.here ns' os' s') : Built Q B code lo (ns ++ ns') (os ++ os') s' :=
  Lies.append (h.imp fun _ hn => ⟨hn.1, hn.2.later hextends⟩) h'

theorem placed (h : Built (Node.Spelled code) B code lo ns os s) :
    Built (Node.Placed code) B code lo ns os s :=
  h.imp fun _ hn => ⟨hn.1.placed, hn.2⟩

theorem span {e : Expr} (h : Built Q B code lo ns os s) (he : .expr e ∈ ns) :
    e.span.Ended B code lo s.here := by
  obtain ⟨hspan, _, hformed⟩ := h.nodes _ he
  exact ⟨hspan, hformed.ends.resolve_right id⟩

/-- A node that encloses its parts. -/
theorem within (hspan : n.span.Ended B code lo s.here) (hn : Q n)
    (hparts : ∀ part ∈ n.parts, n.span.Encloses part.span) (h : Built Q B code lo ns os s)
    (hname : n.nameSpan? = none) (hplace : n.place? = none) :
    Built Q B code lo (n :: ns) os s := by
  refine Lies.node (by simp [hplace]) hspan.toBetween ⟨hn, ?_, .of_nameSpan? hname, .inl hspan.ends⟩ h
  exact .of_encloses hparts (n.forall_name hname)

/-- A node up to the last token encloses what ends with tokens. -/
theorem formed (h : Built Q B code lo ns os s) (hspan : n.span.Whole B code lo s.here) (hns : n.parts ⊆ ns)
    (hprogram : n.isProgram = false) (hname : ∀ span ∈ n.nameSpan?, n.span.Encloses span)
    (hdocumented : n.Documented code (s.faults ≠ [])) : n.Formed code s := by
  refine ⟨⟨fun part hpart => ?_, fun part hpart => ?_, hname⟩, hdocumented, .inl hspan.ends⟩
  · rw [hspan.start_eq]
    exact (h.nodes part (hns hpart)).1.lo_le
  · obtain ⟨hbetween, _, hformed⟩ := h.nodes part (hns hpart)
    exact hformed.ends.imp (fun hends => hspan.covers _ hends hbetween.le_hi) (.assignment hprogram)

/-- A block over all that was read for it. -/
theorem whole (hspan : n.span.Whole B code lo s.here) (hn : Q n) (h : Built Q B code lo ns os s)
    (hnodes : n.nodes = n :: ns) (hname : n.nameSpan? = none) (hprogram : n.isProgram = false)
    (hplace : n.place? = none) :
    Built Q B code lo (n :: ns) os s := by
  refine Lies.node (by simp [hplace]) hspan.toBetween ⟨hn, ?_⟩ h
  exact h.formed hspan (Node.parts_subset hnodes) hprogram (n.forall_name hname) (.of_nameSpan? hname)

end Built

/-! Lists of parts. -/

section

variable (B code lo)

def ExprLies (e : Expr) (s : State) : Prop :=
  Built (Node.Spelled code) B code lo e.nodes e.occurrences s

def OptionLies (e : Option Expr) (s : State) : Prop :=
  Built (Node.Spelled code) B code lo (optionalNodes e) (optionalOccurrences e) s

def ExprsLie (es : List Expr) (s : State) : Prop :=
  Built (Node.Spelled code) B code lo (exprNodes es) (exprOccurrences es) s

/-- The parts of a list that stand for expressions, such as parameters. -/
def ItemsLie {α : Type} (toExpr : α → Expr) (occurrences : α → List Occurrence) (as : List α) (s : State) :
    Prop :=
  Built (Node.Placed code) B code lo (exprNodes (as.map toExpr)) (as.flatMap occurrences) s

def VariablesLie (vs : List Variable) (s : State) : Prop :=
  ItemsLie B code lo Variable.toExpr Variable.occurrences vs s

def StmtLies (st : Stmt) (s : State) : Prop :=
  Built (Node.Placed code) B code lo st.nodes st.occurrences s

def StmtsLie (ss : List Stmt) (s : State) : Prop :=
  Built (Node.Placed code) B code lo (stmtNodes ss) (stmtOccurrences ss) s

def BranchesLie (bs : List (Branch Stmt)) (s : State) : Prop :=
  Built (Node.Placed code) B code lo (branchNodes bs) (branchOccurrences bs) s

end

theorem OptionLies.spelled {e : Option Expr} (h : OptionLies B code lo e s) :
    ∀ x ∈ e, x.Spelled code.all := by
  rintro x rfl n hn
  exact (Lies.nodes h n hn).2.1.exists_head

theorem OptionLies.none (h : lo ≤ s.here) : OptionLies B code lo none s := .nil h

theorem OptionLies.some {e : Expr} (h : ExprLies B code lo e s) : OptionLies B code lo (some e) s := h

theorem ExprsLie.append {es es' : List Expr} (h : ExprsLie B code lo es s) (hextends : Extends s s')
    (h' : ExprsLie B code s.here es' s') : ExprsLie B code lo (es ++ es') s' := by
  rw [ExprsLie, exprNodes_append, exprOccurrences_append]
  exact Built.append h hextends h'

theorem ExprLies.singleton {e : Expr} (h : ExprLies B code lo e s) : ExprsLie B code lo [e] s := by
  rw [ExprsLie, exprNodes, exprOccurrences, exprNodes, exprOccurrences, List.append_nil, List.append_nil]
  exact h

theorem ItemsLie.concat {α : Type} {toExpr : α → Expr} {occurrences : α → List Occurrence} {as : List α}
    {a : α} (h : ItemsLie B code lo toExpr occurrences as s) (hextends : Extends s s')
    (h' : Built (Node.Placed code) B code s.here (toExpr a).nodes (occurrences a) s') :
    ItemsLie B code lo toExpr occurrences (as ++ [a]) s' := by
  rw [ItemsLie, List.map_append, exprNodes_append, List.flatMap_append, List.flatMap_singleton]
  have hlast : exprNodes ([a].map toExpr) = (toExpr a).nodes := List.append_nil _
  rw [hlast]
  exact Built.append h hextends h'

theorem StmtsLie.concat {ss : List Stmt} {st : Stmt} (h : StmtsLie B code lo ss s) (hextends : Extends s s')
    (h' : StmtLies B code s.here st s') : StmtsLie B code lo (ss ++ [st]) s' := by
  rw [StmtsLie, stmtNodes_append, stmtOccurrences_append, stmtNodes_singleton, stmtOccurrences_singleton]
  exact Built.append h hextends h'

theorem BranchesLie.append {bs bs' : List (Branch Stmt)} (h : BranchesLie B code lo bs s)
    (hextends : Extends s s') (h' : BranchesLie B code s.here bs' s') : BranchesLie B code lo (bs ++ bs') s' := by
  rw [BranchesLie, branchNodes_append, branchOccurrences_append]
  exact Built.append h hextends h'

theorem BranchesLie.singleton {guard : Option Expr} {body : List Stmt} {span : Span}
    (hspan : span.Whole B code lo s.here) (hguard : OptionLies B code lo guard s₁) (hextends : Extends s₁ s)
    (hbody : StmtsLie B code s₁.here body s) : BranchesLie B code lo [⟨guard, body, span⟩] s := by
  rw [BranchesLie, branchNodes, branchNodesOne, branchNodes, branchOccurrences, branchOccurrences,
    List.append_nil, List.append_nil, List.cons_append]
  exact .whole hspan trivial (hguard.placed.append hextends hbody) (by simp [Node.nodes, branchNodesOne]) rfl rfl rfl

/-! Expressions. -/

theorem ExprLies.span {e : Expr} (h : ExprLies B code lo e s) : e.span.Ended B code lo s.here :=
  Built.span h e.mem_nodes

theorem ExprsLie.span {es : List Expr} {e : Expr} (h : ExprsLie B code lo es s) (he : e ∈ es) :
    e.span.Ended B code lo s.here :=
  Built.span h (mem_exprNodes.mpr ⟨e, he, e.mem_nodes⟩)

theorem ItemsLie.span {α : Type} {toExpr : α → Expr} {occurrences : α → List Occurrence} {as : List α}
    (h : ItemsLie B code lo toExpr occurrences as s) {a : α} (ha : a ∈ as) :
    (toExpr a).span.Ended B code lo s.here :=
  Built.span h (mem_exprNodes.mpr ⟨_, List.mem_map_of_mem ha, (toExpr a).mem_nodes⟩)

/-- A token, or the value behind it if there is one. -/
theorem Built.elim_span {e : Option Expr} {span : Span} (h : Built Q B code mid (optionalNodes e) os s)
    (hspan : span.Ended B code lo mid) : (e.elim span Expr.span).Ended B code lo s.here := by
  cases e with
  | none => exact hspan.mono (Position.le_refl _) h.le
  | some e => exact (Built.span h e.mem_nodes).mono hspan.le (Position.le_refl _)

theorem Built.le_elim {e : Option Expr} {span : Span} (h : Built Q B code mid (optionalNodes e) os s)
    (hle : span.stop ≤ mid) : span.stop ≤ (e.elim span Expr.span).stop := by
  cases e with
  | none => exact Position.le_refl _
  | some e =>
    have hspan := Built.span h e.mem_nodes
    exact Position.le_trans hle (Position.le_trans hspan.lo_le hspan.start_le)

theorem Built.encloses_elim {e : Option Expr} (h : Built Q B code mid (optionalNodes e) os s) (span : Span)
    (hle : lo ≤ mid) :
    ∀ part ∈ e.toList.map Node.expr, Span.Encloses ⟨lo, (e.elim span Expr.span).stop⟩ part.span := by
  cases e with
  | none => exact List.forall_mem_nil _
  | some e =>
    have hspan := Built.span h e.mem_nodes
    exact List.forall_mem_singleton.mpr ⟨Position.le_trans hle hspan.lo_le, Position.le_refl _⟩

/-- An expression without parts in which no name occurs. -/
theorem ExprLies.leaf {e : Expr} (hspan : e.span.Ended B code lo s.here) (hn : (Node.expr e).Spelled code)
    (hnodes : e.nodes = [.expr e]) (hnames : e.occurrences = []) (hparts : (Node.expr e).parts = [])
    (hname : (Node.expr e).nameSpan? = none) (hplace : (Node.expr e).place? = none) : ExprLies B code lo e s := by
  rw [ExprLies, hnodes, hnames]
  exact .within hspan hn (hparts ▸ List.forall_mem_nil _) (.nil hspan.le) hname hplace

theorem ExprLies.binary {op : BinaryOp} {left right : Expr} (hleft : ExprLies B code lo left s₁)
    (hextends : Extends s₁ s) (hright : ExprLies B code s₁.here right s) :
    ExprLies B code lo (.binary op left right (left.span.merge right.span)) s := by
  rw [ExprLies, Expr.nodes, Expr.occurrences, List.cons_append]
  refine .within (.merge hleft.span.toBetween hright.span) trivial ?_ (Built.append hleft hextends hright)
    rfl rfl
  refine List.forall_mem_cons.mpr ⟨Span.merge_encloses_left _ _, List.forall_mem_singleton.mpr ?_⟩
  exact Span.merge_encloses_right _ _

theorem ExprLies.prefixed {op : PrefixOp} {operand : Expr} {sign : Span} (hsign : sign.Between B lo mid)
    (h : ExprLies B code mid operand s) :
    ExprLies B code lo (.prefixed op operand (sign.merge operand.span)) s := by
  rw [ExprLies, Expr.nodes, Expr.occurrences]
  refine .within (.merge hsign h.span) trivial (List.forall_mem_singleton.mpr ?_) (h.wider hsign.le) rfl rfl
  exact Span.merge_encloses_right _ _

theorem ExprLies.transposed {op : TransposeOp} {operand : Expr} {sign : Span}
    (h : ExprLies B code lo operand s₁) (hs₁ : s₁.Sound B code) (hextends : Extends s₁ s)
    (hsign : sign.Ended B code s₁.here s.here) :
    ExprLies B code lo (.transposed op operand (operand.span.merge sign)) s := by
  rw [ExprLies, Expr.nodes, Expr.occurrences]
  refine .within (.merge h.span.toBetween hsign) trivial (List.forall_mem_singleton.mpr ?_)
    (h.later hs₁ hextends) rfl rfl
  exact Span.merge_encloses_left _ _

theorem ExprLies.handle {function : Variable} {sign : Span} (hstands : function.StandsIn code.all)
    (hsign : sign.Between B lo mid) (hname : function.span.Ended B code mid s.here)
    (hhi : ¬s.here ≤ function.span.start) :
    ExprLies B code lo (.handle function (sign.merge function.span)) s := by
  have hlo : lo ≤ function.span.start := Position.le_trans hsign.le hname.lo_le
  have hspan := Span.Ended.merge hsign hname
  rw [ExprLies, Expr.nodes, Expr.occurrences]
  refine Lies.node (fun p hp => ?_) hspan.toBetween ⟨hstands, .of_encloses (List.forall_mem_nil _) ?_, trivial,
    .inl hspan.ends⟩ (.at_span hname.toValid hlo ?_ (by simp))
  · obtain rfl := Option.some.inj hp
    exact ⟨hlo, hhi, List.forall_mem_nil _⟩
  · rintro _ ⟨⟩
    exact Span.merge_encloses_right _ _
  · exact Position.le_trans hname.start_le hname.le_hi

/-- The parameters of an anonymous function have its place. -/
theorem ExprLies.anonymous {params : List String} {body : Option Expr} {last : Span}
    (hnamed : ∀ param ∈ params, NamedBy code.all param) (hmid : lo ≤ mid)
    (hspan : Span.Ended B code lo s.here ⟨lo, (body.elim last Expr.span).stop⟩)
    (hbody : OptionLies B code mid body s) :
    ExprLies B code lo (.anonymous params body ⟨lo, (body.elim last Expr.span).stop⟩) s := by
  have hparams {P : Node → Prop} {hi : Position} (hle : lo ≤ hi) : Lies B P lo hi []
      (paramOccurrences params ⟨lo, (body.elim last Expr.span).stop⟩) := by
    refine .at_span hspan.toValid hspan.lo_le hle ?_
    simp [paramOccurrences, or_imp, forall_and]
  have hencloses := Built.encloses_elim hbody last hmid
  rw [ExprLies]
  cases body with
  | none =>
    rw [Expr.nodes, Expr.occurrences]
    exact .within hspan hnamed hencloses (hparams hspan.le) rfl rfl
  | some body =>
    rw [Expr.nodes, Expr.occurrences]
    exact .within hspan hnamed hencloses (Lies.append (hparams hmid) hbody) rfl rfl

/-- A name with a value behind an equals sign. Its name occurs as a use or as a parameter. -/
theorem Built.named {text : String} {name equals : Span} {place : Position} {value : Option Expr}
    (hstands : Variable.StandsIn code.all ⟨text, name⟩) (hname : name.Between B lo mid)
    (hequals : equals.Ended B code mid place) (hvalue : OptionLies B code place value s)
    (hQ : ∀ n, n.Spelled code → Q n) (hos : ∀ o ∈ os, o.span = name ∧ o.role ≠ .path) :
    Built Q B code lo
      (Expr.named ⟨text, name, value, ⟨name.start, (value.elim equals Expr.span).stop⟩⟩).nodes
      (os ++ optionalOccurrences value) s := by
  have hstop := Built.elim_span hvalue hequals
  have hspan := Span.Ended.join hname hstop
  have hbehind : name.start ≤ place :=
    Position.le_trans hname.start_le (Position.le_trans hname.le_hi hequals.le)
  have hhead {P : Node → Prop} : Lies B P lo place [] os :=
    .at_span hname.toValid hname.lo_le hbehind hos
  rw [Expr.nodes, namedNodes_eq]
  refine Lies.node nofun hspan.toBetween ⟨hQ _ hstands, .of_encloses ?_ ?_, trivial, .inl hspan.ends⟩ ?_
  · exact Built.encloses_elim hvalue equals hbehind
  · rintro _ ⟨⟩
    exact ⟨Position.le_refl _, Position.le_trans hname.le_hi (Position.le_trans hstop.lo_le hstop.start_le)⟩
  · exact hhead.append (hvalue.imp fun n hn => ⟨hQ n hn.1, hn.2⟩)

/-- A use of a name. Its arguments stand behind its first letter. -/
structure UseLies (Q : Node → Prop) (B : Position → Prop) (code : Code) (lo : Position) (use : NameUse Expr)
    (s : State) : Prop where
  span : use.span.Ended B code lo s.here
  root : use.rootSpan.Valid B
  own : Q (.expr (.name use))
  stops : ∀ arg ∈ use.args.getD [], arg.span.stop ≤ use.span.stop ∨
    (Node.expr (.name use)).Escapes s.Reports code.eof (.expr arg)
  args : ∃ mid, ¬mid ≤ use.span.start ∧
    Built Q B code mid (exprNodes (use.args.getD [])) (exprOccurrences (use.args.getD [])) s

theorem UseLies.later {use : NameUse Expr} (h : UseLies Q B code lo use s) (hs : s.Sound B code)
    (hextends : Extends s s') : UseLies Q B code lo use s' := by
  obtain ⟨mid, hmid, hargs⟩ := h.args
  refine ⟨h.span.mono (Position.le_refl _) (hs.here_le hextends), h.root, h.own, fun arg harg => ?_, mid, hmid,
    hargs.later hs hextends⟩
  exact (h.stops arg harg).imp_right (·.mono fun _ => hextends.reports)

/-- A use of a name, with more names at its first letter in front of it. -/
theorem UseLies.lies {use : NameUse Expr} (h : UseLies Q B code lo use s) (os : List Occurrence)
    (hos : ∀ o ∈ os, o.span = use.rootSpan ∧ o.role ≠ .path) :
    Built Q B code lo (Expr.name use).nodes (os ++ useOccurrences use) s := by
  obtain ⟨mid, hmid, hargs⟩ := h.args
  have hstart {o : Occurrence} (ho : o.span.start = use.span.start) :
      lo ≤ o.span.start ∧ o.span.start ≤ s.here := by
    rw [ho]
    exact ⟨h.span.lo_le, Position.le_trans h.span.start_le h.span.le_hi⟩
  have hown : ∀ o ∈ os ++ use.ownOccurrences, o.span.start = use.span.start ∧
      o.LiesIn B lo s.here (.expr (.name use) :: exprNodes (use.args.getD [])) := by
    intro o ho
    rw [NameUse.ownOccurrences, List.mem_append, List.mem_cons] at ho
    rcases ho with ho | rfl | ho
    · obtain ⟨hspan, hrole⟩ := hos o ho
      have hroot : o.span.start = use.span.start := by rw [hspan]; rfl
      exact ⟨hroot, (hstart hroot).1, (hstart hroot).2, fun _ => hspan ▸ h.root,
        fun hpath => absurd hpath hrole⟩
    · exact ⟨rfl, (hstart rfl).1, (hstart rfl).2, fun _ => h.root, nofun⟩
    · split_ifs at ho with hdotted
      · obtain rfl := List.mem_singleton.mp ho
        exact ⟨rfl, (hstart rfl).1, (hstart rfl).2, fun hrole => absurd rfl hrole,
          fun _ => ⟨use, List.mem_cons_self, hdotted, rfl, rfl⟩⟩
      · exact absurd ho List.not_mem_nil
  have hnests : (Node.expr (.name use)).Nests s.Reports code.eof := by
    refine ⟨List.forall_mem_map.mpr fun arg harg => ?_, List.forall_mem_map.mpr h.stops, Node.forall_name _ rfl⟩
    have hspan := Built.span hargs (mem_exprNodes.mpr ⟨arg, harg, arg.mem_nodes⟩)
    exact Position.le_trans ((Position.le_total _ _).resolve_right hmid) hspan.lo_le
  rw [Expr.nodes, useNodes_eq, useOccurrences_eq, ← List.append_assoc]
  exact Lies.head h.span.toBetween ⟨h.own, hnests, trivial, .inl h.span.ends⟩ (fun o ho => (hown o ho).2)
    (fun o ho => (hown o ho).1) hmid hargs

theorem UseLies.name {use : NameUse Expr} (h : UseLies Q B code lo use s) :
    Built Q B code lo (Expr.name use).nodes (Expr.name use).occurrences s := by
  have hlies := h.lies [] (List.forall_mem_nil _)
  rwa [List.nil_append, ← Expr.occurrences] at hlies

/-! Variables and statements. -/

theorem StmtsLie.span {ss : List Stmt} {st : Stmt} (h : StmtsLie B code lo ss s) (hst : st ∈ ss) :
    st.span.Between B lo s.here :=
  (Lies.nodes h _ (mem_stmtNodes.mpr ⟨st, hst, st.mem_nodes⟩)).1

theorem BranchesLie.span {bs : List (Branch Stmt)} {b : Branch Stmt} (h : BranchesLie B code lo bs s)
    (hb : b ∈ bs) : b.span.Between B lo s.here :=
  (Lies.nodes h (.branch b) (mem_branchNodes.mpr ⟨b, hb, by rw [branchNodesOne]; exact List.mem_cons_self⟩)).1

/-- A variable that is introduced. -/
theorem Built.variable {v : Variable} (hstands : v.StandsIn code.all) (h : v.span.Ended B code lo s.here)
    (hhi : ¬s.here ≤ v.span.start) : Built (Node.Placed code) B code lo v.toExpr.nodes v.occurrences s := by
  have hnodes : v.toExpr.nodes = [.expr v.toExpr] := by rw [Variable.toExpr, Expr.nodes, useNodes]
  have hplaced : (Node.expr v.toExpr).Placed code := by
    obtain ⟨t, ht, hnames, hspan⟩ := hstands
    exact ⟨⟨t, ht, hnames, by rw [hspan], fun _ _ => hspan⟩, absurd rfl, fun _ _ => nofun⟩
  have hplace : ∀ p ∈ (Node.expr v.toExpr).place?, lo ≤ p ∧ ¬s.here ≤ p ∧ ∀ n ∈ [], p ∉ Node.place? n := by
    intro p hp
    obtain rfl := Option.some.inj hp
    exact ⟨h.lo_le, hhi, List.forall_mem_nil _⟩
  rw [hnodes]
  refine Lies.node hplace h.toBetween ⟨hplaced, .of_encloses (List.forall_mem_nil _) (Node.forall_name _ rfl),
    trivial, .inl h.ends⟩ (.at_span h.toValid h.lo_le (Position.le_trans h.start_le h.le_hi) ?_)
  simp [Variable.occurrences]

theorem Built.ignored {span : Span} (h : span.Ended B code lo s.here) :
    Built (Node.Placed code) B code lo (Expr.mark .ignored span).nodes [] s := by
  rw [Expr.nodes]
  exact .within h trivial (List.forall_mem_nil _) (.nil h.le) rfl rfl

/-- An item of a list that introduces a variable is placed where the variable stands. -/
theorem ItemsLie.standsIn {α : Type} {toExpr : α → Expr} {occurrences : α → List Occurrence}
    {as : List α} (h : ItemsLie B code lo toExpr occurrences as s) {a : α} (ha : a ∈ as) {v : Variable}
    (hv : toExpr a = v.toExpr) : v.StandsIn code.all := by
  have hnode : .expr v.toExpr ∈ exprNodes (as.map toExpr) :=
    hv ▸ mem_exprNodes.mpr ⟨toExpr a, List.mem_map_of_mem ha, (toExpr a).mem_nodes⟩
  obtain ⟨⟨t, ht, hnames, _, hspan⟩, _⟩ := (Lies.nodes h _ hnode).2.1
  exact ⟨t, ht, hnames, hspan rfl rfl⟩

theorem VariablesLie.standsIn {vs : List Variable} (h : VariablesLie B code lo vs s) :
    ∀ v ∈ vs, v.StandsIn code.all :=
  fun _ hv => ItemsLie.standsIn h hv rfl

end Parser

end MatrixScript
