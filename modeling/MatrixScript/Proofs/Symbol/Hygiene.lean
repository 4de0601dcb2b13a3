import MatrixScript.Proofs.Symbol.Gathering
import MatrixScript.Proofs.Syntax.Context

/-! Functions and what is around them do not see each other's variables.

Main statement: what is collected around a function is what is collected without it, and what is collected
inside it depends on the names of the scopes around it only. -/
namespace MatrixScript

namespace Collection

/-- A walk with a hole in it, and the scopes that are entered on the way to the hole. -/
inductive Around : (Collector Unit → Collector Unit) → List ScopeName → Prop where
  | here : Around (fun x => x) []
  | before {m : Collector Unit} {F : Collector Unit → Collector Unit} {path : List ScopeName}
    (hm : Walk m) (h : Around F path) : Around (fun x => do m; F x) path
  | after {n : Collector Unit} {F : Collector Unit → Collector Unit} {path : List ScopeName}
    (h : Around F path) (hn : Walk n) : Around (fun x => do F x; n) path
  | function (header : FunctionHeader) (documentation : String)
    {F : Collector Unit → Collector Unit} {path : List ScopeName} (h : Around F path) :
    Around (fun x => do
      let scope ← collectHeader header documentation
      within scope (F x)) (.function header.name :: path)

/-- In scopes with these names the collector records `s` and notes no names, whatever the variables. -/
def Closed (m : Collector Unit) (path : List ScopeName) (s : Symbols) : Prop :=
  ∀ c : Collection, c.path = path → (m c).2 = c.add s

variable {F G : Collector Unit → Collector Unit} {path path' : List ScopeName}

namespace Around

theorem comp (h : Around F path) (h' : Around G path') : Around (fun x => F (G x)) (path ++ path') := by
  induction h with
  | here => exact h'
  | before hm _ ih => exact .before hm ih
  | after _ hn ih => exact .after ih hn
  | function header documentation _ ih => exact .function header documentation ih

/-- What a closed collector records in the hole stands between two parts that do not depend on it. -/
theorem records (h : Around F path) (c : Collection) : ∃ front back names, ∀ m s,
    Closed m (c.path ++ path) s → (F m c).2 = (c.rememberAll names).add (front ++ s ++ back) := by
  induction h generalizing c with
  | here =>
    refine ⟨∅, ∅, [], fun m s hm => ?_⟩
    rw [hm c (List.append_nil _).symm]
    simp
  | @before m F path hm _ ih =>
    obtain ⟨names, s₁, hacts⟩ := hm c.path c.isVariable
    have hrun := hacts.run c rfl fun _ => rfl
    obtain ⟨front, back, more, hrecords⟩ := ih (m c).2
    refine ⟨s₁ ++ front, back, names ++ more, fun x s hx => ?_⟩
    rw [bind_run, hrecords x s (by rwa [hrun, path_add, path_rememberAll]), hrun, rememberAll_add,
      add_add, rememberAll_append, Symbols.append_assoc s₁, Symbols.append_assoc s₁]
  | @after n F path _ hn ih =>
    obtain ⟨front, back, names, hrecords⟩ := ih c
    -- The second part sees the names that are noted up to there, which are the same for all `m`.
    obtain ⟨more, s₂, hacts⟩ := hn c.path (c.rememberAll names).isVariable
    refine ⟨front, back ++ s₂, names ++ more, fun m s hm => ?_⟩
    have hrun := hacts.run ((c.rememberAll names).add (front ++ s ++ back)) (by simp) fun _ => rfl
    rw [bind_run, hrecords m s hm, hrun, rememberAll_add, add_add, rememberAll_append,
      Symbols.append_assoc (front ++ s)]
  | @function header documentation F path _ ih =>
    obtain ⟨front, back, names, hrecords⟩ := ih
      ((c.add (headerSymbols c.path header documentation)).enter
        ⟨.function header.name, outputNames header⟩)
    refine ⟨headerSymbols c.path header documentation ++ front, back, [], fun m s hm => ?_⟩
    rw [bind_run, collectHeader_run, within_run, hrecords m s (by simpa using hm), leave_add,
      leave_rememberAll, add_add, rememberAll_nil, Symbols.append_assoc _ front,
      Symbols.append_assoc _ (front ++ s)]

end Around

theorem collectStmts_append (ss ss' : List Stmt) :
    collectStmts (ss ++ ss') = (do collectStmts ss; collectStmts ss') := by
  induction ss with
  | nil =>
    rw [List.nil_append, collectStmts, pure_bind]
  | cons s ss ih => rw [List.cons_append, collectStmts, collectStmts, ih, bind_assoc]

theorem collectBranches_append (bs bs' : List (Branch Stmt)) :
    collectBranches (bs ++ bs') = (do collectBranches bs; collectBranches bs') := by
  induction bs with
  | nil => rw [List.nil_append, collectBranches, pure_bind]
  | cons b bs ih =>
    obtain ⟨guard, body, span⟩ := b
    simp only [List.cons_append, collectBranches, ih, bind_assoc]

theorem collectStmt_ifElse (condition : Option Expr) (body : List Stmt) (clauses : List (Branch Stmt))
    (other : Option (List Stmt)) (span : Span) :
    collectStmt (.ifElse condition body clauses other span) = (do
      collectOptional condition
      collectStmts body
      collectBranches clauses
      collectStmts (other.getD [])) := by
  cases other with
  | none => simp [collectStmt, collectStmts]
  | some other => simp [collectStmt]

theorem collectStmt_switch (subject : Option Expr) (cases : List (Branch Stmt))
    (otherwise : Option (List Stmt)) (span : Span) :
    collectStmt (.switch subject cases otherwise span) = (do
      collectOptional subject
      collectBranches cases
      collectStmts (otherwise.getD [])) := by
  cases otherwise with
  | none => simp [collectStmt, collectStmts]
  | some otherwise => simp [collectStmt]

/-- A branch with a hole in its body. -/
theorem branch_around (front : List (Branch Stmt)) (guard : Option Expr) (span : Span)
    (back : List (Branch Stmt)) : ∃ F, Around F [] ∧ ∀ block,
      collectBranches (front ++ ⟨guard, block, span⟩ :: back) = F (collectStmts block) := by
  refine ⟨_, .before (collectBranches_walk front) (.before (collectOptional_walk guard)
    (.after .here (collectBranches_walk back))), fun block => ?_⟩
  rw [collectBranches_append, collectBranches]

theorem frame_around (frame : Frame) : ∃ F, Around F frame.path ∧ ∀ block,
    collectStmt (frame.fill block) = F (collectStmts block) := by
  cases frame with
  | function header span documentation closed =>
    refine ⟨_, .function header documentation
      (.before (.forM collectParam_walk header.params) .here), fun block => ?_⟩
    rw [Frame.fill, collectStmt]
  | ifBody condition clauses other span =>
    refine ⟨_, .before (collectOptional_walk condition) (.after .here
      (.next (collectBranches_walk clauses) (collectStmts_walk (other.getD [])))), fun block => ?_⟩
    rw [Frame.fill, collectStmt_ifElse]
  | ifClause condition body front guard clauseSpan back other span =>
    obtain ⟨F, hF, hbranches⟩ := branch_around front guard clauseSpan back
    refine ⟨_, .before (collectOptional_walk condition) (.before (collectStmts_walk body)
      (.after hF (collectStmts_walk (other.getD [])))), fun block => ?_⟩
    rw [Frame.fill, collectStmt_ifElse, hbranches]
  | ifOther condition body clauses span =>
    refine ⟨_, .before (collectOptional_walk condition) (.before (collectStmts_walk body)
      (.before (collectBranches_walk clauses) .here)), fun block => ?_⟩
    rw [Frame.fill, collectStmt]
  | forLoop loopVar iterable span =>
    refine ⟨_, .before (.declareOption loopVar) (.before (collectOptional_walk iterable) .here),
      fun block => ?_⟩
    rw [Frame.fill, collectStmt]
  | whileLoop condition span =>
    refine ⟨_, .before (collectOptional_walk condition) .here, fun block => ?_⟩
    rw [Frame.fill, collectStmt]
  | doUntil condition span =>
    refine ⟨_, .after .here (collectOptional_walk condition), fun block => ?_⟩
    rw [Frame.fill, collectStmt]
  | caseBody subject front guard caseSpan back otherwise span =>
    obtain ⟨F, hF, hbranches⟩ := branch_around front guard caseSpan back
    refine ⟨_, .before (collectOptional_walk subject)
      (.after hF (collectStmts_walk (otherwise.getD []))), fun block => ?_⟩
    rw [Frame.fill, collectStmt_switch, hbranches]
  | otherwiseBody subject cases span =>
    refine ⟨_, .before (collectOptional_walk subject) (.before (collectBranches_walk cases) .here),
      fun block => ?_⟩
    rw [Frame.fill, collectStmt]
  | tryBody errorVar handler span =>
    refine ⟨_, .after .here (.next (.declareOption errorVar) (collectStmts_walk handler)),
      fun block => ?_⟩
    rw [Frame.fill, collectStmt]
  | handlerBody body errorVar span =>
    refine ⟨_, .before (collectStmts_walk body) (.before (.declareOption errorVar) .here),
      fun block => ?_⟩
    rw [Frame.fill, collectStmt]

theorem context_around (ctx : Context) : ∃ F, Around F ctx.path ∧ ∀ ss,
    collectStmts (ctx.fill ss) = F (collectStmts ss) := by
  induction ctx with
  | block before after =>
    refine ⟨_, .after (.before (collectStmts_walk before) .here) (collectStmts_walk after),
      fun ss => ?_⟩
    rw [Context.fill, collectStmts_append, collectStmts_append]
  | inside before frame inner after ih =>
    obtain ⟨F, hF, hframe⟩ := frame_around frame
    obtain ⟨G, hG, hinner⟩ := ih
    refine ⟨_, .before (collectStmts_walk before) (.after (hF.comp hG) (collectStmts_walk after)),
      fun ss => ?_⟩
    rw [Context.fill, collectStmts_append, collectStmts, hframe, hinner]

/-- Scopes with these names in which nothing was assigned. -/
def fresh (path : List ScopeName) : Collection :=
  ⟨#[], #[], path.reverse.map (⟨·, []⟩), []⟩

@[simp] theorem path_fresh (path : List ScopeName) : (fresh path).path = path := by
  simp [fresh, Collection.path, Function.comp_def]

/-- What is recorded for the parameters and the body of a function in scopes with these names, when no
variable is assigned in them. -/
def innerSymbols (path : List ScopeName) (header : FunctionHeader) (body : List Stmt) : Symbols :=
  ((do header.params.forM collectParam; collectStmts body : Collector Unit)
    ((fresh path).enter ⟨.function header.name, outputNames header⟩)).2.symbols

theorem function_closed (path : List ScopeName) (header : FunctionHeader) (body : List Stmt)
    (span : Span) (documentation : String) (closed : Bool) :
    Closed (collectStmt (.function header body span documentation closed)) path
      (headerSymbols path header documentation ++ innerSymbols path header body) := by
  have hwalk := Walk.next (.forM collectParam_walk header.params) (collectStmts_walk body)
  obtain ⟨names, s, hacts⟩ := hwalk (path ++ [.function header.name])
    ((outputNames header).contains ·)
  have hinner : innerSymbols path header body = s := by
    have hrun := hacts.run ((fresh path).enter ⟨.function header.name, outputNames header⟩)
      (by simp) fun _ => Bool.or_false _
    rw [innerSymbols, hrun, symbols_add, symbols_rememberAll]
    rfl
  intro c hpath
  rw [collectStmt, hinner]
  exact (Acts.function header documentation hacts).run c hpath fun _ => rfl

theorem scopes_tail_rememberAll (c : Collection) (names : List String) :
    (c.rememberAll names).scopes.tail = c.scopes.tail := by
  induction names generalizing c with
  | nil => rfl
  | cons name names ih =>
    rw [rememberAll_cons, ih]
    obtain ⟨references, definitions, scopes, topLevel⟩ := c
    cases scopes <;> rfl

end Collection

open Collection in
/-- Scopes are hygienic. Around a function, at whatever place of a program, the same symbols are collected
as without the function. Those of the function itself depend on nothing but the names of the scopes around
it. The scopes are the same before and behind a node, up to the names noted in the innermost one. -/
theorem Program.functions_hygienic (p : Program) :
    (∀ s : Stmt, .stmt s ∈ p.nodes → ∃ ctx : Context, p.body = ctx.fill [s]) ∧
    (∀ (ctx : Context) (span : Span), ∃ front back : Symbols,
      Program.symbols ⟨ctx.fill [], span⟩ = front ++ back ∧
      ∀ (header : FunctionHeader) (body : List Stmt) (place : Span) (documentation : String)
        (closed : Bool),
        Program.symbols ⟨ctx.fill [.function header body place documentation closed], span⟩ =
          front ++ (headerSymbols ctx.path header documentation ++
            innerSymbols ctx.path header body) ++ back) ∧
    ∀ (n : Node) (c : Collection),
      (n.collect c).2.path = c.path ∧ (n.collect c).2.scopes.tail = c.scopes.tail := by
  refine ⟨fun s hs => ?_, fun ctx span => ?_, fun n c => ?_⟩
  · obtain h | hmem := List.mem_cons.mp hs
    · exact absurd h (by simp)
    · exact exists_context p.body hmem
  · obtain ⟨F, hF, hcollect⟩ := context_around ctx
    obtain ⟨front, back, names, hrecords⟩ := hF.records .empty
    have hsymbols {ss : List Stmt} {s : Symbols} (hss : Closed (collectStmts ss) ctx.path s) :
        Program.symbols ⟨ctx.fill ss, span⟩ = front ++ s ++ back := by
      change (collectStmts (ctx.fill ss) .empty).2.symbols = _
      rw [hcollect, hrecords _ s hss, symbols_add, symbols_rememberAll]
      rfl
    refine ⟨front, back, ?_, fun header body place documentation closed => ?_⟩
    · have hnone : Closed (collectStmts []) ctx.path ∅ := fun c _ => by
        rw [collectStmts]
        exact (add_empty c).symm
      rw [hsymbols hnone, Symbols.append_empty]
    · refine hsymbols fun c hpath => ?_
      rw [collectStmts, collectStmts, bind_pure_unit]
      exact function_closed ctx.path header body place documentation closed c hpath
  · obtain ⟨names, s, -, hrun⟩ := n.exists_acts c
    rw [hrun]
    exact ⟨by simp, scopes_tail_rememberAll c names⟩

namespace Program

/-- The name `x`, alone or with an argument. -/
def useOfX (line : Nat) (args : Option (List Expr)) : NameUse Expr :=
  ⟨"x", [], .ofNats line 0 line 4, args, false, false⟩

def headerOfF : FunctionHeader := ⟨"f", .ofNats 1 9 1 10, [], []⟩

/-- The function `f` with the body `x(2);`. -/
def callsX : Stmt :=
  .function headerOfF [.call (useOfX 2 (some [.number "2" (.ofNats 2 2 2 3)])) true] (.ofNats 1 0 3 3) "" true

/-- The assignment `x = 1;`, then the function `f`. -/
def sharedName : Program :=
  ⟨[.assign (useOfX 0 none) (some (.number "1" (.ofNats 0 4 0 5))) (.ofNats 0 0 0 5) true, callsX],
    .ofNats 0 0 3 3⟩

open Collection in
/-- The variable outside of `f` does not make the `x` inside it a variable. -/
theorem functions_hygienic_sharedName :
    .stmt callsX ∈ sharedName.nodes ∧ (∃ ctx : Context, sharedName.body = ctx.fill [callsX]) ∧
      (∃ front back : Symbols, sharedName.symbols = front ++ (headerSymbols [] headerOfF "" ++
        ⟨[⟨"x", .function, .ofNats 2 0 2 1, "", some 1⟩], []⟩) ++ back) ∧
      (Node.collect (.stmt callsX) .empty).2.path = [] := by
  have hmem : .stmt callsX ∈ sharedName.nodes := by
    simp [sharedName, nodes, stmtNodes, callsX.mem_nodes]
  obtain ⟨hplaces, hsymbols, hscopes⟩ := functions_hygienic sharedName
  refine ⟨hmem, hplaces callsX hmem, ?_, (hscopes (.stmt callsX) .empty).1⟩
  obtain ⟨front, back, -, hfront⟩ := hsymbols (.block (sharedName.body.take 1) []) sharedName.span
  exact ⟨front, back, hfront headerOfF _ _ _ _⟩

end Program

end MatrixScript
