import MatrixScript.Proofs.Parser.BlockExtent
import MatrixScript.Proofs.Parser.LineAccounts
import MatrixScript.Proofs.Parser.NestedBlock

/-! The names in a switch without errors are all accounted for.

Where a switch has more than one `otherwise`, the tree keeps only the statements behind the last one. While
the parser reads the branches, it does not know yet which one that will be. So the names are accounted for
in two ways: with the statements behind the present `otherwise` kept, and without them. -/
namespace MatrixScript

namespace Code

/-- Behind an `otherwise` of a switch, and not in the other parts. -/
structure BehindOtherwise (code : Code) (parts : List Span) (first place : Nat) : Prop where
  first_lt : first < place
  first_kind : (code.token first).kind = .keyword .otherwiseBranch
  first_outside : code.OutsideOf parts first
  outside : code.OutsideOf parts place

theorem BehindOtherwise.between {code : Code} {parts : List Span} {first last place : Nat}
    (h : code.BehindOtherwise parts first place) (hlt : place < last)
    (hkind : (code.token last).kind = .keyword .otherwiseBranch) (hlast : code.OutsideOf parts last) :
    code.BetweenOtherwise parts first last place :=
  ⟨h.first_lt, hlt, h.first_kind, hkind, by simp [h.first_outside, h.outside, hlast]⟩

/-- More parts that are not at these tokens either. -/
theorem BetweenOtherwise.mono {code : Code} {parts parts' : List Span} {first last place : Nat}
    (h : code.BetweenOtherwise parts first last place)
    (hparts : ∀ k ≤ last, code.OutsideOf parts k → code.OutsideOf parts' k) :
    code.BetweenOtherwise parts' first last place := by
  have hfirst := h.first_lt
  have hlast := h.lt_last
  refine ⟨hfirst, hlast, h.first_kind, h.last_kind, fun k hk => hparts k ?_ (h.outside k hk)⟩
  simp only [List.mem_cons, List.not_mem_nil, or_false] at hk
  omega

end Code

theorem subset_insert {α : Type} (xs ys zs more : List α) : xs ++ ys ++ zs ⊆ xs ++ (ys ++ more) ++ zs := by
  intro x hx
  simp only [List.mem_append] at hx ⊢
  tauto

theorem inserted_subset {α : Type} (xs ys zs more : List α) : more ⊆ xs ++ (ys ++ more) ++ zs := by
  intro x hx
  simp [hx]

theorem mem_switchParts_concat {subject : Option Expr} {cases : List (Branch Stmt)} {branch : Branch Stmt}
    {otherwise : Option (List Stmt)} {part : Span} :
    part ∈ switchParts subject (cases ++ [branch]) otherwise ↔
      part ∈ switchParts subject cases otherwise ∨ part = branch.span := by
  simp only [switchParts, List.map_append, List.mem_append, List.map_cons, List.map_nil,
    List.mem_singleton]
  tauto

theorem mem_switchParts_some {subject : Option Expr} {cases : List (Branch Stmt)} {body : List Stmt}
    {part : Span} : part ∈ switchParts subject cases (some body) ↔
      part ∈ switchParts subject cases none ∨ ∃ st ∈ body, st.span = part := by
  simp [switchParts, or_assoc]

namespace Parser

variable {B : Position → Prop} {code : Code} {D : Nat → Prop} {ns ns' : List Node}
  {os os' : List Occurrence} {s₀ s s' : State} {block : BlockParser} {gas : Nat}

/-- All names between two states are accounted for, with those that the nodes `ns` have dropped. -/
def NodeAccounts (B : Position → Prop) (code : Code) (ns : List Node) (os : List Occurrence)
    (s₀ s : State) : Prop :=
  Accounts B code [] (code.Dropped ns) os s₀ s

theorem NodeAccounts.mono (h : NodeAccounts B code ns os s₀ s) (hns : ns ⊆ ns') (hos : os ⊆ os') :
    NodeAccounts B code ns' os' s₀ s :=
  Accounts.mono h (fun _ _ hk => hk.mono hns) hos

/-- The parser for the blocks inside statements. -/
def BlockAccounts (B : Position → Prop) (code : Code) (block : BlockParser) : Prop :=
  ∀ ns os s₀ ends s, CleanRun (NodeAccounts B code ns os s₀ s) s
    (fun body s' => NodeAccounts B code (ns ++ stmtNodes body) (os ++ stmtOccurrences body) s₀ s')
    (block ends s)

theorem skipSeparators_accounts :
    CleanRun (Accounts B code [] D os s₀ s) s (fun _ s' => Accounts B code [] D os s₀ s')
      (skipUntil (fun kind => !isSeparator kind) s) :=
  accounted HeaderTracking.skipSeparators

theorem parseCondition_accounts (word : Keyword) (keyword : Token) :
    CleanRun (Accounts B code [] D os s₀ s) s
      (fun e s' => Accounts B code [] D (os ++ optionalOccurrences e) s₀ s')
      (parseCondition gas word keyword s) :=
  accounted (HeaderTracking.parseCondition word keyword)

/-- A block without errors ends with the token that closes it. -/
theorem closeBlock_accounts (word : Keyword) (keyword : Token) :
    CleanRun (Accounts B code [] D os s₀ s) s
      (fun stop s' => Accounts B code [] D os s₀ s' ∧ stop = s.current.span.stop)
      (closeBlock word keyword s) := by
  refine .read rfl (.ite (fun hword => .next (.pure fun h => ?_)) (fun _ => ?_))
  · obtain ⟨closing, _, hkind⟩ := kind_of_isWord hword
    exact ⟨h.passWord hkind, rfl⟩
  · exact .fail rfl _ fun _ => .read rfl (.pure trivial)

/-! The branches. -/

/-- The branches of a switch that starts at a place, up to the present one. -/
structure SwitchAccounts (B : Position → Prop) (code : Code) (ns : List Node) (os : List Occurrence)
    (s₀ : State) (start : Nat) (subject : Option Expr) (cases : List (Branch Stmt))
    (otherwise : Option (List Stmt)) (s : State) : Prop where
  start_lt : start < s.pos
  stop_le : ∀ part ∈ switchParts subject cases none, part.stop ≤ s.here
  kept : Accounts B code []
    (fun k => code.Dropped (ns ++ branchNodes cases ++ stmtNodes (otherwise.getD [])) k ∨
      ∃ first last, start < first ∧ last < s.pos ∧
        code.BetweenOtherwise (switchParts subject cases otherwise) first last k)
    (os ++ branchOccurrences cases ++ stmtOccurrences (otherwise.getD [])) s₀ s
  without : Accounts B code []
    (fun k => code.Dropped (ns ++ branchNodes cases) k ∨
      ∃ first, start < first ∧ code.BehindOtherwise (switchParts subject cases none) first k)
    (os ++ branchOccurrences cases) s₀ s

namespace SwitchAccounts

variable {start : Nat} {subject : Option Expr} {cases : List (Branch Stmt)}
  {otherwise : Option (List Stmt)}

section

variable (h : SwitchAccounts B code ns os s₀ start subject cases otherwise s)
include h

theorem sound : s.Sound B code :=
  h.kept.sound

/-- Tokens between the branches. -/
theorem pass (hpiece : Accounts B code [] (fun _ => False) [] s s') :
    SwitchAccounts B code ns os s₀ start subject cases otherwise s' where
  start_lt := Nat.lt_of_lt_of_le h.start_lt hpiece.le
  stop_le part hpart := Position.le_trans (h.stop_le part hpart) (hpiece.here_le_here h.sound)
  kept := by
    refine Accounts.trans (h.kept.mono (fun k _ hk => ?_) (List.Subset.refl _))
      (hpiece.mono (fun _ _ => False.elim) (List.nil_subset _))
    refine hk.imp_right fun ⟨first, last, hfirst, hlast, hbetween⟩ => ?_
    exact ⟨first, last, hfirst, Nat.lt_of_lt_of_le hlast hpiece.le, hbetween⟩
  without := h.without.trans (hpiece.mono (fun _ _ => False.elim) (List.nil_subset _))

/-- One more case. It stands behind all tokens so far. -/
theorem addCase {branch : Branch Stmt} (hstart : branch.span.start = s.here)
    (hstop : branch.span.stop ≤ s'.here)
    (hpiece : NodeAccounts B code (branchNodes [branch]) (branchOccurrences [branch]) s s') :
    SwitchAccounts B code ns os s₀ start subject (cases ++ [branch]) otherwise s' := by
  have hadd (otherwise : Option (List Stmt)) : ∀ k < s.pos,
      code.OutsideOf (switchParts subject cases otherwise) k →
        code.OutsideOf (switchParts subject (cases ++ [branch]) otherwise) k := by
    intro k hk houtside part hpart
    obtain hpart | rfl := mem_switchParts_concat.mp hpart
    · exact houtside part hpart
    · exact .inr (hstart ▸ h.kept.stop_le_here hk)
  refine ⟨Nat.lt_of_lt_of_le h.start_lt hpiece.le, fun part hpart => ?_, ?_, ?_⟩
  · obtain hpart | rfl := mem_switchParts_concat.mp hpart
    · exact Position.le_trans (h.stop_le part hpart) (Accounts.here_le_here hpiece h.sound)
    · exact hstop
  · rw [branchNodes_append, branchOccurrences_append]
    refine Accounts.trans (h.kept.mono (fun k _ hk => ?_) (subset_insert _ _ _ _))
      (Accounts.mono hpiece (fun k _ hk => .inl (hk.mono (inserted_subset _ _ _ _)))
        (inserted_subset _ _ _ _))
    obtain hk | ⟨first, last, hfirst, hlast, hbetween⟩ := hk
    · exact .inl (hk.mono (subset_insert _ _ _ _))
    · refine .inr ⟨first, last, hfirst, Nat.lt_of_lt_of_le hlast hpiece.le, hbetween.mono fun k hk => ?_⟩
      exact hadd otherwise k (Nat.lt_of_le_of_lt hk hlast)
  · rw [branchNodes_append, branchOccurrences_append, ← List.append_assoc, ← List.append_assoc]
    refine Accounts.trans (h.without.mono (fun k hlt hk => ?_) (List.subset_append_left _ _))
      (Accounts.mono hpiece (fun k _ hk => .inl (hk.mono (List.subset_append_right _ _)))
        (List.subset_append_right _ _))
    obtain hk | ⟨first, hfirst, hbehind⟩ := hk
    · exact .inl (hk.mono (List.subset_append_left _ _))
    · have hbefore := Nat.lt_trans hbehind.first_lt hlt
      exact .inr ⟨first, hfirst, hbehind.first_lt, hbehind.first_kind,
        hadd none first hbefore hbehind.first_outside, hadd none k hlt hbehind.outside⟩

/-- The statements behind an `otherwise` take the place of those behind the one before. -/
theorem setOtherwise (hkind : s.current.kind = .keyword .otherwiseBranch) {body : List Stmt}
    (hbody : ∀ st ∈ body, (advance s).2.here ≤ st.span.start)
    (hblock : NodeAccounts B code (stmtNodes body) (stmtOccurrences body) (advance s).2 s') :
    SwitchAccounts B code ns os s₀ start subject cases (some body) s' := by
  have hrest := h.sound.rest_ne_nil (by rw [hkind]; exact nofun)
  have hpiece : NodeAccounts B code (stmtNodes body) (stmtOccurrences body) s s' :=
    ((h.kept.start _ _).passWord hkind).trans hblock
  have hlt : s.pos < s'.pos := by
    have hle := hblock.le
    rwa [advance_pos hrest] at hle
  have hkind' : (code.token s.pos).kind = .keyword .otherwiseBranch := by rw [← h.kept.current_eq, hkind]
  have hbehind : ∀ k, s.pos ≤ k → k < s'.pos → code.OutsideOf (switchParts subject cases none) k := by
    intro k hk hlt part hpart
    have hstart := h.sound.laid.token_start_le hk (Nat.le_of_lt (Nat.lt_of_lt_of_le hlt hpiece.pos_le))
    rw [← h.kept.current_eq] at hstart
    exact .inl (Position.le_trans (h.stop_le part hpart) hstart)
  have hadd : ∀ k ≤ s.pos, code.OutsideOf (switchParts subject cases none) k →
      code.OutsideOf (switchParts subject cases (some body)) k := by
    intro k hk houtside part hpart
    obtain hpart | ⟨st, hst, rfl⟩ := mem_switchParts_some.mp hpart
    · exact houtside part hpart
    · have hnext : k < (advance s).2.pos := by rw [advance_pos hrest]; exact Nat.lt_succ_of_le hk
      exact .inr (Position.le_trans ((h.kept.passWord hkind).stop_le_here hnext) (hbody st hst))
  refine ⟨Nat.lt_trans h.start_lt hlt, fun part hpart => ?_, ?_, ?_⟩
  · exact Position.le_trans (h.stop_le part hpart) (Accounts.here_le_here hpiece h.sound)
  · refine Accounts.trans (h.without.mono (fun k hk hdrop => ?_) (List.subset_append_left _ _))
      (Accounts.mono hpiece (fun k _ hk => .inl (hk.mono (List.subset_append_right _ _)))
        (List.subset_append_right _ _))
    obtain hdrop | ⟨first, hfirst, hdrop⟩ := hdrop
    · exact .inl (hdrop.mono (List.subset_append_left _ _))
    · have hbetween := hdrop.between hk hkind' (hbehind s.pos (Nat.le_refl _) hlt)
      exact .inr ⟨first, s.pos, hfirst, hlt, hbetween.mono hadd⟩
  · refine h.without.trans (Accounts.drop hpiece (fun k hk hlt' hname => ?_) _)
    have hne : s.pos ≠ k := by
      rintro rfl
      rw [Token.isName, hkind'] at hname
      contradiction
    exact .inr ⟨s.pos, h.start_lt, Nat.lt_of_le_of_ne hk hne, hkind', hbehind s.pos (Nat.le_refl _) hlt,
      hbehind k hk hlt'⟩

end

/-- Behind the subject there are no branches yet. -/
theorem opened (h : NodeAccounts B code ns os s₀ s) {word : Keyword}
    (hkind : s.current.kind = .keyword word) {lo : Position}
    (hpiece : Accounts B code [] (code.Dropped ns) ([] ++ optionalOccurrences subject) (advance s).2 s')
    (hsubject : OptionLies B code lo subject s') :
    SwitchAccounts B code ns (os ++ optionalOccurrences subject) s₀ s.pos subject [] none s' := by
  have hall : Accounts B code [] (code.Dropped ns) (os ++ optionalOccurrences subject) s₀ s' :=
    Accounts.trans ((Accounts.passWord h hkind).uses (List.subset_append_left _ _))
      (hpiece.uses (List.subset_append_right _ _))
  refine ⟨?_, fun part hpart => ?_, ?_, ?_⟩
  · have hle := hpiece.le
    rwa [advance_pos (h.sound.rest_ne_nil (by rw [hkind]; exact nofun))] at hle
  · cases subject with
    | none => simp [switchParts] at hpart
    | some e =>
      obtain rfl : part = e.span := by simpa [switchParts] using hpart
      exact (ExprLies.span hsubject).le_hi
  · refine hall.mono (fun k _ hk => .inl (hk.mono ?_)) ?_
    · exact List.subset_append_of_subset_left _ (List.subset_append_left _ _)
    · exact List.subset_append_of_subset_left _ (List.subset_append_left _ _)
  · refine hall.mono (fun k _ hk => .inl (hk.mono ?_)) (List.subset_append_left _ _)
    exact List.subset_append_left _ _

/-- At the token that closes the switch, its span is known. -/
theorem close (h : SwitchAccounts B code ns (os ++ optionalOccurrences subject) s₀ start subject cases
      otherwise s) :
    NodeAccounts B code
      (ns ++ (Stmt.switch subject cases otherwise
        ⟨(code.token start).span.start, s.current.span.stop⟩).nodes)
      (os ++ (Stmt.switch subject cases otherwise
        ⟨(code.token start).span.start, s.current.span.stop⟩).occurrences) s₀ s := by
  have hencloses {k : Nat} (hstart : start < k) (hk : k < s.pos) :
      Span.Encloses ⟨(code.token start).span.start, s.current.span.stop⟩ (code.token k).span := by
    refine ⟨h.sound.laid.token_start_le (Nat.le_of_lt hstart) ?_, ?_⟩
    · exact Nat.le_of_lt (Nat.lt_of_lt_of_le hk h.kept.pos_le)
    · exact Position.le_trans (h.kept.stop_le_here hk) h.sound.current_valid.start_le
  rw [Stmt.nodes_switch, Stmt.occurrences_switch]
  refine h.kept.mono (fun k _ hk => ?_) ?_
  · obtain hk | ⟨first, last, hfirst, hlast, hbetween⟩ := hk
    · refine hk.mono fun n hn => ?_
      simp only [List.mem_append, List.mem_cons] at hn ⊢
      tauto
    · have hlt := Nat.lt_trans hbetween.first_lt hbetween.lt_last
      exact ⟨_, List.mem_append_right _ List.mem_cons_self, .replaced
        (hencloses hfirst (Nat.lt_trans hlt hlast)) (hencloses (Nat.lt_trans hfirst hlt) hlast) hbetween⟩
  · simp only [List.append_assoc]
    exact List.Subset.refl _

end SwitchAccounts

theorem parseBranches_accounts (hblock : BlockAccounts B code block) (hlies : BlockLies B code block)
    {start : Nat} {subject : Option Expr} (exprGas gas : Nat) (cases : List (Branch Stmt))
    (otherwise : Option (List Stmt)) :
    CleanRun (SwitchAccounts B code ns os s₀ start subject cases.reverse otherwise s) s
      (fun branches s' => SwitchAccounts B code ns os s₀ start subject branches.1 branches.2 s')
      (parseBranches exprGas block gas cases otherwise s) := by
  induction gas generalizing s cases otherwise with
  | zero => exact .outOfGas
  | succ gas ih =>
    have hskip : CleanRun (SwitchAccounts B code ns os s₀ start subject cases.reverse otherwise s) s
        (fun _ s' => SwitchAccounts B code ns os s₀ start subject cases.reverse otherwise s')
        (skipUntil (fun kind => !isSeparator kind) s) := by
      refine .mono (.pre (fun h => h.kept.start (fun _ => False) []) skipSeparators_accounts) ?_
      exact fun _ _ h hpiece => h.pass hpiece
    refine .bind hskip fun _ s₁ => .read rfl ?_
    have hbad : CleanRun (SwitchAccounts B code ns os s₀ start subject cases.reverse otherwise s₁) s₁
        (fun branches s' => SwitchAccounts B code ns os s₀ start subject branches.1 branches.2 s')
        ((advance >>= fun _ => report (.ofToken s₁.current) s₁.current.span >>= fun _ =>
          synchronize >>= fun _ => parseBranches exprGas block gas cases otherwise) s₁) :=
      .next (.fail (severity_ofToken _) _ fun s₂ => .bind (.synchronize s₂) fun _ _ _ _ =>
        (ih cases otherwise).leads)
    cases hkind : s₁.current.kind with
    | keyword word =>
      cases word with
      | caseBranch =>
        have hstart (h : SwitchAccounts B code ns os s₀ start subject cases.reverse otherwise s₁) :
            NodeAccounts B code [] [] s₁ (advance s₁).2 ∧
              SwitchAccounts B code ns os s₀ start subject cases.reverse otherwise s₁ :=
          ⟨Accounts.passWord (h.kept.start _ _) hkind, h⟩
        refine .next (.pre hstart (.bind (.frame (accounted (HeaderTracking.parseGuard _))) fun guard s₃ => ?_))
        refine .bind (.frame (hblock [] _ s₁ _ s₃)) fun body s₄ => .read rfl (.pre ?_ (ih _ _))
        rintro ⟨hpiece, h⟩
        rw [List.reverse_cons]
        refine h.addCase rfl (hpiece.sound.previous_le_here ?_) (hpiece.mono ?_ ?_)
        · exact Nat.lt_of_lt_of_le (Nat.zero_lt_of_lt h.start_lt) hpiece.le
        · intro n hn
          simpa [branchNodes, branchNodesOne] using .inr (.inr hn)
        · intro o ho
          simpa [branchOccurrences] using ho
      | otherwiseBranch =>
        have hstart (h : SwitchAccounts B code ns os s₀ start subject cases.reverse otherwise s₁) :
            NodeAccounts B code [] [] (advance s₁).2 (advance s₁).2 ∧
              SwitchAccounts B code ns os s₀ start subject cases.reverse otherwise s₁ :=
          ⟨(h.kept.passWord hkind).start _ _, h⟩
        refine .next (.pre hstart (.bind (.frame (.keeping (hblock [] [] _ _ _)
          fun h => hlies.reads _ _ h.sound)) fun body s₃ => .pre ?_ (ih _ _)))
        rintro ⟨⟨hpiece, hbody⟩, h⟩
        exact h.setOtherwise hkind (fun st hst => (hbody.span hst).lo_le) hpiece
      | endAny | endSwitch => exact .pure id
      | _ => exact hbad
    | eof => exact .pure id
    | _ => exact hbad

theorem parseSubject_accounts (hkind : s.current.kind = .keyword .switchBlock) :
    CleanRun (NodeAccounts B code ns os s₀ s) (advance s).2
      (fun subject s' => SwitchAccounts B code ns (os ++ optionalOccurrences subject) s₀ s.pos subject
        [] none s' ∧ s.current = code.token s.pos)
      (parseCondition gas .switchBlock s.current (advance s).2) := by
  have hstart (h : NodeAccounts B code ns os s₀ s) :
      Accounts B code [] (code.Dropped ns) [] (advance s).2 (advance s).2 ∧ NodeAccounts B code ns os s₀ s :=
    ⟨Accounts.start (Accounts.passWord h hkind) _ _, h⟩
  have hsubject : CleanRun (NodeAccounts B code ns os s₀ s) (advance s).2 _
      (parseCondition gas .switchBlock s.current (advance s).2) :=
    .keeping (.pre hstart (.frame (parseCondition_accounts .switchBlock s.current)))
      fun h => parseCondition_lies .switchBlock h.sound.current_valid h.sound.advance
  refine hsubject.mono fun subject s' h hafter => ?_
  exact ⟨.opened h hkind hafter.1.1 hafter.2, h.current_eq⟩

theorem parseSwitch_accounts (hblock : BlockAccounts B code block) (hlies : BlockLies B code block)
    (hkind : s.current.kind = .keyword .switchBlock) :
    CleanRun (NodeAccounts B code ns os s₀ s) s
      (fun st s' => NodeAccounts B code (ns ++ st.nodes) (os ++ st.occurrences) s₀ s')
      (parseSwitch gas block s) := by
  refine .next (.bind (parseSubject_accounts hkind) fun subject s₂ => ?_)
  refine .bind (.frame (parseBranches_accounts hblock hlies gas gas [] none)) fun branches s₃ => ?_
  refine .pre (fun h => And.intro h.1.close h.2) ?_
  refine .bind (.frame (closeBlock_accounts _ _)) fun stop s₄ => .pure ?_
  rintro ⟨⟨h, rfl⟩, hcurrent⟩
  rw [hcurrent]
  exact h

end Parser

end MatrixScript
