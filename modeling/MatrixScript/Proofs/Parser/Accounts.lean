import MatrixScript.Proofs.Parser.Clean
import MatrixScript.Proofs.Parser.Extent

/-! What becomes of the names in code that is parsed without errors.

A name is used in the tree, unless it is a field, a word of a command or a parameter of an anonymous
function. `Accounts` says so of all names between two states of the parser. The parser drops some names
that it has read: these are the places `D`. -/
namespace MatrixScript

namespace Code

theorem token_mem_all (code : Code) (k : Nat) : code.token k ∈ code.all := by
  unfold token all
  cases hget : code.tokens[k]? with
  | none => simp
  | some t => simp [List.mem_of_getElem? hget]

theorem getElem?_all {code : Code} {k : Nat} (h : k ≤ code.tokens.length) :
    code.all[k]? = some (code.token k) := by
  obtain rfl | hlt := Nat.eq_or_lt_of_le h
  · simp [all, token]
  · rw [all, List.getElem?_append_left hlt, token, List.getElem?_eq_getElem hlt]
    rfl

theorem LaidOut.token_stop_le {B : Position → Prop} {code : Code} {i j : Nat} (h : code.LaidOut B)
    (hij : i < j) (hj : j ≤ code.tokens.length) :
    (code.token i).span.stop ≤ (code.token j).span.start :=
  h.stop_le_start hij (getElem?_all (by omega)) (getElem?_all hj)

theorem LaidOut.token_start_le {B : Position → Prop} {code : Code} {i j : Nat} (h : code.LaidOut B)
    (hij : i ≤ j) (hj : j ≤ code.tokens.length) :
    (code.token i).span.start ≤ (code.token j).span.start :=
  h.start_le_start hij (getElem?_all (by omega)) (getElem?_all hj)

/-- A name right behind a period. -/
def IsField (code : Code) (place : Nat) : Prop :=
  ∃ before, place = before + 1 ∧ (code.token before).is .period = true

/-- Between the parameters of an anonymous function and its at sign there are only names, commas and signs
for parameters that are ignored. -/
structure InParamsOf (code : Code) (sign place : Nat) : Prop where
  atSign : (code.token sign).is .atSign = true
  openParen : (code.token (sign + 1)).is .openParen = true
  le : sign + 2 ≤ place
  between : ∀ k, sign + 2 ≤ k → k < place →
    (code.token k).isName = true ∨ Parser.isCommaOrNot (code.token k).kind = true

/-- A parameter of an anonymous function. Its at sign is not among the words of commands. -/
def InParams (code : Code) (words : List Nat) (place : Nat) : Prop :=
  ∃ sign, sign ∉ words ∧ code.InParamsOf sign place

/-- A token of the value behind a declared name and its equals sign. The parser takes it for a part of
that expression. -/
def InValueOf (code : Code) (v : Variable) (place : Nat) : Prop :=
  ∃ (name gas : Nat) (s : Parser.State), v = ⟨(code.token name).text, (code.token name).span⟩ ∧
    (code.token (name + 1)).is .equals = true ∧ s.code = code ∧ s.groups = [] ∧ s.pos = name + 2 ∧
    s.pos ≤ place ∧ place < (Parser.parseExpression gas 0 s).2.pos

/-- The token at a place belongs to none of these parts. -/
def OutsideOf (code : Code) (parts : List Span) (place : Nat) : Prop :=
  ∀ part ∈ parts, part.Apart (code.token place).span

/-- A token between two `otherwise` of a switch that has these parts left. -/
structure BetweenOtherwise (code : Code) (parts : List Span) (first last place : Nat) : Prop where
  first_lt : first < place
  lt_last : place < last
  first_kind : (code.token first).kind = .keyword .otherwiseBranch
  last_kind : (code.token last).kind = .keyword .otherwiseBranch
  outside : ∀ k ∈ [first, place, last], code.OutsideOf parts k

/-- What became of the name at a place. -/
inductive Accounted (code : Code) (D : Nat → Prop) (words : List Nat) (os : List Occurrence)
    (place : Nat) : Prop where
  | use (h : ⟨(code.token place).text, (code.token place).span, .use⟩ ∈ os)
  | field (h : code.IsField place)
  | word (h : place ∈ words)
  | param (h : code.InParams words place)
  | dropped (h : D place)

namespace Accounted

variable {code : Code} {D D' : Nat → Prop} {words words' : List Nat} {os os' : List Occurrence} {place : Nat}

theorem mono (h : code.Accounted D words os place) (hD : D place → D' place) (hos : os ⊆ os') :
    code.Accounted D' words os' place := by
  cases h with
  | use h => exact .use (hos h)
  | field h => exact .field h
  | word h => exact .word h
  | param h => exact .param h
  | dropped h => exact .dropped (hD h)

/-- Words of commands further behind make no difference. -/
theorem later (h : code.Accounted D words os place) (hwords : words ⊆ words')
    (hnew : ∀ w ∈ words', w ∈ words ∨ place < w) : code.Accounted D words' os place := by
  cases h with
  | use h => exact .use h
  | field h => exact .field h
  | word h => exact .word (hwords h)
  | dropped h => exact .dropped h
  | param h =>
    obtain ⟨sign, hsign, hparams⟩ := h
    refine .param ⟨sign, fun hmem => ?_, hparams⟩
    obtain hmem | hlt := hnew sign hmem
    · exact hsign hmem
    · have hle := hparams.le
      omega

end Accounted

end Code

/-- The spans of the parts of a switch. -/
def switchParts (subject : Option Expr) (cases : List (Branch Stmt)) (otherwise : Option (List Stmt)) :
    List Span :=
  subject.toList.map Expr.span ++ cases.map (·.span) ++ (otherwise.getD []).map Stmt.span

/-- The tree keeps neither the initial values of a declaration nor the statements behind an `otherwise`
that has another one behind it. -/
inductive Node.Drops (code : Code) (place : Nat) : Node → Prop where
  | initial {storage : Storage} {names : List Variable} {span : Span} {v : Variable} (hv : v ∈ names)
      (h : code.InValueOf v place) : Drops code place (.stmt (.declare storage names span))
  | replaced {subject : Option Expr} {cases : List (Branch Stmt)} {otherwise : Option (List Stmt)}
      {span : Span} {first last : Nat} (hfirst : span.Encloses (code.token first).span)
      (hlast : span.Encloses (code.token last).span)
      (h : code.BetweenOtherwise (switchParts subject cases otherwise) first last place) :
      Drops code place (.stmt (.switch subject cases otherwise span))

def Code.Dropped (code : Code) (ns : List Node) (place : Nat) : Prop :=
  ∃ n ∈ ns, n.Drops code place

theorem Code.Dropped.mono {code : Code} {ns ns' : List Node} {place : Nat} (h : code.Dropped ns place)
    (hns : ns ⊆ ns') : code.Dropped ns' place := by
  obtain ⟨n, hn, hdrops⟩ := h
  exact ⟨n, hns hn, hdrops⟩

/-- Only behind an equals sign or between two `otherwise` is a name dropped. -/
theorem Code.Dropped.cause {code : Code} {ns : List Node} {place : Nat} (h : code.Dropped ns place) :
    (∃ k, (code.token k).is .equals = true) ∨
      ∃ last, place < last ∧ (code.token last).kind = .keyword .otherwiseBranch := by
  obtain ⟨n, hn, ⟨hv, name, gas, s, -, hequals, -⟩ | ⟨-, -, hbetween⟩⟩ := h
  · exact .inl ⟨name + 1, hequals⟩
  · exact .inr ⟨_, hbetween.lt_last, hbetween.last_kind⟩

namespace Parser

variable {B : Position → Prop} {code : Code} {groups : List Group} {D D' : Nat → Prop}
  {os os' : List Occurrence} {s₀ s s' : State} {α β : Type}

/-- The parser has come from `s₀` to `s`, and all names between are accounted for. -/
structure Accounts (B : Position → Prop) (code : Code) (groups : List Group) (D : Nat → Prop)
    (os : List Occurrence) (s₀ s : State) : Prop where
  sound : s.Sound B code
  groups_eq : s.groups = groups
  le : s₀.pos ≤ s.pos
  words_lt : ∀ w ∈ s.words, w < s.pos
  commands : ∀ w ∈ s.words, code.HasWord w
  words_subset : s₀.words ⊆ s.words
  words_new : ∀ w ∈ s.words, w ∈ s₀.words ∨ s₀.pos ≤ w
  names : ∀ k, s₀.pos ≤ k → k < s.pos → (code.token k).isName = true →
    code.Accounted D s.words os k

namespace Accounts

theorem mono (h : Accounts B code groups D os s₀ s) (hD : ∀ k < s.pos, D k → D' k) (hos : os ⊆ os') :
    Accounts B code groups D' os' s₀ s :=
  { h with names := fun k hk hlt hname => (h.names k hk hlt hname).mono (hD k hlt) hos }

theorem uses (h : Accounts B code groups D os s₀ s) (hos : os ⊆ os') :
    Accounts B code groups D os' s₀ s :=
  h.mono (fun _ _ => id) hos

theorem usesBehind {more more' : List Occurrence} (h : Accounts B code groups D (os ++ more) s₀ s)
    (hmore : more ⊆ more') : Accounts B code groups D (os ++ more') s₀ s :=
  h.uses (List.append_subset.mpr
    ⟨List.subset_append_left _ _, List.subset_append_of_subset_right _ hmore⟩)

/-- From where the parser is now nothing was read yet. -/
theorem start (h : Accounts B code groups D os s₀ s) (D' : Nat → Prop) (os' : List Occurrence) :
    Accounts B code groups D' os' s s where
  sound := h.sound
  groups_eq := h.groups_eq
  le := Nat.le_refl _
  words_lt := h.words_lt
  commands := h.commands
  words_subset := List.Subset.refl _
  words_new _ hw := .inl hw
  names _ hk hlt := absurd hlt (Nat.not_lt.mpr hk)

theorem trans {groups' : List Group} {s₁ : State} (h : Accounts B code groups D os s₀ s₁)
    (h' : Accounts B code groups' D os s₁ s) : Accounts B code groups' D os s₀ s where
  sound := h'.sound
  groups_eq := h'.groups_eq
  le := Nat.le_trans h.le h'.le
  words_lt := h'.words_lt
  commands := h'.commands
  words_subset := List.Subset.trans h.words_subset h'.words_subset
  words_new w hw := by
    obtain hw | hle := h'.words_new w hw
    · exact h.words_new w hw
    · exact .inr (Nat.le_trans h.le hle)
  names k hk hlt hname := by
    by_cases hmid : k < s₁.pos
    · refine (h.names k hk hmid hname).later h'.words_subset fun w hw => ?_
      exact (h'.words_new w hw).imp_right fun hle => by omega
    · exact h'.names k (Nat.not_lt.mp hmid) hlt hname

section

variable (h : Accounts B code groups D os s₀ s)
include h

theorem ahead_eq (n : Nat) : s.ahead n = code.token (s.pos + n) := by
  rw [s.ahead_eq_token, h.sound.code_eq]

theorem current_eq : s.current = code.token s.pos := by
  rw [s.current_eq_ahead, h.ahead_eq, Nat.add_zero]

theorem pos_le : s.pos ≤ code.tokens.length :=
  h.sound.code_eq ▸ s.pos_le

theorem stop_le_here {k : Nat} (hk : k < s.pos) : (code.token k).span.stop ≤ s.here := by
  rw [State.here, h.current_eq]
  exact h.sound.laid.token_stop_le hk h.pos_le

theorem here_le_here (hs₀ : s₀.Sound B code) : s₀.here ≤ s.here :=
  h.sound.laid.start_le_start h.le hs₀.getElem?_current h.sound.getElem?_current

/-- One token more is read. -/
theorem step (hname : s.current.isName = true → code.Accounted D s.words os s.pos) :
    Accounts B code groups D os s₀ (advance s).2 := by
  by_cases hrest : s.rest = []
  · rwa [advance_eq_self hrest]
  have hsound := h.sound.advance
  rw [advance_eq hrest] at hsound ⊢
  refine ⟨hsound, h.groups_eq, Nat.le_succ_of_le h.le, fun w hw => Nat.lt_succ_of_lt (h.words_lt w hw),
    h.commands, h.words_subset, h.words_new, fun k hk hlt hisName => ?_⟩
  obtain rfl | hne := eq_or_ne k s.pos
  · exact hname (h.current_eq ▸ hisName)
  · exact h.names k hk (Nat.lt_of_le_of_ne (Nat.le_of_lt_succ hlt) hne) hisName

/-- A token that is not a name needs no account. -/
theorem pass (hname : s.current.isName = false) : Accounts B code groups D os s₀ (advance s).2 :=
  h.step fun htrue => absurd (hname.symm.trans htrue) Bool.false_ne_true

theorem passSign {sign : Sign} (hkind : s.current.kind = .sign sign) :
    Accounts B code groups D os s₀ (advance s).2 :=
  h.pass (by rw [Token.isName, hkind]; rfl)

theorem passWord {word : Keyword} (hkind : s.current.kind = .keyword word) :
    Accounts B code groups D os s₀ (advance s).2 :=
  h.pass (by rw [Token.isName, hkind]; rfl)

/-- A name that is used. -/
theorem name :
    Accounts B code groups D (os ++ [⟨s.current.text, s.current.span, .use⟩]) s₀ (advance s).2 := by
  refine (h.uses (List.subset_append_left _ _)).step fun _ => .use ?_
  rw [← h.current_eq]
  exact List.mem_append_right _ (List.mem_singleton_self _)

/-- A variable that is introduced where it stands. -/
theorem introduce :
    Accounts B code groups D (os ++ Variable.occurrences ⟨s.current.text, s.current.span⟩) s₀
      (advance s).2 :=
  h.name.uses (by simp [Variable.occurrences])

theorem report {problem : Problem} {span : Span} (hspan : span.Valid B)
    (hproblem : problem.isOpenString = false) :
    Accounts B code groups D os s₀ (Parser.report problem span s).2 :=
  ⟨h.sound.report hspan hproblem, h.groups_eq, h.le, h.words_lt, h.commands, h.words_subset, h.words_new,
    h.names⟩

theorem noteString (hkind : s.current.kind = .string)
    (hclosed : isClosedString s.current.text = true) :
    Accounts B code groups D os s₀ { s with strings := s.pos :: s.strings } :=
  ⟨h.sound.noteString hkind hclosed, h.groups_eq, h.le, h.words_lt, h.commands,
    h.words_subset, h.words_new, h.names⟩

/-- A word of a command. -/
theorem takeWord (hrest : s.rest ≠ []) (hword : code.HasWord s.pos) :
    Accounts B code groups D os s₀ (Parser.takeWord s).2 := by
  have hnoted : State.Sound B code { s with words := s.pos :: s.words } :=
    h.sound.of_same rfl rfl rfl
  have hsound := hnoted.advance
  change Accounts B code groups D os s₀ (advance { s with words := s.pos :: s.words }).2
  rw [advance_eq (s := { s with words := s.pos :: s.words }) hrest] at hsound ⊢
  refine ⟨hsound, h.groups_eq, Nat.le_succ_of_le h.le, ?_, ?_, ?_, ?_, fun k hk hlt hname => ?_⟩
  · exact List.forall_mem_cons.mpr ⟨Nat.lt_succ_self _, fun w hw => Nat.lt_succ_of_lt (h.words_lt w hw)⟩
  · exact List.forall_mem_cons.mpr ⟨hword, h.commands⟩
  · exact List.subset_cons_of_subset _ h.words_subset
  · exact List.forall_mem_cons.mpr ⟨.inr h.le, h.words_new⟩
  · obtain rfl | hne := eq_or_ne k s.pos
    · exact .word List.mem_cons_self
    · have hbefore : k < s.pos := Nat.lt_of_le_of_ne (Nat.le_of_lt_succ hlt) hne
      refine (h.names k hk hbefore hname).later (List.subset_cons_self _ _) ?_
      exact List.forall_mem_cons.mpr ⟨.inr hbefore, fun w hw => .inl hw⟩

/-- What was read may have been dropped. -/
theorem drop (hD : ∀ k, s₀.pos ≤ k → k < s.pos → (code.token k).isName = true → D' k)
    (os' : List Occurrence) : Accounts B code groups D' os' s₀ s :=
  { h with names := fun k hk hlt hname => .dropped (hD k hk hlt hname) }

end

end Accounts

/-- What the parser leaves behind, error or not, is also known. -/
theorem CleanRun.keeping {P : Prop} {Q Q' : α → State → Prop} {x : α × State}
    (h : CleanRun P s Q x) (hkeeps : P → Reaches False B code s Q' x) :
    CleanRun P s (fun a s' => Q a s' ∧ Q' a s') x :=
  ⟨h.1, fun hclean hP => ⟨h.2 hclean hP, (hkeeps hP).value⟩⟩

end Parser

end MatrixScript
