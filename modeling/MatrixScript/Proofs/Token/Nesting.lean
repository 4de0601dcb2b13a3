import MatrixScript.Parser.Problem
import Mathlib.Tactic.Common

/-! Proper nesting of brackets and blocks, as a scan of the tokens with a stack. -/
namespace MatrixScript

/-- What can be open: a bracket, or a block with the keyword that opened it. `split` says that the last
part of the block has begun, behind `else` or `catch`. -/
inductive Enclosure where
  | bracket (group : Group)
  | block (opener : Keyword) (split : Bool)
deriving DecidableEq, Repr

def Keyword.opensBlock : Keyword → Bool
  | .function | .ifBlock | .forLoop | .whileLoop | .switchBlock | .tryBlock | .doBlock => true
  | _ => false

namespace Enclosure

/-- Whether a block is split once the keyword has begun its next part, if it may do so there. -/
def nextPart : Keyword → Bool → Keyword → Option Bool
  | .ifBlock, false, .elseifBranch => some false
  | .ifBlock, false, .elseBranch => some true
  | .switchBlock, split, .caseBranch => some split
  | .switchBlock, split, .otherwiseBranch => some split
  | .tryBlock, false, .catchBranch => some true
  | _, _, _ => none

/-- Inside a bracket `end` is an index. -/
def stepWord (stack : List Enclosure) (word : Keyword) : Option (List Enclosure) :=
  if word.opensBlock then some (.block word false :: stack)
  else if !word.closesBlock then some stack
  else match stack with
    | [] => none
    | .bracket group :: rest => if word = .endAny then some (.bracket group :: rest) else none
    | .block opener split :: rest =>
      if word ∈ opener.terminators then some rest
      else (nextPart opener split word).map (.block opener · :: rest)

def stepSign (stack : List Enclosure) (sign : Sign) : Option (List Enclosure) :=
  match Group.ofOpening? sign, Group.ofClosing? sign with
  | some group, _ => some (.bracket group :: stack)
  | none, none => some stack
  | none, some group => if stack.head? = some (.bracket group) then some stack.tail else none

/-- What is open behind a token of this class, if it may stand there. -/
def step (stack : List Enclosure) : Token.Kind → Option (List Enclosure)
  | .sign sign => stepSign stack sign
  | .keyword word => stepWord stack word
  | .illegal => none
  | _ => some stack

/-- What is open behind the tokens, if they can follow each other. -/
def scan (stack : List Enclosure) (tokens : List Token) : Option (List Enclosure) :=
  tokens.foldlM (fun stack t => step stack t.kind) stack

theorem scan_append (stack : List Enclosure) (ts us : List Token) :
    scan stack (ts ++ us) = (scan stack ts).bind (scan · us) :=
  List.foldlM_append

theorem scan_singleton (stack : List Enclosure) (t : Token) : scan stack [t] = step stack t.kind := by
  simp [scan]

theorem scan_cons (stack : List Enclosure) (t : Token) (ts : List Token) :
    scan stack (t :: ts) = (step stack t.kind).bind (scan · ts) :=
  List.foldlM_cons ..

theorem not_illegal_of_scan {stack stack' : List Enclosure} {ts : List Token}
    (h : scan stack ts = some stack') : ∀ t ∈ ts, t.kind ≠ .illegal := by
  induction ts generalizing stack with
  | nil => exact List.forall_mem_nil _
  | cons t ts ih =>
    rw [scan_cons] at h
    obtain ⟨next, hnext, hscan⟩ := Option.bind_eq_some_iff.mp h
    refine List.forall_mem_cons.mpr ⟨fun hkind => ?_, ih hscan⟩
    rw [hkind] at hnext
    contradiction

end Enclosure

/-- Tokens that may stand anywhere and leave open what is open. -/
def Token.Kind.isNeutral : Token.Kind → Bool
  | .sign s => (Group.ofOpening? s).isNone && (Group.ofClosing? s).isNone
  | .keyword word => !word.opensBlock && !word.closesBlock
  | .eof | .illegal => false
  | _ => true

theorem Enclosure.step_of_isNeutral {kind : Token.Kind} (h : kind.isNeutral = true)
    (stack : List Enclosure) : step stack kind = some stack := by
  cases kind with
  | sign sign =>
    rw [Token.Kind.isNeutral, Bool.and_eq_true, Option.isNone_iff_eq_none,
      Option.isNone_iff_eq_none] at h
    rw [step, stepSign, h.1, h.2]
  | keyword word =>
    rw [Token.Kind.isNeutral, Bool.and_eq_true, Bool.not_eq_true', Bool.not_eq_true'] at h
    simp [step, stepWord, h.1, h.2]
  | eof | illegal => contradiction
  | _ => rfl

theorem Token.isNeutral_of_isName {t : Token} (h : t.isName = true) : t.kind.isNeutral = true := by
  unfold isName at h
  cases hkind : t.kind with
  | identifier | native => rfl
  | _ =>
    rw [hkind] at h
    contradiction

theorem Group.ofOpening?_closing (group : Group) : ofOpening? group.closing = none := by
  cases group <;> rfl

theorem Group.ofClosing?_closing (group : Group) : ofClosing? group.closing = some group := by
  cases group <;> rfl

/-- The tokens without those at the places `words`, where `start` is the place of the first one. -/
def keptTokens (words : List Nat) (start : Nat) (tokens : List Token) : List Token :=
  ((tokens.zipIdx start).filter fun p => p.2 ∉ words).map Prod.fst

theorem keptTokens_append (words : List Nat) (start : Nat) (ts us : List Token) :
    keptTokens words start (ts ++ us) =
      keptTokens words start ts ++ keptTokens words (start + ts.length) us := by
  unfold keptTokens
  rw [List.zipIdx_append, List.filter_append, List.map_append]

theorem keptTokens_congr {words words' : List Nat} {start : Nat} {ts : List Token}
    (h : ∀ n, start ≤ n → n < start + ts.length → (n ∈ words ↔ n ∈ words')) :
    keptTokens words start ts = keptTokens words' start ts := by
  unfold keptTokens
  congr 1
  refine List.filter_congr fun p hp => ?_
  have hle := List.le_snd_of_mem_zipIdx hp
  have hlt := List.snd_lt_add_of_mem_zipIdx hp
  rw [decide_not, decide_not, decide_eq_decide.mpr (h p.2 hle (by omega))]

theorem keptTokens_of_lt {words : List Nat} {start : Nat} (h : ∀ w ∈ words, w < start)
    (ts : List Token) : keptTokens words start ts = ts := by
  have hnone : keptTokens words start ts = keptTokens [] start ts :=
    keptTokens_congr fun n hle _ => iff_of_false (fun hmem => absurd (h n hmem) (by omega)) (by simp)
  rw [hnone, keptTokens, List.filter_eq_self.mpr (by simp), List.zipIdx_map_fst]

end MatrixScript
