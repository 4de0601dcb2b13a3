import MatrixScript.Position
import Mathlib.Data.List.Induction
import Mathlib.Tactic.Common

/-! The line and column of an offset, counted from the whole text in front of it, and places that
move down when lines are put in front of a text. -/
namespace MatrixScript

namespace Position

/-- The place of an offset: the line is the number of newlines before it, the column its distance
from the last of them. -/
def ofOffset (text : List Char) (offset : Nat) : Position :=
  let before := text.take offset
  ⟨before.count '\n', (before.reverse.takeWhile (· != '\n')).length⟩

theorem advance_start (cs : List Char) :
    start.advance cs = ⟨cs.count '\n', (cs.reverse.takeWhile (· != '\n')).length⟩ := by
  induction cs using List.reverseRecOn with
  | nil => rfl
  | append_singleton cs c ih =>
    rw [advance_append, ih]
    by_cases hc : c = '\n' <;> simp [next, hc]

/-- Reading from the start counts the same lines and columns as the text itself. -/
theorem ofOffset_append (before after : List Char) :
    ofOffset (before ++ after) before.length = start.advance before := by
  rw [advance_start, ofOffset, List.take_left]

/-- The place of an offset, from the place of one before it. -/
theorem ofOffset_eq_advance (text : List Char) {a b : Nat} (hab : a ≤ b) (hb : b ≤ text.length) :
    ofOffset text b = (ofOffset text a).advance (text.extract a b) := by
  have hplace {n : Nat} (hn : n ≤ text.length) : ofOffset text n = start.advance (text.take n) := by
    rw [← ofOffset_append _ (text.drop n), List.take_append_drop, List.length_take,
      Nat.min_eq_left hn]
  have hsplit : text.take b = text.take a ++ text.extract a b := by
    rw [List.extract_eq_take_drop, ← List.take_add, Nat.add_sub_cancel' hab]
  rw [hplace hb, hplace (Nat.le_trans hab hb), hsplit, advance_append]

/-- Without a newline the place moves to the right. -/
theorem advance_of_not_mem (p : Position) {cs : List Char} (h : '\n' ∉ cs) :
    p.advance cs = p.right cs.length := by
  induction cs generalizing p with
  | nil => simp [right]
  | cons c cs ih =>
    rw [List.mem_cons, not_or] at h
    rw [advance_cons, ih _ h.2, next, if_neg (Ne.symm h.1)]
    simp only [right, List.length_cons, mk.injEq, true_and]
    omega

theorem right_eq_self_iff (p : Position) (n : Nat) : p.right n = p ↔ n = 0 := by
  cases p
  simp only [right, mk.injEq, true_and]
  omega

theorem line_advance (p : Position) (cs : List Char) :
    (p.advance cs).line = p.line + cs.count '\n' := by
  induction cs generalizing p with
  | nil => simp
  | cons c cs ih =>
    rw [advance_cons, ih]
    by_cases hc : c = '\n'
    · simp only [next, hc, if_true, List.count_cons_self]
      omega
    · simp [next, hc]

/-- A place moves on with every character. -/
theorem advance_eq_self_iff (p : Position) (cs : List Char) : p.advance cs = p ↔ cs = [] := by
  constructor
  · intro h
    have hcount : cs.count '\n' = 0 := by
      have hline := congrArg line h
      rw [line_advance] at hline
      omega
    rw [advance_of_not_mem p (List.count_eq_zero.mp hcount), right_eq_self_iff] at h
    exact List.eq_nil_of_length_eq_zero h
  · rintro rfl
    rfl

/-- Different offsets have different places. -/
theorem ofOffset_inj (text : List Char) {a b : Nat} (ha : a ≤ text.length) (hb : b ≤ text.length)
    (h : ofOffset text a = ofOffset text b) : a = b := by
  wlog hab : a ≤ b generalizing a b
  · exact (this hb ha h.symm (Nat.le_of_not_le hab)).symm
  rw [ofOffset_eq_advance text hab hb, eq_comm, advance_eq_self_iff] at h
  have hlength := congrArg List.length h
  simp only [List.extract_eq_take_drop, List.length_take, List.length_drop, List.length_nil] at hlength
  omega

theorem le_iff {p q : Position} :
    p ≤ q ↔ p.line < q.line ∨ (p.line = q.line ∧ p.column ≤ q.column) :=
  Iff.rfl

theorem le_trans {p q r : Position} (h : p ≤ q) (h' : q ≤ r) : p ≤ r := by
  rw [le_iff] at h h' ⊢
  omega

instance : @Trans Position Position Position LE.le LE.le LE.le := ⟨le_trans⟩

theorem le_advance (p : Position) (cs : List Char) : p ≤ p.advance cs := by
  by_cases hline : '\n' ∈ cs
  · have hcount := List.count_pos_iff.mpr hline
    refine le_iff.mpr (.inl ?_)
    rw [line_advance]
    omega
  · rw [advance_of_not_mem p hline]
    refine le_iff.mpr (.inr ⟨rfl, ?_⟩)
    simp only [right]
    omega

theorem le_antisymm {p q : Position} (h : p ≤ q) (h' : q ≤ p) : p = q := by
  cases p
  cases q
  rw [le_iff] at h h'
  simp only [mk.injEq] at h h' ⊢
  omega

theorem le_refl (p : Position) : p ≤ p :=
  le_iff.mpr (.inr ⟨rfl, Int.le_refl _⟩)

theorem le_total (p q : Position) : p ≤ q ∨ q ≤ p := by
  rw [le_iff, le_iff]
  omega

theorem le_right (p : Position) (n : Nat) : p ≤ p.right n := by
  refine le_iff.mpr (.inr ⟨rfl, ?_⟩)
  simp only [right]
  omega

theorem right_right (p : Position) (n m : Nat) : (p.right n).right m = p.right (n + m) := by
  simp only [right, mk.injEq, true_and]
  omega

theorem right_le_right {p q : Position} (h : p ≤ q) (n : Nat) : p.right n ≤ q.right n := by
  rw [le_iff] at h ⊢
  simp only [right]
  omega

theorem min_eq_left {p q : Position} (h : p ≤ q) : p.min q = p := by
  unfold min
  split_ifs with hle
  · exact le_antisymm hle h
  · rfl

theorem max_eq_right {p q : Position} (h : p ≤ q) : p.max q = q :=
  if_pos h

/-- The same column `n` lines further down. -/
def down (n : Nat) (p : Position) : Position := ⟨p.line + n, p.column⟩

@[simp] theorem down_zero (p : Position) : p.down 0 = p := by
  simp [down]

@[simp] theorem down_inj (n : Nat) (p q : Position) : p.down n = q.down n ↔ p = q := by
  cases p
  cases q
  simp [down]

@[simp] theorem down_le_down (n : Nat) (p q : Position) : p.down n ≤ q.down n ↔ p ≤ q := by
  simp only [down, LE.le, Int.add_left_inj, Int.add_lt_add_iff_right]

theorem down_next (n : Nat) (p : Position) (c : Char) : (p.down n).next c = (p.next c).down n := by
  unfold next
  split_ifs
  · simp only [down, mk.injEq, and_true]
    omega
  · rfl

theorem down_advance (n : Nat) (p : Position) (cs : List Char) :
    (p.down n).advance cs = (p.advance cs).down n := by
  induction cs generalizing p with
  | nil => rfl
  | cons c cs ih => rw [advance_cons, advance_cons, down_next, ih]

theorem down_min (n : Nat) (p q : Position) : (p.down n).min (q.down n) = (p.min q).down n := by
  unfold min
  simp only [down_le_down]
  split_ifs <;> rfl

theorem down_max (n : Nat) (p q : Position) : (p.down n).max (q.down n) = (p.max q).down n := by
  unfold max
  simp only [down_le_down]
  split_ifs <;> rfl

end Position

namespace Span

theorem merge_of_le {s t : Span} (hstart : s.start ≤ t.start) (hstop : s.stop ≤ t.stop) :
    s.merge t = ⟨s.start, t.stop⟩ := by
  rw [merge, Position.min_eq_left hstart, Position.max_eq_right hstop]

/-- Two spans of which the second starts where the first ends. -/
theorem merge_of_stop_eq {s t : Span} (hs : s.start ≤ s.stop) (ht : t.start ≤ t.stop)
    (h : s.stop = t.start) : s.merge t = ⟨s.start, t.stop⟩ :=
  merge_of_le (h ▸ hs) (h ▸ ht)

def down (n : Nat) (s : Span) : Span := ⟨s.start.down n, s.stop.down n⟩

@[simp] theorem down_zero (s : Span) : s.down 0 = s := by
  simp [down]

@[simp] theorem start_down (n : Nat) (s : Span) : (s.down n).start = s.start.down n := rfl

@[simp] theorem stop_down (n : Nat) (s : Span) : (s.down n).stop = s.stop.down n := rfl

@[simp] theorem down_merge (n : Nat) (s t : Span) :
    (s.down n).merge (t.down n) = (s.merge t).down n := by
  simp only [merge, down, Position.down_min, Position.down_max]

end Span

end MatrixScript
