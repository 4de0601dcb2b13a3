import MatrixScript.Document.Word
import MatrixScript.Text.Field
import MatrixScript.Proofs.Token.Piece

/-! The name under a cursor is the longest path that ends with the run of characters at the cursor.

A cursor stands between two characters of a line, in a run of the characters of words, which may be empty. The
answer does not depend on where in the run it stands. -/
namespace MatrixScript

variable {text : String} {line column : Int} {head run tail : List Char}

namespace Word

/-- A run of the characters of words, with no other such character next to it. -/
structure IsRun (head run tail : List Char) : Prop where
  chars : ∀ c ∈ run, Text.isWordChar c = true
  before : ∀ c ∈ head.getLast?, Text.isWordChar c = false
  behind : ∀ c ∈ tail.head?, Text.isWordChar c = false

/-- A segment of a path: characters of words, of which the first is not a digit. -/
def IsSegment (segment : List Char) : Prop :=
  (∀ c ∈ segment, Text.isWordChar c = true) ∧ ∃ first ∈ segment.head?, Text.isDigit first = false

theorem IsSegment.point_not_mem {segment : List Char} (h : IsSegment segment) : '.' ∉ segment :=
  fun hmem => absurd (h.1 '.' hmem) (by decide)

theorem takeWhile_run (hrun : ∀ c ∈ run, Text.isWordChar c = true)
    (htail : ∀ c ∈ tail.head?, Text.isWordChar c = false) :
    (run ++ tail).takeWhile Text.isWordChar = run := by
  have hspan := Lexeme.span_append hrun htail
  rw [List.span_eq_takeWhile_dropWhile] at hspan
  exact (Prod.mk.inj hspan).1

/-- The characters are cut behind the first run. -/
theorem exists_run_append (cs : List Char) :
    ∃ run tail, cs = run ++ tail ∧ (∀ c ∈ run, Text.isWordChar c = true) ∧
      ∀ c ∈ tail.head?, Text.isWordChar c = false := by
  refine ⟨cs.takeWhile Text.isWordChar, cs.dropWhile Text.isWordChar, ?_, ?_, ?_⟩
  · exact List.takeWhile_append_dropWhile.symm
  · exact List.all_eq_true.mp List.all_takeWhile
  · intro c hc
    have hnot := List.head?_dropWhile_not Text.isWordChar cs
    rw [Option.mem_def.mp hc] at hnot
    simpa using hnot

theorem exists_run (before after : List Char) :
    ∃ head left right tail, before = head ++ left ∧ after = right ++ tail ∧ IsRun head (left ++ right) tail := by
  obtain ⟨left, head, hbefore, hleft, hhead⟩ := exists_run_append before.reverse
  obtain ⟨right, tail, hafter, hright, htail⟩ := exists_run_append after
  refine ⟨head.reverse, left.reverse, right, tail, ?_, hafter, ?_, ?_, htail⟩
  · rw [← List.reverse_append, ← hbefore, List.reverse_reverse]
  · intro c hc
    rcases List.mem_append.mp hc with hc | hc
    · exact hleft c (List.mem_reverse.mp hc)
    · exact hright c hc
  · rwa [List.getLast?_reverse]

/-- What stands before a name in its dotted path ends with a point. -/
theorem extendLeft_cases (n : Nat) (before : List Char) :
    extendLeft n before = [] ∨ ∃ path, extendLeft n before = '.' :: path := by
  cases n with
  | zero => exact .inl rfl
  | succ n =>
    unfold extendLeft
    split
    · dsimp only
      split
      · exact .inl rfl
      · split_ifs
        · exact .inl rfl
        · exact .inr ⟨_, rfl⟩
    · exact .inl rfl

theorem getLast?_fields_extendLeft (hpoint : '.' ∉ run) (n : Nat) (before : List Char) :
    (Text.fields '.' ((extendLeft n before).reverse ++ run)).getLast? = some run := by
  rcases extendLeft_cases n before with hpath | ⟨path, hpath⟩
  · rw [hpath, List.reverse_nil, List.nil_append, Text.fields_of_not_mem hpoint]
    rfl
  · rw [hpath, List.reverse_cons, List.append_assoc, List.singleton_append, Text.fields_append,
      Text.fields_of_not_mem hpoint, List.getLast?_concat]

/-- The path before a segment is made of segments, stands apart from the characters before it and cannot be
extended by a further segment. All is written backwards here. -/
structure LongestPath (before path : List Char) (rest : List Char) : Prop where
  before_eq : before = path ++ rest
  apart : ∀ c ∈ rest.head?, Text.isWordChar c = false
  segments : ∀ last, IsSegment last → ∀ segment ∈ Text.fields '.' (path.reverse ++ last), IsSegment segment
  longest : ∀ segment more, rest = '.' :: (segment ++ more) → IsSegment segment.reverse →
    ∃ c ∈ more.head?, Text.isWordChar c = true

theorem LongestPath.nothing {before : List Char} (hbefore : ∀ c ∈ before.head?, Text.isWordChar c = false)
    (hlongest : ∀ segment more, before = '.' :: (segment ++ more) → IsSegment segment.reverse →
      ∃ c ∈ more.head?, Text.isWordChar c = true) : LongestPath before [] before where
  before_eq := rfl
  apart := hbefore
  segments last hlast segment hsegment := by
    rw [List.reverse_nil, List.nil_append, Text.fields_of_not_mem hlast.point_not_mem,
      List.mem_singleton] at hsegment
    exact hsegment ▸ hlast
  longest := hlongest

/-- Where the next run is not a segment, no path stands before. -/
theorem LongestPath.stop (hrun : ∀ c ∈ run, Text.isWordChar c = true)
    (htail : ∀ c ∈ tail.head?, Text.isWordChar c = false) (hnot : ¬IsSegment run.reverse) :
    LongestPath ('.' :: (run ++ tail)) [] ('.' :: (run ++ tail)) := by
  have hpoint : ∀ c ∈ ('.' :: (run ++ tail)).head?, Text.isWordChar c = false := by
    simp [show Text.isWordChar '.' = false by decide]
  refine .nothing hpoint fun segment more heq hsegment => ?_
  by_contra hmore
  have hmore : ∀ c ∈ more.head?, Text.isWordChar c = false := by simpa using hmore
  have hchars : ∀ c ∈ segment, Text.isWordChar c = true := fun c hc =>
    hsegment.1 c (List.mem_reverse.mpr hc)
  have hsame : run = segment := by
    rw [← takeWhile_run hrun htail, (List.cons.inj heq).2, takeWhile_run hchars hmore]
  exact hnot (hsame ▸ hsegment)

theorem LongestPath.extend {path rest : List Char} (hrun : IsSegment run.reverse)
    (h : LongestPath tail path rest) : LongestPath ('.' :: (run ++ tail)) ('.' :: run ++ path) rest where
  before_eq := by simp [h.before_eq]
  apart := h.apart
  segments last hlast segment hsegment := by
    have hpath : ('.' :: run ++ path).reverse ++ last = path.reverse ++ run.reverse ++ '.' :: last := by simp
    rw [hpath, Text.fields_append, Text.fields_of_not_mem hlast.point_not_mem, List.mem_append,
      List.mem_singleton] at hsegment
    rcases hsegment with hsegment | rfl
    · exact h.segments run.reverse hrun segment hsegment
    · exact hlast
  longest := h.longest

theorem extendLeft_longest {n : Nat} {before : List Char} (hn : before.length ≤ n)
    (hbefore : ∀ c ∈ before.head?, Text.isWordChar c = false) :
    ∃ rest, LongestPath before (extendLeft n before) rest := by
  induction n generalizing before with
  | zero =>
    rw [Nat.le_zero, List.length_eq_zero_iff] at hn
    subst hn
    exact ⟨[], .nothing nofun nofun⟩
  | succ n ih =>
    unfold extendLeft
    split
    · rename_i rest
      dsimp only
      obtain ⟨run, tail, rfl, hrun, htail⟩ := exists_run_append rest
      rw [takeWhile_run hrun htail, List.drop_left]
      split
      · rename_i hlast
        apply Exists.intro
        apply LongestPath.stop hrun htail
        rintro ⟨-, first, hfirst, -⟩
        rw [List.head?_reverse, hlast] at hfirst
        contradiction
      · rename_i first hfirst
        have hhead : first ∈ run.reverse.head? := by rwa [List.head?_reverse]
        split_ifs with hdigit
        · apply Exists.intro
          apply LongestPath.stop hrun htail
          rintro ⟨-, first', hfirst', hnot⟩
          rw [Option.mem_unique hfirst' hhead, hdigit] at hnot
          contradiction
        · have hlength : tail.length ≤ n := by
            simp only [List.length_cons, List.length_append] at hn
            omega
          obtain ⟨rest, hrest⟩ := ih hlength htail
          have hsegment : IsSegment run.reverse :=
            ⟨fun c hc => hrun c (List.mem_reverse.mp hc), first, hhead, by simpa using hdigit⟩
          exact ⟨rest, hrest.extend hsegment⟩
    · rename_i hpoint
      refine ⟨before, .nothing hbefore ?_⟩
      exact fun segment more heq => absurd heq (hpoint _)

/-- The name does not depend on where in a run the cursor stands. -/
theorem inLine?_run (h : IsRun head run tail) (line : Nat) {k : Nat} (hk : k ≤ run.length) :
    inLine? (head ++ (run ++ tail)) line (head.length + k) =
      if run.head?.all Text.isDigit then none
      else
        let path := extendLeft (head ++ (run ++ tail)).length head.reverse
        some ⟨String.ofList (path.reverse ++ run),
          .ofNats line (head.length - path.length) line (head.length + run.length)⟩ := by
  have hbefore : ((head ++ (run ++ tail)).take (head.length + k)).reverse =
      (run.take k).reverse ++ head.reverse := by
    rw [List.take_length_add_append, List.take_append_of_le_length hk, List.reverse_append]
  have hafter : (head ++ (run ++ tail)).drop (head.length + k) = run.drop k ++ tail := by
    rw [List.drop_length_add_append, List.drop_append_of_le_length hk]
  have hleft : ((run.take k).reverse ++ head.reverse).takeWhile Text.isWordChar = (run.take k).reverse :=
    takeWhile_run (fun c hc => h.chars c (List.mem_of_mem_take (List.mem_reverse.mp hc)))
      (by simpa [List.head?_reverse] using h.before)
  have hright : (run.drop k ++ tail).takeWhile Text.isWordChar = run.drop k :=
    takeWhile_run (fun c hc => h.chars c (List.mem_of_mem_drop hc)) h.behind
  have hwhole : (run.take k).reverse.reverse ++ run.drop k = run := by
    rw [List.reverse_reverse, List.take_append_drop]
  have hstart : head.length + k - (run.take k).reverse.length = head.length := by
    rw [List.length_reverse, List.length_take, Nat.min_eq_left hk, Nat.add_sub_cancel]
  have hstop : head.length + k + (run.drop k).length = head.length + run.length := by
    rw [List.length_drop]
    omega
  unfold inLine?
  simp only [hbefore, hafter, hleft, hright, hwhole, hstart, hstop, List.drop_left]
  cases run with
  | nil => rfl
  | cons first run => rfl

/-- A cursor, given by line and column, stands between the characters `before` and `after` of its line. -/
structure Stands (text : String) (line column : Int) (before after : List Char) : Prop where
  nonneg : 0 ≤ line
  line_eq : (Text.lines text.toList)[line.toNat]? = some (before ++ after)
  column_eq : column = before.length

/-- Outside of the lines there is no name. -/
theorem exists_stands {w : Word} (h : at? text line column = some w) :
    ∃ before after, Stands text line column before after := by
  unfold at? at h
  split_ifs at h with hnegative
  simp only [Bool.or_eq_true, decide_eq_true_eq, not_or, Int.not_lt] at hnegative
  obtain ⟨chars, hchars, hinside⟩ := Option.bind_eq_some_iff.mp h
  split_ifs at hinside with hlength
  refine ⟨chars.take column.toNat, chars.drop column.toNat, hnegative.1, ?_, ?_⟩
  · rw [List.take_append_drop, hchars]
  · rw [List.length_take, Nat.min_eq_left (Nat.le_of_not_lt hlength), Int.toNat_of_nonneg hnegative.2]

theorem at?_run (hnonneg : 0 ≤ line)
    (hline : (Text.lines text.toList)[line.toNat]? = some (head ++ (run ++ tail)))
    (hrun : IsRun head run tail) (hlow : head.length ≤ column)
    (hhigh : column ≤ head.length + run.length) :
    at? text line column = if run.head?.all Text.isDigit then none
      else
        let path := extendLeft (head ++ (run ++ tail)).length head.reverse
        some ⟨String.ofList (path.reverse ++ run),
          .ofNats line.toNat (head.length - path.length) line.toNat (head.length + run.length)⟩ := by
  obtain ⟨k, rfl⟩ := Int.le.dest hlow
  have hcolumn : ((head.length : Int) + k).toNat = head.length + k := by omega
  have hinside : ¬(line < 0 || (head.length : Int) + k < 0) = true := by
    simp only [Bool.or_eq_true, decide_eq_true_eq]
    omega
  have hlength : ¬(head ++ (run ++ tail)).length < head.length + k := by
    simp only [List.length_append]
    omega
  rw [at?, if_neg hinside, hline, hcolumn]
  exact (if_neg hlength).trans (inLine?_run hrun line.toNat (by omega))

/-- Every cursor in a segment finds the longest path up to the segment. -/
theorem exists_longestPath (hnonneg : 0 ≤ line)
    (hline : (Text.lines text.toList)[line.toNat]? = some (head ++ (run ++ tail)))
    (hrun : IsRun head run tail) (hsegment : IsSegment run) :
    ∃ path rest, LongestPath head.reverse path rest ∧
      (Text.fields '.' (path.reverse ++ run)).getLast? = some run ∧
      ∀ column : Int, head.length ≤ column → column ≤ head.length + run.length →
        at? text line column = some ⟨String.ofList (path.reverse ++ run),
          ⟨⟨line, rest.length⟩, ⟨line, head.length + run.length⟩⟩⟩ := by
  have hlength : head.reverse.length ≤ (head ++ (run ++ tail)).length := by simp
  obtain ⟨rest, hpath⟩ := extendLeft_longest hlength (by simpa using hrun.before)
  refine ⟨_, rest, hpath, getLast?_fields_extendLeft hsegment.point_not_mem _ _, ?_⟩
  intro column hlow hhigh
  obtain ⟨-, first, hfirst, hdigit⟩ := hsegment
  have hnot : ¬run.head?.all Text.isDigit = true := by simp [Option.mem_def.mp hfirst, hdigit]
  have hrest := congrArg List.length hpath.before_eq
  rw [List.length_reverse, List.length_append] at hrest
  rw [at?_run hnonneg hline hrun hlow hhigh, if_neg hnot]
  dsimp only [Span.ofNats]
  rw [Int.toNat_of_nonneg hnonneg, hrest, Nat.add_sub_cancel_left]
  rfl

/-- The cursor stands in a run. -/
theorem Stands.in_run {left right : List Char}
    (h : Stands text line column (head ++ left) (right ++ tail)) :
    (Text.lines text.toList)[line.toNat]? = some (head ++ (left ++ right ++ tail)) ∧
      head.length ≤ column ∧ column ≤ head.length + (left ++ right).length := by
  have hcolumn := h.column_eq
  simp only [List.length_append] at hcolumn ⊢
  refine ⟨?_, by omega, by omega⟩
  rw [h.line_eq]
  simp only [List.append_assoc]

theorem Stands.at?_eq_none_iff {left right : List Char}
    (h : Stands text line column (head ++ left) (right ++ tail))
    (hrun : IsRun head (left ++ right) tail) :
    at? text line column = none ↔ (left ++ right).head?.all Text.isDigit = true := by
  obtain ⟨hline, hlow, hhigh⟩ := h.in_run
  rw [at?_run h.nonneg hline hrun hlow hhigh, ite_eq_left_iff]
  simp

theorem isSegment_iff (hchars : ∀ c ∈ run, Text.isWordChar c = true) :
    IsSegment run ↔ run.head?.all Text.isDigit = false := by
  cases run with
  | nil => simp [IsSegment]
  | cons first run => simpa [IsSegment] using fun _ => List.forall_mem_cons.mp hchars

/-- The name at a cursor covers its span. It is a path of segments that cannot be extended, and each cursor
in its last segment finds it. There is no name where the cursor stands outside of the lines, touches no
character of a word, or stands in a run that starts with a digit. -/
theorem at?_longest_path (text : String) (line column : Int) :
    (∀ w, at? text line column = some w →
      ∃ before path after, 0 ≤ line ∧
        (Text.lines text.toList)[line.toNat]? = some (before ++ path ++ after) ∧
        w = ⟨String.ofList path, ⟨⟨line, before.length⟩, ⟨line, before.length + path.length⟩⟩⟩ ∧
        w.span.start.column ≤ column ∧ column ≤ w.span.stop.column ∧
        (∀ segment ∈ Text.fields '.' path, IsSegment segment) ∧
        (∀ c ∈ before.getLast?, Text.isWordChar c = false) ∧
        (∀ c ∈ after.head?, Text.isWordChar c = false) ∧
        (∀ front segment, before = front ++ segment ++ ['.'] → IsSegment segment →
          ∃ c ∈ front.getLast?, Text.isWordChar c = true) ∧
        ∃ segment ∈ (Text.fields '.' path).getLast?, w.span.stop.column - segment.length ≤ column ∧
          ∀ other : Int, w.span.stop.column - segment.length ≤ other → other ≤ w.span.stop.column →
            at? text line other = some w) ∧
    (at? text line column = none ↔ (¬∃ before after, Stands text line column before after) ∨
      ∃ before after, Stands text line column before after ∧
        ((∀ c ∈ before.getLast?, Text.isWordChar c = false) ∧
            (∀ c ∈ after.head?, Text.isWordChar c = false) ∨
          ∃ head left right tail, before = head ++ left ∧ after = right ++ tail ∧
            IsRun head (left ++ right) tail ∧ ∃ first ∈ (left ++ right).head?, Text.isDigit first = true)) := by
  constructor
  · intro w hw
    obtain ⟨before, after, hstands⟩ := exists_stands hw
    obtain ⟨head, left, right, tail, rfl, rfl, hrun⟩ := exists_run before after
    have hsegment : IsSegment (left ++ right) := by
      rw [isSegment_iff hrun.chars, ← Bool.not_eq_true, ← hstands.at?_eq_none_iff hrun, hw]
      exact Option.some_ne_none w
    obtain ⟨hline, hlow, hhigh⟩ := hstands.in_run
    generalize left ++ right = run at hrun hline hhigh hsegment
    obtain ⟨path, rest, hpath, hlast, hfound⟩ := exists_longestPath hstands.nonneg hline hrun hsegment
    have hhead : head = rest.reverse ++ path.reverse := by
      rw [← List.reverse_append, ← hpath.before_eq, List.reverse_reverse]
    have hlength : head.length = rest.length + path.length := by simp [hhead]
    cases hw.symm.trans (hfound column hlow hhigh)
    refine ⟨rest.reverse, path.reverse ++ run, tail, hstands.nonneg, ?_, ?_, ?_, hhigh, ?_, ?_, hrun.behind, ?_,
      run, hlast, ?_, ?_⟩
    · rw [hline, hhead]
      simp only [List.append_assoc]
    · simp only [List.length_reverse, List.length_append, hlength]
      push_cast
      rw [Int.add_assoc]
    · dsimp only
      omega
    · exact hpath.segments run hsegment
    · rw [List.getLast?_reverse]
      exact hpath.apart
    · intro front segment heq hfront
      have hrest : rest = '.' :: (segment.reverse ++ front.reverse) := by
        rw [← List.reverse_reverse rest, heq]
        simp
      rw [← List.reverse_reverse segment] at hfront
      rw [← List.head?_reverse]
      exact hpath.longest segment.reverse front.reverse hrest hfront
    · dsimp only
      omega
    · intro other hlow hhigh
      dsimp only at hlow hhigh
      exact hfound other (by omega) hhigh
  · constructor
    · intro hnone
      by_cases hstands : ∃ before after, Stands text line column before after
      · obtain ⟨before, after, hstands⟩ := hstands
        refine .inr ⟨before, after, hstands, ?_⟩
        obtain ⟨head, left, right, tail, rfl, rfl, hrun⟩ := exists_run before after
        have hdigit := (hstands.at?_eq_none_iff hrun).mp hnone
        by_cases hempty : left ++ right = []
        · obtain ⟨rfl, rfl⟩ := List.append_eq_nil_iff.mp hempty
          rw [List.append_nil]
          exact .inl ⟨hrun.before, hrun.behind⟩
        · obtain ⟨first, run, hcons⟩ := List.exists_cons_of_ne_nil hempty
          rw [hcons] at hdigit
          exact .inr ⟨head, left, right, tail, rfl, rfl, hrun, first, by rw [hcons]; rfl, hdigit⟩
      · exact .inl hstands
    · rintro (houtside | ⟨before, after, hstands, ⟨hbefore, hbehind⟩ | hdigit⟩)
      · rw [Option.eq_none_iff_forall_ne_some]
        exact fun w hw => houtside (exists_stands hw)
      · rw [← List.append_nil before, ← List.nil_append after] at hstands
        exact (hstands.at?_eq_none_iff ⟨nofun, hbefore, hbehind⟩).mpr rfl
      · obtain ⟨head, left, right, tail, rfl, rfl, hrun, first, hfirst, hdigit⟩ := hdigit
        rw [hstands.at?_eq_none_iff hrun, Option.mem_def.mp hfirst]
        exact hdigit

end Word

end MatrixScript
