import MatrixScript.Token.Scanner
import Mathlib.Data.List.TakeDrop
import Mathlib.Tactic.Common

/-! A lexeme is cut off the front of a text: nothing is lost, and only at the end nothing is taken. -/
namespace MatrixScript.Lexeme

theorem splitFraction_append (cs : List Char) :
    (splitFraction cs).1 ++ (splitFraction cs).2 = cs := by
  unfold splitFraction
  split
  · split_ifs
    · simp [List.span_eq_takeWhile_dropWhile]
    · rfl
  · rfl

theorem splitExponent_append (cs : List Char) :
    (splitExponent cs).1 ++ (splitExponent cs).2 = cs := by
  unfold splitExponent
  split
  · split_ifs <;> simp [List.span_eq_takeWhile_dropWhile]
  · split_ifs <;> rfl
  · rfl

theorem splitNumber_append (cs : List Char) : (splitNumber cs).1 ++ (splitNumber cs).2 = cs := by
  simp only [splitNumber, List.span_eq_takeWhile_dropWhile, List.append_assoc,
    splitExponent_append, splitFraction_append, List.takeWhile_append_dropWhile]

theorem splitString_append (quote : Char) (cs : List Char) :
    (splitString quote cs).1 ++ (splitString quote cs).2 = cs := by
  fun_induction splitString quote cs with
  | case1 | case2 | case3 | case4 | case6 => rfl
  | case5 | case7 => simp_all

/-- A lexeme takes the front of the text, and something of it as long as there is something. -/
structure Cuts (l : Lexeme) (cs : List Char) : Prop where
  append : l.chars ++ l.rest = cs
  chars_ne : l.chars ≠ []
  kind_ne : l.kind ≠ .eof

theorem nameKind_ne_eof (word : String) : nameKind word ≠ .eof := by
  unfold nameKind
  split
  · exact nofun
  · split_ifs <;> exact nofun

theorem readComment_cuts (c : Char) (cs : List Char) : (readComment c cs).Cuts (c :: cs) where
  append := by simp [readComment, List.span_eq_takeWhile_dropWhile]
  chars_ne := by simp [readComment]
  kind_ne := by
    simp only [readComment]
    split_ifs <;> exact nofun

theorem readName_cuts (c : Char) (cs : List Char) : (readName c cs).Cuts (c :: cs) where
  append := by simp [readName, List.span_eq_takeWhile_dropWhile]
  chars_ne := by simp [readName]
  kind_ne := nameKind_ne_eof _

theorem readNumber_cuts {c : Char} (cs : List Char) (hc : Text.isDigit c) :
    (readNumber c cs).Cuts (c :: cs) where
  append := splitNumber_append (c :: cs)
  chars_ne := by simp [readNumber, splitNumber, List.span_eq_takeWhile_dropWhile, hc]
  kind_ne := nofun

theorem readString_cuts (c : Char) (cs : List Char) : (readString c cs).Cuts (c :: cs) where
  append := by simp [readString, splitString_append]
  chars_ne := by simp [readString]
  kind_ne := nofun

/-- A lexeme of one character. -/
theorem single_cuts {kind : Token.Kind} (hk : kind ≠ .eof) (c : Char) (cs : List Char) :
    Cuts ⟨kind, [c], cs⟩ (c :: cs) :=
  ⟨rfl, nofun, hk⟩

theorem read_cuts (previous : Option Token.Kind) (touches : Bool) (c : Char) (cs : List Char) :
    (read previous touches (c :: cs)).Cuts (c :: cs) := by
  cases hs : Sign.ofChar? c with
  | some sign =>
    simp only [read, hs]
    split_ifs
    · exact single_cuts (by simp) c cs
    · exact single_cuts (by simp) c cs
    · exact readComment_cuts c cs
    · exact single_cuts (by simp) c cs
  | none =>
    simp only [read, hs]
    split_ifs with _ _ _ _ hdigit
    · exact single_cuts (by simp) c cs
    · exact single_cuts (by simp) c cs
    · exact readComment_cuts c cs
    · exact readName_cuts c cs
    · exact readNumber_cuts cs hdigit
    · exact single_cuts (by simp) c cs
    · exact readString_cuts c cs
    · exact single_cuts (by simp) c cs

theorem read_append (previous : Option Token.Kind) (touches : Bool) (cs : List Char) :
    (read previous touches cs).chars ++ (read previous touches cs).rest = cs := by
  cases cs with
  | nil => rfl
  | cons c cs => exact (read_cuts previous touches c cs).append

end MatrixScript.Lexeme
