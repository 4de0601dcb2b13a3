/-! Texts cut at a mark. -/
namespace MatrixScript.Text

/-- The parts between the marks, of which there is one more than there are marks. -/
def fields (mark : Char) : List Char → List (List Char)
  | [] => [[]]
  | c :: cs =>
    if c = mark then [] :: fields mark cs
    else match fields mark cs with
      | [] => [[c]]
      | field :: rest => (c :: field) :: rest

theorem fields_ne_nil (mark : Char) (cs : List Char) : fields mark cs ≠ [] := by
  unfold fields
  split
  · simp
  · split
    · simp
    · split <;> simp

theorem fields_append (mark : Char) (cs ds : List Char) :
    fields mark (cs ++ mark :: ds) = fields mark cs ++ fields mark ds := by
  induction cs with
  | nil => simp [fields]
  | cons c cs ih =>
    rw [List.cons_append, fields, fields, ih]
    split
    · rfl
    · obtain ⟨field, rest, hfields⟩ := List.exists_cons_of_ne_nil (fields_ne_nil mark cs)
      rw [hfields]
      rfl

theorem fields_of_not_mem {mark : Char} {cs : List Char} (h : mark ∉ cs) : fields mark cs = [cs] := by
  induction cs with
  | nil => rfl
  | cons c cs ih =>
    rw [List.mem_cons, not_or] at h
    rw [fields, if_neg (Ne.symm h.1), ih h.2]

end MatrixScript.Text
