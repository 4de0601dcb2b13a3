/-! Values by name, in the order in which the names first came. -/
namespace MatrixScript

/-- Entries with different names. A name keeps its place until it is erased. -/
structure Registry (α : Type) where
  entries : List (String × α)
deriving DecidableEq, Repr

namespace Registry

variable {α : Type}

def empty : Registry α := ⟨[]⟩

def get? (r : Registry α) (name : String) : Option α := r.entries.lookup name

def contains (r : Registry α) (name : String) : Bool := (r.get? name).isSome

def names (r : Registry α) : List String := r.entries.map (·.1)

def size (r : Registry α) : Nat := r.entries.length

/-- Replaces the value of a name where it stands, or adds the name at the end. -/
def insert (name : String) (value : α) : List (String × α) → List (String × α)
  | [] => [(name, value)]
  | (key, old) :: rest =>
    if key = name then (name, value) :: rest else (key, old) :: insert name value rest

def put (r : Registry α) (name : String) (value : α) : Registry α :=
  ⟨insert name value r.entries⟩

def erase (r : Registry α) (name : String) : Registry α :=
  ⟨r.entries.filter (·.1 != name)⟩

@[simp] theorem get?_empty (name : String) : (empty : Registry α).get? name = none := rfl

theorem lookup_cons_eq_ite (name key : String) (value : α) (rest : List (String × α)) :
    ((key, value) :: rest).lookup name = if name = key then some value else rest.lookup name := by
  by_cases h : name = key
  · simp [h]
  · simp [List.lookup_cons, h, beq_eq_false_iff_ne.mpr h]

theorem lookup_insert (name other : String) (value : α) (entries : List (String × α)) :
    (insert name value entries).lookup other =
      if other = name then some value else entries.lookup other := by
  induction entries with
  | nil => simp [insert, lookup_cons_eq_ite]
  | cons entry rest ih =>
    obtain ⟨key, old⟩ := entry
    rw [insert]
    split <;> grind [lookup_cons_eq_ite]

theorem get?_put (r : Registry α) (name other : String) (value : α) :
    (r.put name value).get? other = if other = name then some value else r.get? other :=
  lookup_insert name other value r.entries

theorem lookup_filter_ne (name other : String) (entries : List (String × α)) :
    (entries.filter (·.1 != name)).lookup other =
      if other = name then none else entries.lookup other := by
  induction entries with
  | nil => simp
  | cons entry rest ih =>
    obtain ⟨key, old⟩ := entry
    rw [List.filter_cons]
    split <;> grind [lookup_cons_eq_ite]

theorem get?_erase (r : Registry α) (name other : String) :
    (r.erase name).get? other = if other = name then none else r.get? other :=
  lookup_filter_ne name other r.entries

theorem contains_put (r : Registry α) (name other : String) (value : α) :
    (r.put name value).contains other = (other == name || r.contains other) := by
  rw [contains, get?_put]
  by_cases h : other = name <;> simp [h, contains]

theorem contains_erase (r : Registry α) (name other : String) :
    (r.erase name).contains other = (other != name && r.contains other) := by
  rw [contains, get?_erase]
  by_cases h : other = name <;> simp [h, contains]

theorem mem_names_iff (r : Registry α) (name : String) : name ∈ r.names ↔ r.contains name = true := by
  obtain ⟨entries⟩ := r
  simp only [names, contains, get?]
  induction entries with
  | nil => simp
  | cons entry rest ih =>
    obtain ⟨key, value⟩ := entry
    rw [List.map_cons, List.mem_cons, lookup_cons_eq_ite, ih]
    split <;> simp_all

theorem map_fst_insert (name : String) (value : α) (entries : List (String × α)) :
    (insert name value entries).map (·.1) =
      if name ∈ entries.map (·.1) then entries.map (·.1) else entries.map (·.1) ++ [name] := by
  induction entries with
  | nil => rfl
  | cons entry rest ih =>
    obtain ⟨key, old⟩ := entry
    rw [insert]
    split
    · simp_all
    · simp only [List.map_cons, List.mem_cons, ih]
      split <;> simp_all [eq_comm]

/-- A name keeps its place when it gets another value. -/
theorem names_put (r : Registry α) (name : String) (value : α) :
    (r.put name value).names = if name ∈ r.names then r.names else r.names ++ [name] :=
  map_fst_insert name value r.entries

theorem names_erase (r : Registry α) (name : String) :
    (r.erase name).names = r.names.filter (· != name) := by
  simp only [names, erase, List.filter_map]
  rfl

/-- If no name stands twice, the entries are what is found under the names. -/
theorem get?_of_mem {r : Registry α} (h : r.names.Nodup) {name : String} {value : α}
    (hmem : (name, value) ∈ r.entries) : r.get? name = some value := by
  obtain ⟨entries⟩ := r
  simp only [names, get?] at h hmem ⊢
  induction entries with
  | nil => cases hmem
  | cons entry rest ih =>
    obtain ⟨key, other⟩ := entry
    rw [List.map_cons, List.nodup_cons] at h
    rw [lookup_cons_eq_ite]
    rcases List.mem_cons.mp hmem with heq | hrest
    · cases heq
      exact if_pos rfl
    · have hne : name ≠ key := by
        rintro rfl
        exact h.1 (List.mem_map.mpr ⟨_, hrest, rfl⟩)
      rw [if_neg hne, ih h.2 hrest]

end Registry

end MatrixScript
