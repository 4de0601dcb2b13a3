import MatrixScript.FileTree
import Mathlib.Tactic.Common

/-! Where the paths of the entries of a directory lead.

A path leads over links, of which the walk may cross only so many. Where it leads to a directory, the path of
each of its entries goes on from there: the walk comes to the same directory again, however it got there. -/
namespace MatrixScript

namespace Path

/-- A name can stand in a path. -/
def IsName (name : String) : Prop := '/' ∉ name.toList ∧ name ∉ ["", ".", ".."]

instance : DecidablePred IsName := fun name => inferInstanceAs (Decidable ('/' ∉ name.toList ∧ _))

theorem IsName.isAbsolute {name : String} (h : IsName name) : isAbsolute name = false := by
  rw [Path.isAbsolute, beq_eq_false_iff_ne]
  exact fun hhead => h.1 (List.mem_of_mem_head? hhead)

/-- A name is neither empty nor one of the names that lead nowhere or up. -/
theorem IsName.leads_down {name : String} (h : IsName name) :
    (name.isEmpty || name == ".") = false ∧ (name == "..") = false := by
  have hne := h.2
  simp only [List.mem_cons, not_or] at hne
  simp [hne]

/-- The path of an entry starts like the path of its directory. -/
theorem join_starts {directory name : String} (h : directory.isEmpty = false) (hname : IsName name) :
    (join directory name).isEmpty = false ∧ isAbsolute (join directory name) = isAbsolute directory := by
  obtain ⟨c, cs, hc⟩ : ∃ c cs, directory.toList = c :: cs := by
    refine List.exists_cons_of_ne_nil fun hnil => ?_
    rw [String.toList_eq_nil_iff.mp hnil] at h
    exact absurd h (by decide)
  have happend (more : String) :
      (directory ++ more).isEmpty = false ∧ isAbsolute (directory ++ more) = isAbsolute directory := by
    constructor
    · rw [← Bool.not_eq_true, String.isEmpty_iff, ← String.toList_eq_nil_iff]
      simp [hc]
    · simp [isAbsolute, hc]
  unfold join
  rw [hname.isAbsolute, if_neg Bool.false_ne_true]
  split_ifs
  · exact happend name
  · rw [String.append_assoc]
    exact happend _

/-- A slash at the end of a directory makes no difference to the paths of its entries. -/
theorem components_join {directory : String} (hempty : directory.isEmpty = false) :
    ∃ names slash, (∀ part ∈ slash, part = "") ∧ components directory = names ++ slash ∧
      ∀ name, IsName name → components (join directory name) = names ++ [name] := by
  by_cases hslash : endsWith directory "/" = true
  · obtain ⟨front, hfront⟩ := List.isSuffixOf_iff_suffix.mp hslash
    have hfront : directory.toList = front ++ '/' :: [] := hfront.symm
    refine ⟨(Text.fields '/' front).map String.ofList, [""], by simp, ?_, fun name hname => ?_⟩
    · rw [components, hfront, Text.fields_append]
      simp [Text.fields]
    · rw [join, hname.isAbsolute, hslash, Bool.or_true, if_neg Bool.false_ne_true, if_pos rfl, components,
        String.toList_append, hfront, List.append_assoc, List.cons_append, List.nil_append,
        Text.fields_append, Text.fields_of_not_mem hname.1]
      simp
  · refine ⟨components directory, [], List.forall_mem_nil _, (List.append_nil _).symm, fun name hname => ?_⟩
    rw [join, hname.isAbsolute, hempty, Bool.false_or, if_neg Bool.false_ne_true, if_neg hslash, components,
      String.toList_append, String.toList_append, List.append_assoc]
    change (Text.fields '/' (directory.toList ++ '/' :: name.toList)).map _ = _
    rw [Text.fields_append, Text.fields_of_not_mem hname.1]
    simp [components]

end Path

namespace FileTree

/-- The names in each directory are different and can stand in a path. -/
inductive Entry.WellFormed : Entry → Prop where
  | file (content : List UInt8) : WellFormed (.file content)
  | link (target : String) : WellFormed (.link target)
  | special : WellFormed .special
  | directory {entries : Listing} {listed : Bool} (nodup : (entries.map (·.1)).Nodup)
      (isName : ∀ entry ∈ entries, Path.IsName entry.1)
      (inner : ∀ entry ∈ entries, WellFormed entry.2) : WellFormed (.directory entries listed)

theorem Entry.file_ne_link (content : List UInt8) (target : String) : Entry.file content ≠ .link target := nofun

theorem Entry.directory_ne_link (entries : Listing) (listed : Bool) (target : String) :
    Entry.directory entries listed ≠ .link target := nofun

def View.WellFormed (t : View) : Prop := (Entry.directory t.tree.root).WellFormed

/-- The directories around a place are well formed. -/
def Place.WellFormed (p : Place) : Prop :=
  ∀ folder ∈ p.here :: p.above, (Entry.directory folder.entries folder.listed).WellFormed

theorem Entry.WellFormed.lookup {entries : Listing} {listed : Bool} (h : (Entry.directory entries listed).WellFormed)
    {name : String} {e : Entry} (hmem : (name, e) ∈ entries) : entries.lookup name = some e := by
  cases h with
  | directory nodup _ _ => exact Registry.get?_of_mem (r := ⟨entries⟩) nodup hmem

theorem Place.WellFormed.up {p : Place} (h : p.WellFormed) : p.up.WellFormed := by
  obtain ⟨here, above⟩ := p
  cases above with
  | nil => exact h
  | cons parent more => exact fun folder hmem => h folder (List.mem_cons_of_mem _ hmem)

theorem Place.WellFormed.enter {p : Place} (h : p.WellFormed) {name : String} {entries : Listing} {listed : Bool}
    (hlookup : p.here.entries.lookup name = some (.directory entries listed)) :
    (p.enter name entries listed).WellFormed := by
  have hmem : (name, Entry.directory entries listed) ∈ p.here.entries := by
    obtain ⟨before, after, heq, -⟩ := List.lookup_eq_some_iff.mp hlookup
    rw [heq]
    simp
  have hhere := h p.here List.mem_cons_self
  refine List.forall_mem_cons.mpr ⟨?_, h⟩
  cases hhere with
  | directory _ _ inner => exact inner _ hmem

theorem walk_slash {root p : Place} {follow : Place → List String → Except ReadError Located}
    {slash : List String} (h : ∀ part ∈ slash, part = "") :
    walk root follow p slash = .ok ⟨p.names, .directory p.here.entries p.here.listed⟩ := by
  induction slash with
  | nil => rfl
  | cons part slash ih =>
    obtain ⟨rfl, hslash⟩ := List.forall_mem_cons.mp h
    exact ih hslash

/-- A walk that ends at a directory can go on from there. Slashes behind the last name are passed over. -/
theorem walkLinks_continue {root : Place} (hroot : root.WellFormed) {n : Nat} {p : Place} (hp : p.WellFormed)
    {names slash found : List String} {entries : Listing} {listed : Bool} (hslash : ∀ part ∈ slash, part = "")
    (h : walkLinks root n p (names ++ slash) = .ok ⟨found, .directory entries listed⟩) :
    ∃ m q, q.WellFormed ∧ q.here.entries = entries ∧ q.here.listed = listed ∧ q.names = found ∧
      ∀ more, walkLinks root n p (names ++ more) = walkLinks root (m + 1) q more := by
  induction n generalizing p names with
  | zero => cases h
  | succ n ih =>
    change walk root (walkLinks root n) p (names ++ slash) = _ at h
    change ∃ m q, q.WellFormed ∧ q.here.entries = entries ∧ q.here.listed = listed ∧ q.names = found ∧
      ∀ more, walk root (walkLinks root n) p (names ++ more) = walkLinks root (m + 1) q more
    induction names generalizing p with
    | nil =>
      rw [List.nil_append, walk_slash hslash] at h
      cases h
      exact ⟨n, p, hp, rfl, rfl, rfl, fun more => rfl⟩
    | cons name names ihnames =>
      simp only [List.cons_append, walk] at h ⊢
      by_cases hempty : (name.isEmpty || name == ".") = true
      · simp only [if_pos hempty] at h ⊢
        exact ihnames hp h
      by_cases hup : (name == "..") = true
      · simp only [if_neg hempty, if_pos hup] at h ⊢
        exact ihnames hp.up h
      simp only [if_neg hempty, if_neg hup] at h ⊢
      cases hlookup : p.here.entries.lookup name with
      | none => simp [hlookup] at h
      | some e =>
        cases e with
        | file | special =>
          simp only [hlookup] at h
          split_ifs at h
          cases h
        | directory inner =>
          simp only [hlookup] at h ⊢
          exact ihnames (hp.enter hlookup) h
        | link target =>
          simp only [hlookup, ← List.append_assoc] at h ⊢
          refine ih ?_ h
          split_ifs
          · exact hroot
          · exact hp

namespace View

variable {t : View} {directory name : String} {found : List String} {entries : Listing} {listed : Bool} {e : Entry}

theorem WellFormed.ofRoot (h : t.WellFormed) : (Place.ofRoot t.tree).WellFormed :=
  List.forall_mem_cons.mpr ⟨h, List.forall_mem_nil _⟩

theorem entry?_eq_some_iff {path : String} :
    t.entry? path = some e ↔ ∃ names, t.locate path = .ok ⟨names, e⟩ := by
  unfold entry?
  cases t.locate path with
  | error e => simp [Except.toOption]
  | ok located =>
    obtain ⟨names, e'⟩ := located
    simp [Except.toOption]

/-- Where a directory is found, the paths of its entries lead to its entries. -/
theorem exists_place (ht : t.WellFormed) (h : t.locate directory = .ok ⟨found, .directory entries listed⟩) :
    ∃ m q, q.WellFormed ∧ q.here.entries = entries ∧ q.here.listed = listed ∧ q.names = found ∧
      ∀ name, Path.IsName name →
        t.locate (Path.join directory name) = walkLinks (.ofRoot t.tree) (m + 1) q [name] := by
  unfold locate at h
  split_ifs at h with hempty
  rw [Bool.not_eq_true] at hempty
  obtain ⟨names, slash, hslash, hcomponents, hjoin⟩ := Path.components_join hempty
  rw [View.names, hcomponents, ← List.append_assoc] at h
  obtain ⟨m, q, hq, hhere, hlisted, hfound, hmore⟩ := walkLinks_continue ht.ofRoot ht.ofRoot hslash h
  refine ⟨m, q, hq, hhere, hlisted, hfound, fun name hname => ?_⟩
  obtain ⟨hnext, habsolute⟩ := Path.join_starts hempty hname
  rw [locate, View.names, hnext, habsolute, hjoin name hname, ← List.append_assoc, if_neg Bool.false_ne_true]
  exact hmore [name]

theorem wellFormed_of_entry? (ht : t.WellFormed) (h : t.entry? directory = some (.directory entries listed)) :
    (Entry.directory entries listed).WellFormed := by
  obtain ⟨found, hfound⟩ := entry?_eq_some_iff.mp h
  obtain ⟨m, q, hq, rfl, rfl, -⟩ := exists_place ht hfound
  exact hq _ List.mem_cons_self

theorem WellFormed.of_mem (ht : t.WellFormed) (h : t.entry? directory = some (.directory entries listed))
    {entry : String × Entry} (hentry : entry ∈ entries) : entry.2.WellFormed := by
  cases wellFormed_of_entry? ht h with
  | directory _ _ inner => exact inner entry hentry

theorem names_enter (p : Place) (name : String) (entries : Listing) (listed : Bool) :
    (p.enter name entries listed).names = p.names ++ [name] := by
  rw [Place.enter, Place.names, List.map_cons, List.reverse_cons]
  exact List.tail_append_of_ne_nil (by simp)

/-- The path of an entry that is no link goes on from where its directory is found. -/
theorem locate_join (ht : t.WellFormed) (h : t.locate directory = .ok ⟨found, .directory entries listed⟩)
    (hmem : (name, e) ∈ entries) (hlink : ∀ target, e ≠ .link target) :
    t.locate (Path.join directory name) = .ok ⟨found ++ [name], e⟩ := by
  obtain ⟨m, q, hq, rfl, rfl, rfl, hpaths⟩ := exists_place ht h
  have hhere := hq q.here List.mem_cons_self
  have hname : Path.IsName name := by
    cases hhere with
    | directory _ isName _ => exact isName _ hmem
  obtain ⟨hempty, hup⟩ := hname.leads_down
  rw [hpaths name hname, walkLinks, walk, hempty, hup, hhere.lookup hmem]
  cases e with
  | file | special => rfl
  | directory inner listed =>
    rw [← names_enter q name inner listed]
    rfl
  | link target => exact absurd rfl (hlink target)

theorem entry?_join (ht : t.WellFormed) (h : t.entry? directory = some (.directory entries listed))
    (hmem : (name, e) ∈ entries) (hlink : ∀ target, e ≠ .link target) :
    t.entry? (Path.join directory name) = some e := by
  obtain ⟨found, hfound⟩ := entry?_eq_some_iff.mp h
  exact entry?_eq_some_iff.mpr ⟨_, locate_join ht hfound hmem hlink⟩

end View

end FileTree

end MatrixScript
