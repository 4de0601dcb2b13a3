import MatrixScript.FileTree.Discovery
import MatrixScript.Proofs.FileTree.Walk
import Mathlib.Data.List.Sort
import Mathlib.Data.String.Basic

/-! What a search finds.

The chains of entries along which a search goes are described on their own: each step goes through an entry of
the directory that was reached, and a link is crossed only once. The search comes upon what stands at the ends
of these chains, in the order of their names. -/
namespace MatrixScript.FileTree

/-- What a search comes upon. -/
inductive Finding where
  | file (path : String)
  | failure (path : String)

namespace Finding

def file? : Finding → Option String
  | file path => some path
  | failure _ => none

def failure? : Finding → Option String
  | file _ => none
  | failure path => some path

end Finding

namespace Discovery

/-- The findings of a discovery are those that satisfy `P`, each with the names of the entries that lead to
it. They come in the order of these names. -/
def Enumerates (d : Discovery) (P : List String → Finding → Prop) : Prop :=
  ∃ visits : List (List String × Finding), visits.Pairwise (·.1 < ·.1) ∧
    (∀ names finding, (names, finding) ∈ visits ↔ P names finding) ∧
    d.files = visits.filterMap (·.2.file?) ∧ d.failures = visits.filterMap (·.2.failure?)

variable {P Q : List String → Finding → Prop}

theorem Enumerates.congr {d : Discovery} (h : d.Enumerates P)
    (hPQ : ∀ names finding, P names finding ↔ Q names finding) : d.Enumerates Q := by
  obtain ⟨visits, hsorted, hmem, hpaths⟩ := h
  exact ⟨visits, hsorted, fun names finding => (hmem names finding).trans (hPQ names finding), hpaths⟩

theorem enumerates_empty (h : ∀ names finding, ¬P names finding) : empty.Enumerates P :=
  ⟨[], .nil, fun names finding => iff_of_false List.not_mem_nil (h names finding), rfl, rfl⟩

theorem enumerates_failure {path : String}
    (h : ∀ names finding, P names finding ↔ names = [] ∧ finding = .failure path) :
    (failure path).Enumerates P :=
  ⟨[([], .failure path)], List.pairwise_singleton _ _, fun names finding => by simp [h], rfl, rfl⟩

theorem enumerates_collect {s : Search} {path : String} (h : ∀ names finding, P names finding ↔
      names = [] ∧ finding = .file path ∧ Path.endsWith path s.extension = true) :
    (s.collect path).Enumerates P := by
  unfold Search.collect
  split_ifs with hends
  · exact ⟨[([], .file path)], List.pairwise_singleton _ _, fun names finding => by simp [h, hends], rfl, rfl⟩
  · exact enumerates_empty fun names finding => by simp [h, hends]

theorem enumerates_foldr {entries : Listing} (hsorted : entries.Pairwise (·.1 < ·.1))
    {d : String × Entry → Discovery} {P : String × Entry → List String → Finding → Prop}
    (h : ∀ entry ∈ entries, (d entry).Enumerates (P entry)) :
    ((entries.map d).foldr append empty).Enumerates fun names finding =>
      ∃ entry ∈ entries, ∃ rest, names = entry.1 :: rest ∧ P entry rest finding := by
  induction entries with
  | nil => exact enumerates_empty fun names finding => by simp
  | cons entry entries ih =>
    obtain ⟨hfirst, hsorted⟩ := List.pairwise_cons.mp hsorted
    obtain ⟨hentry, hentries⟩ := List.forall_mem_cons.mp h
    obtain ⟨visits, hordered, hmem, hfiles, hfailures⟩ := hentry
    obtain ⟨visits', hordered', hmem', hfiles', hfailures'⟩ := ih hsorted hentries
    refine ⟨visits.map (fun visit => (entry.1 :: visit.1, visit.2)) ++ visits', ?_,
      fun names finding => ?_, ?_, ?_⟩
    · refine List.pairwise_append.mpr ⟨?_, hordered', ?_⟩
      · refine List.pairwise_map.mpr (hordered.imp fun hlt => ?_)
        exact List.cons_lt_cons_iff.mpr (.inr ⟨rfl, hlt⟩)
      · rintro visit hvisit ⟨names, finding⟩ hvisit'
        obtain ⟨visit, -, rfl⟩ := List.mem_map.mp hvisit
        obtain ⟨other, hother, rest, rfl, -⟩ := (hmem' names finding).mp hvisit'
        exact List.cons_lt_cons_iff.mpr (.inl (hfirst other hother))
    · refine List.mem_append.trans ((or_congr ?_ (hmem' names finding)).trans
        (List.exists_mem_cons_iff _ _ _).symm)
      constructor
      · rintro hvisit
        obtain ⟨⟨rest, found⟩, hrest, heq⟩ := List.mem_map.mp hvisit
        cases heq
        exact ⟨rest, rfl, (hmem rest found).mp hrest⟩
      · rintro ⟨rest, rfl, hrest⟩
        exact List.mem_map.mpr ⟨(rest, finding), (hmem rest finding).mpr hrest, rfl⟩
    · simp [append, hfiles, hfiles', List.filterMap_append, List.filterMap_map]
    · simp [append, hfailures, hfailures', List.filterMap_append, List.filterMap_map]

theorem enumerates_inOrder {entries : Listing} (hnodup : (entries.map (·.1)).Nodup)
    {d : String × Entry → Discovery} {P : String × Entry → List String → Finding → Prop}
    (h : ∀ entry ∈ entries, (d entry).Enumerates (P entry)) :
    (inOrder (entries.map fun entry => (entry.1, d entry))).Enumerates fun names finding =>
      ∃ entry ∈ entries, ∃ rest, names = entry.1 :: rest ∧ P entry rest finding := by
  have hperm := List.mergeSort_perm entries fun a b => !(b.1 < a.1)
  have hsort : ((entries.map fun entry => (entry.1, d entry)).mergeSort fun a b => !(b.1 < a.1)) =
      (entries.mergeSort fun a b => !(b.1 < a.1)).map fun entry => (entry.1, d entry) := by
    refine (List.map_mergeSort ?_).symm
    intros
    rfl
  have hsorted : (entries.mergeSort fun a b => !(b.1 < a.1)).Pairwise (·.1 < ·.1) := by
    have hle : (entries.mergeSort fun a b => !(b.1 < a.1)).Pairwise fun a b => (!(b.1 < a.1)) = true := by
      refine List.pairwise_mergeSort (fun a b c hab hbc => ?_) (fun a b => ?_) entries
      · simp only [Bool.not_eq_true', decide_eq_false_iff_not, not_lt] at hab hbc ⊢
        exact le_trans hab hbc
      · simpa only [Bool.or_eq_true, Bool.not_eq_true', decide_eq_false_iff_not, not_lt] using le_total a.1 b.1
    have hne := List.pairwise_map.mp ((hperm.map (·.1)).nodup_iff.mpr hnodup)
    refine hle.imp₂ (fun a b hle hne => ?_) hne
    simp only [Bool.not_eq_true', decide_eq_false_iff_not, not_lt] at hle
    exact lt_of_le_of_ne hle hne
  rw [inOrder, hsort, List.map_map]
  refine (enumerates_foldr hsorted fun entry hentry => h entry (hperm.mem_iff.mp hentry)).congr ?_
  intro names finding
  simp only [hperm.mem_iff]

end Discovery

/-- The entry is listed in the directory at a path. -/
def View.Lists (t : View) (directory name : String) (e : Entry) : Prop :=
  ∃ entries, t.entry? directory = some (.directory entries true) ∧ (name, e) ∈ entries

namespace Search

/-- So many directories below the root are entered. -/
def Allows (s : Search) (entered : Nat) : Prop := ∀ limit ∈ s.maxDepth, (entered : Int) ≤ max limit 0

/-- What a search comes upon from a directory along a chain of entries with these names, and how many
directories it enters on the way. A link is followed only if none was crossed before. -/
inductive Meets (s : Search) (t : View) : Bool → String → List String → Nat → Finding → Prop where
  | file {crossed : Bool} {directory name : String} {content : List UInt8}
      (hlists : t.Lists directory name (.file content))
      (hends : Path.endsWith (Path.join directory name) s.extension = true) :
      Meets s t crossed directory [name] 0 (.file (Path.join directory name))
  | linkedFile {directory name target : String} {content : List UInt8}
      (hlists : t.Lists directory name (.link target))
      (hfile : t.entry? (targetPath (Path.join directory name) target) = some (.file content))
      (hends : Path.endsWith (targetPath (Path.join directory name) target) s.extension = true) :
      Meets s t false directory [name] 0 (.file (targetPath (Path.join directory name) target))
  | directory {crossed listed : Bool} {directory name : String} {inner : Listing} {names : List String}
      {entered : Nat} {finding : Finding} (hlists : t.Lists directory name (.directory inner listed))
      (hnext : Meets s t crossed (Path.join directory name) names entered finding) :
      Meets s t crossed directory (name :: names) (entered + 1) finding
  | linkedDirectory {directory name target : String} {inner : Listing} {listed : Bool} {names : List String}
      {entered : Nat} {finding : Finding} (hlists : t.Lists directory name (.link target))
      (hdirectory : t.entry? (targetPath (Path.join directory name) target) = some (.directory inner listed))
      (hnext : Meets s t true (targetPath (Path.join directory name) target) names entered finding) :
      Meets s t false directory (name :: names) (entered + 1) finding
  | unlisted {crossed : Bool} {directory : String}
      (h : ∀ entries, t.entry? directory ≠ some (.directory entries true)) :
      Meets s t crossed directory [] 0 (.failure directory)
  | brokenLink {directory name target : String} (hlists : t.Lists directory name (.link target))
      (hdirectory : ∀ inner listed,
        t.entry? (targetPath (Path.join directory name) target) ≠ some (.directory inner listed))
      (hfile : ∀ content, t.entry? (targetPath (Path.join directory name) target) ≠ some (.file content)) :
      Meets s t false directory [name] 0 (.failure (Path.join directory name))

variable {s : Search} {t : View} {crossed listed : Bool} {directory name : String} {names : List String}
  {entries : Listing} {depth : Nat} {e : Entry} {finding : Finding}

theorem enters_iff : s.enters depth = true ↔ s.Allows (depth + 1) := by
  unfold enters Allows
  cases s.maxDepth with
  | none => simp
  | some limit =>
    simp only [Option.all_some, decide_eq_true_eq, Option.mem_def, Option.some.injEq, forall_eq']
    omega

theorem Allows.mono {n m : Nat} (h : s.Allows m) (hle : n ≤ m) : s.Allows n :=
  fun limit hlimit => Int.le_trans (Int.ofNat_le.mpr hle) (h limit hlimit)

/-- What the search comes upon from a directory that it has entered at this depth. -/
def Below (s : Search) (t : View) (crossed : Bool) (directory : String) (depth : Nat)
    (names : List String) (finding : Finding) : Prop :=
  ∃ entered, s.Allows (depth + entered) ∧ s.Meets t crossed directory names entered finding

theorem not_below (h : ¬s.Allows depth) : ¬s.Below t crossed directory depth names finding :=
  fun ⟨_, hallows, _⟩ => h (hallows.mono (Nat.le_add_right _ _))

/-- What the search comes upon through a link whose target has this path. -/
def Behind (s : Search) (t : View) (link path : String) (depth : Nat) (names : List String)
    (finding : Finding) : Prop :=
  match t.entry? path with
  | some (.directory ..) => s.Below t true path (depth + 1) names finding
  | some (.file _) => names = [] ∧ finding = .file path ∧ Path.endsWith path s.extension = true
  | _ => names = [] ∧ finding = .failure link

/-- What the search comes upon through one entry of a directory. -/
def Through (s : Search) (t : View) (crossed : Bool) (directory : String) (depth : Nat)
    (entry : String × Entry) (names : List String) (finding : Finding) : Prop :=
  match entry.2 with
  | .file _ => names = [] ∧ finding = .file (Path.join directory entry.1) ∧
      Path.endsWith (Path.join directory entry.1) s.extension = true
  | .directory .. => s.Below t crossed (Path.join directory entry.1) (depth + 1) names finding
  | .link target => crossed = false ∧ s.Behind t (Path.join directory entry.1)
      (targetPath (Path.join directory entry.1) target) depth names finding
  | .special => False

theorem below_iff (hdirectory : t.entry? directory = some (.directory entries true)) (hdepth : s.Allows depth) :
    s.Below t crossed directory depth names finding ↔
      ∃ entry ∈ entries, ∃ rest, names = entry.1 :: rest ∧ s.Through t crossed directory depth entry rest finding := by
  have hlisted {name : String} {e : Entry} : t.Lists directory name e ↔ (name, e) ∈ entries := by
    simp [View.Lists, hdirectory]
  constructor
  · rintro ⟨entered, hallows, hmeets⟩
    cases hmeets with
    | file hlists hends => exact ⟨_, hlisted.mp hlists, [], rfl, rfl, rfl, hends⟩
    | linkedFile hlists hfile hends =>
      refine ⟨_, hlisted.mp hlists, [], rfl, rfl, ?_⟩
      rw [Behind, hfile]
      exact ⟨rfl, rfl, hends⟩
    | @directory _ _ _ _ _ _ entered _ hlists hnext =>
      refine ⟨_, hlisted.mp hlists, _, rfl, entered, ?_, hnext⟩
      rwa [Nat.add_assoc, Nat.add_comm 1]
    | @linkedDirectory _ _ _ _ _ _ entered _ hlists hinner hnext =>
      refine ⟨_, hlisted.mp hlists, _, rfl, rfl, ?_⟩
      rw [Behind, hinner]
      refine ⟨entered, ?_, hnext⟩
      rwa [Nat.add_assoc, Nat.add_comm 1]
    | unlisted h => exact absurd hdirectory (h entries)
    | brokenLink hlists hinner hfile =>
      refine ⟨_, hlisted.mp hlists, [], rfl, rfl, ?_⟩
      unfold Behind
      split
      · exact absurd ‹_› (hinner _ _)
      · exact absurd ‹_› (hfile _)
      · exact ⟨rfl, rfl⟩
  · rintro ⟨⟨name, e⟩, hentry, rest, rfl, hthrough⟩
    cases e with
    | file content =>
      obtain ⟨rfl, rfl, hends⟩ := hthrough
      exact ⟨0, hdepth, .file (hlisted.mpr hentry) hends⟩
    | special => exact hthrough.elim
    | directory inner listed =>
      obtain ⟨entered, hallows, hmeets⟩ := hthrough
      refine ⟨entered + 1, ?_, .directory (hlisted.mpr hentry) hmeets⟩
      rwa [Nat.add_comm entered, ← Nat.add_assoc]
    | link target =>
      obtain ⟨rfl, hthrough⟩ := hthrough
      unfold Behind at hthrough
      split at hthrough
      next inner listed hinner =>
        obtain ⟨entered, hallows, hmeets⟩ := hthrough
        refine ⟨entered + 1, ?_, .linkedDirectory (hlisted.mpr hentry) hinner hmeets⟩
        rwa [Nat.add_comm entered, ← Nat.add_assoc]
      next content hfile =>
        obtain ⟨rfl, rfl, hends⟩ := hthrough
        exact ⟨0, hdepth, .linkedFile (hlisted.mpr hentry) hfile hends⟩
      next hinner hfile =>
        obtain ⟨rfl, rfl⟩ := hthrough
        exact ⟨0, hdepth, .brokenLink (hlisted.mpr hentry) hinner hfile⟩

theorem below_unlisted (h : ∀ entries, t.entry? directory ≠ some (.directory entries true))
    (hdepth : s.Allows depth) :
    s.Below t crossed directory depth names finding ↔ names = [] ∧ finding = .failure directory := by
  have hnone {name : String} {e : Entry} : ¬t.Lists directory name e :=
    fun ⟨entries, hdirectory, _⟩ => h entries hdirectory
  constructor
  · rintro ⟨entered, -, hmeets⟩
    cases hmeets with
    | unlisted => exact ⟨rfl, rfl⟩
    | file hlists | linkedFile hlists | directory hlists | linkedDirectory hlists | brokenLink hlists =>
      exact absurd hlists hnone
  · rintro ⟨rfl, rfl⟩
    exact ⟨0, hdepth, .unlisted h⟩

/-- The discovery of a directory is put together from those of its entries. -/
theorem enumerates_directory (ht : t.WellFormed)
    (hdirectory : t.entry? directory = some (.directory entries listed)) (hdepth : s.Allows depth)
    {d : String × Entry → Discovery} (h : listed = true →
      ∀ entry ∈ entries, (d entry).Enumerates (s.Through t crossed directory depth entry)) :
    (Discovery.ofDirectory directory listed (entries.map fun entry => (entry.1, d entry))).Enumerates
      (s.Below t crossed directory depth) := by
  cases listed with
  | false =>
    have hunlisted (entries' : Listing) : t.entry? directory ≠ some (.directory entries' true) := by
      simp [hdirectory]
    exact Discovery.enumerates_failure fun _ _ => below_unlisted hunlisted hdepth
  | true =>
    cases View.wellFormed_of_entry? ht hdirectory with
    | directory nodup _ _ =>
      exact (Discovery.enumerates_inOrder nodup (h rfl)).congr fun _ _ => (below_iff hdirectory hdepth).symm

theorem parts_eq (s : Search) (follow : String → String → Nat → Discovery) (directory : String) (depth : Nat)
    (entries : Listing) : s.parts follow directory depth entries =
      entries.map fun entry => (entry.1, s.visit follow directory depth entry) := by
  induction entries with
  | nil => rw [parts, List.map_nil]
  | cons entry entries ih => rw [parts, ih, List.map_cons]

/-- A directory is entered only if its depth allows it. -/
theorem enumerates_entered (ht : t.WellFormed)
    (hdirectory : t.entry? directory = some (.directory entries listed)) {d : String × Entry → Discovery}
    (h : listed = true → ∀ entry ∈ entries, (d entry).Enumerates (s.Through t crossed directory (depth + 1) entry)) :
    (if s.enters depth then Discovery.ofDirectory directory listed (entries.map fun entry => (entry.1, d entry))
      else .empty).Enumerates (s.Below t crossed directory (depth + 1)) := by
  split_ifs with henters
  · exact enumerates_directory ht hdirectory (enters_iff.mp henters) h
  · exact Discovery.enumerates_empty fun _ _ => not_below (mt enters_iff.mpr henters)

/-- One entry of a directory, where links are followed by `follow`. -/
theorem visit_enumerates {follow : String → String → Nat → Discovery} (ht : t.WellFormed)
    (hfollow : ∀ link target depth, (follow link target depth).Enumerates fun names finding =>
      crossed = false ∧ s.Behind t link (targetPath link target) depth names finding)
    (he : e.WellFormed) (hdirectory : t.entry? directory = some (.directory entries true))
    (hmem : (name, e) ∈ entries) (depth : Nat) :
    (s.visit follow directory depth (name, e)).Enumerates (s.Through t crossed directory depth (name, e)) := by
  induction he generalizing directory entries name depth with
  | file content =>
    rw [visit]
    exact Discovery.enumerates_collect fun _ _ => Iff.rfl
  | link target =>
    rw [visit]
    exact hfollow (Path.join directory name) target depth
  | special =>
    rw [visit]
    exact Discovery.enumerates_empty fun _ _ => id
  | @directory inner listed _ _ _ ih =>
    have hinner := View.entry?_join ht hdirectory hmem (Entry.directory_ne_link _ _)
    rw [visit, parts_eq]
    refine enumerates_entered ht hinner fun hlisted entry hentry => ?_
    rw [hlisted] at hinner
    exact ih entry hentry hinner hentry (depth + 1)

theorem followLink_enumerates (ht : t.WellFormed) (link target : String) (depth : Nat) :
    (s.followLink t link target depth).Enumerates (s.Behind t link (targetPath link target) depth) := by
  unfold followLink Behind
  extract_lets path
  generalize hpath : t.entry? path = found
  cases found with
  | none => exact Discovery.enumerates_failure fun _ _ => Iff.rfl
  | some e =>
    cases e with
    | file content => exact Discovery.enumerates_collect fun _ _ => Iff.rfl
    | link | special => exact Discovery.enumerates_failure fun _ _ => Iff.rfl
    | directory inner listed =>
      have hpass (link target : String) (depth : Nat) : (passOver link target depth).Enumerates
          fun names finding => true = false ∧ s.Behind t link (targetPath link target) depth names finding :=
        Discovery.enumerates_empty fun _ _ h => Bool.noConfusion h.1
      simp only [parts_eq]
      refine enumerates_entered ht hpath fun hlisted entry hentry => ?_
      rw [hlisted] at hpath
      exact visit_enumerates ht hpass (ht.of_mem hpath hentry) hpath hentry (depth + 1)

theorem discover_enumerates (ht : t.WellFormed) (s : Search) (root : String) :
    (s.discover t root).Enumerates (s.Below t false root 0) := by
  have hdepth : s.Allows 0 := fun limit _ => le_max_right limit 0
  unfold discover
  split
  next entries listed hroot =>
    rw [parts_eq]
    refine enumerates_directory ht hroot hdepth fun hlisted entry hentry => ?_
    rw [hlisted] at hroot
    refine visit_enumerates ht (fun link target depth => ?_) (ht.of_mem hroot hentry) hroot hentry 0
    exact (followLink_enumerates ht link target depth).congr fun _ _ => (and_iff_right rfl).symm
  next hroot =>
    exact Discovery.enumerates_failure fun _ _ => below_unlisted (fun entries => hroot entries true) hdepth

/-- A directory with a link that leads nowhere, one that leads back and a directory that cannot be listed. -/
def cyclicListing : Listing :=
  [("gone", .link "missing"), ("lib", .directory [("up", .link "..")]), ("main.m", .file []),
    ("shut", .directory [("in.m", .file [])] false)]

/-- The directory is where relative paths start. -/
def cyclicTree : View := ⟨⟨[("app", .directory cyclicListing)]⟩, ["app"]⟩

theorem cyclicTree_wellFormed : cyclicTree.WellFormed := by
  refine .directory (by decide) (by decide) (List.forall_mem_singleton.mpr ?_)
  refine .directory (by decide) (by decide) ?_
  simp only [cyclicListing, List.forall_mem_cons, List.not_mem_nil, false_implies, implies_true, and_true]
  refine ⟨.link _, .directory (by decide) (by decide) (List.forall_mem_singleton.mpr ?_), .file _, ?_⟩
  · exact .link _
  · exact .directory (by decide) (by decide) (List.forall_mem_singleton.mpr (.file _))

end Search

end MatrixScript.FileTree
