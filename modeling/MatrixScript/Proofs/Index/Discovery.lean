import MatrixScript.Index.Discovery
import MatrixScript.Proofs.FileTree.Discovery

/-! Which files the documents of a discovery are.

A search descends from its root and from the targets of the links that it meets. From there on the path of a
file is spelled with the names of the entries on the way, and each path is registered once. So a file has more
than one document only where it stands below several such places and one of them is spelled in a roundabout way. -/
namespace MatrixScript

namespace FileTree

/-- Where the path leads to an entry, it is spelled with the names that lead there without any link. -/
def View.IsCanonical (t : View) (path : String) : Prop :=
  ∀ located, t.locate path = .ok located → path = located.names.foldl Path.join "/"

/-- Entries that are no links lead from one path to another. -/
inductive View.Descends (t : View) : String → List String → String → Prop where
  | here (path : String) : Descends t path [] path
  | enter {path name last : String} {names : List String} {e : Entry} (hlists : t.Lists path name e)
      (hlink : ∀ target, e ≠ .link target) (hnext : Descends t (Path.join path name) names last) :
      Descends t path (name :: names) last

/-- The places from which a search descends: its root and the targets of the links below. -/
inductive View.Start (t : View) (root : String) : String → Prop where
  | root : Start t root root
  | target {directory name target : String} {names : List String} (hdescends : t.Descends root names directory)
      (hlists : t.Lists directory name (.link target)) :
      Start t root (Search.targetPath (Path.join directory name) target)

/-- The path leads to the file at these names. -/
def View.Denotes (t : View) (path : String) (file : List String) : Prop :=
  ∃ content, t.locate path = .ok ⟨file, .file content⟩

variable {t : View} {root start path : String} {names : List String}

theorem View.Descends.path_eq (h : t.Descends start names path) : path = names.foldl Path.join start := by
  induction h with
  | here => rfl
  | enter _ _ _ ih => exact ih

/-- The names on the way lead on from where the start is found. -/
theorem View.Descends.locate (ht : t.WellFormed) (h : t.Descends start names path) {found : List String}
    {e : Entry} (hpath : t.locate path = .ok ⟨found, e⟩) :
    ∃ place e', t.locate start = .ok ⟨place, e'⟩ ∧ found = place ++ names := by
  induction h with
  | here => exact ⟨found, e, hpath, (List.append_nil _).symm⟩
  | enter hlists hlink _ ih =>
    obtain ⟨_, _, hnext, rfl⟩ := ih hpath
    obtain ⟨entries, hstart, hmem⟩ := hlists
    obtain ⟨place, hplace⟩ := View.entry?_eq_some_iff.mp hstart
    rw [View.locate_join ht hplace hmem hlink] at hnext
    cases hnext
    exact ⟨place, _, hplace, by simp⟩

/-- The link that a search crosses is met below the directory where it is. -/
theorem View.Start.enter {directory name : String} {e : Entry} (hlists : t.Lists directory name e)
    (hlink : ∀ target, e ≠ .link target) (h : t.Start (Path.join directory name) start)
    (hne : start ≠ Path.join directory name) : t.Start directory start := by
  cases h with
  | root => exact absurd rfl hne
  | target hdescends hlists' => exact .target (.enter hlists hlink hdescends) hlists'

/-- What a search comes upon stands below a place from which it descends. Behind a link that is the directory
where it is. -/
theorem Search.Meets.exists_start {s : Search} {crossed : Bool} {directory : String} {entered : Nat}
    (h : s.Meets t crossed directory names entered (.file path)) :
    ∃ start below, t.Descends start below path ∧ t.Start directory start ∧
      (crossed = true → start = directory) := by
  generalize hfinding : Finding.file path = finding at h
  induction h with
  | file hlists =>
    cases hfinding
    exact ⟨_, _, .enter hlists (Entry.file_ne_link _) (.here _), .root, fun _ => rfl⟩
  | linkedFile hlists =>
    cases hfinding
    exact ⟨_, _, .here _, .target (.here _) hlists, Bool.noConfusion⟩
  | @directory crossed _ directory name _ _ _ _ hlists _ ih =>
    obtain ⟨start, below, hbelow, hstart, hcrossed⟩ := ih hfinding
    by_cases hhere : start = Path.join directory name
    · rw [hhere] at hbelow
      exact ⟨_, _, .enter hlists (Entry.directory_ne_link _ _) hbelow, .root, fun _ => rfl⟩
    · refine ⟨start, below, hbelow, hstart.enter hlists (Entry.directory_ne_link _ _) hhere, fun h => ?_⟩
      exact absurd (hcrossed h) hhere
  | linkedDirectory hlists _ _ ih =>
    obtain ⟨start, below, hbelow, -, hcrossed⟩ := ih hfinding
    rw [hcrossed rfl] at hbelow
    exact ⟨_, _, hbelow, .target (.here _) hlists, Bool.noConfusion⟩
  | unlisted | brokenLink => cases hfinding

theorem Search.mem_files_iff {s : Search} (ht : t.WellFormed) : path ∈ (s.discover t root).files ↔
    ∃ names entered, s.Allows entered ∧ s.Meets t false root names entered (.file path) := by
  obtain ⟨visits, -, hmem, hfiles, -⟩ := discover_enumerates ht s root
  simp only [Below, Nat.zero_add] at hmem
  rw [hfiles, List.mem_filterMap]
  constructor
  · rintro ⟨⟨names, finding⟩, hvisit, hfile⟩
    cases finding with
    | file found =>
      cases hfile
      exact ⟨names, (hmem names _).mp hvisit⟩
    | failure found => cases hfile
  · rintro ⟨names, hmeets⟩
    exact ⟨(names, .file path), (hmem names _).mpr hmeets, rfl⟩

theorem View.exists_denotes_of_readText {text : String} (h : t.readText path = .ok text) :
    ∃ file, t.Denotes path file := by
  unfold View.readText at h
  cases hlocate : t.locate path with
  | error e =>
    rw [hlocate] at h
    cases h
  | ok located =>
    obtain ⟨file, e⟩ := located
    rw [hlocate] at h
    cases e with
    | file content => exact ⟨file, content, hlocate⟩
    | directory | link | special => cases h

/-- A file has one path below one place, and one path below all places that are spelled canonically. -/
theorem View.Descends.eq_of_denotes (ht : t.WellFormed) {start' path' : String} {names' file : List String}
    (h : t.Descends start names path) (h' : t.Descends start' names' path') (hpath : t.Denotes path file)
    (hpath' : t.Denotes path' file)
    (hstart : start = start' ∨ t.IsCanonical start ∧ t.IsCanonical start') : path = path' := by
  obtain ⟨content, hlocate⟩ := hpath
  obtain ⟨content', hlocate'⟩ := hpath'
  obtain ⟨place, e, hplace, rfl⟩ := h.locate ht hlocate
  obtain ⟨place', e', hplace', hfile⟩ := h'.locate ht hlocate'
  rw [h.path_eq, h'.path_eq]
  rcases hstart with rfl | ⟨hcanonical, hcanonical'⟩
  · rw [hplace] at hplace'
    cases hplace'
    rw [List.append_cancel_left hfile]
  · rw [hcanonical _ hplace, hcanonical' _ hplace', ← List.foldl_append, ← List.foldl_append, hfile]

end FileTree

namespace Index

open FileTree.Search

variable {t : FileTree.View}

theorem register_uris (i : Index) (uri text : String) :
    (i.register uri text).uris = if uri ∈ i.uris then i.uris else i.uris ++ [uri] := by
  unfold register
  split_ifs with hcontains hmem hmem
  · rfl
  · exact absurd ((Registry.mem_names_iff _ _).mpr hcontains) hmem
  · exact absurd ((Registry.mem_names_iff _ _).mp hmem) hcontains
  · exact (Registry.names_put _ _ _).trans (if_neg hmem)

/-- Each path that can be read has a document, and no two documents have the same name. -/
theorem foldl_takeFile_uris (t : FileTree.View) (files failures : List String) {i : Index} (h : i.uris.Nodup) :
    ∃ paths, paths ⊆ files ∧ (∀ path ∈ paths, ∃ text, t.readText path = .ok text) ∧
      (files.foldl (takeFile t) (i, failures)).1.uris = i.uris ++ paths.map Uri.ofPath ∧
      (i.uris ++ paths.map Uri.ofPath).Nodup ∧
      ∀ path ∈ files, ∀ text, t.readText path = .ok text → Uri.ofPath path ∈ i.uris ++ paths.map Uri.ofPath := by
  induction files generalizing i failures with
  | nil => exact ⟨[], List.Subset.refl _, nofun, by simp, by simpa using h, nofun⟩
  | cons path files ih =>
    rw [List.foldl_cons, takeFile]
    cases hread : t.readText path with
    | error e =>
      obtain ⟨paths, hsubset, hreadable, huris, hnodup, hall⟩ := ih (failures ++ [path]) h
      refine ⟨paths, List.subset_cons_of_subset _ hsubset, hreadable, huris, hnodup, ?_⟩
      refine List.forall_mem_cons.mpr ⟨fun text htext => ?_, hall⟩
      rw [hread] at htext
      cases htext
    | ok text =>
      have huri := register_uris i (Uri.ofPath path) text
      by_cases hmem : Uri.ofPath path ∈ i.uris
      · rw [if_pos hmem] at huri
        obtain ⟨paths, hsubset, hreadable, huris, hnodup, hall⟩ := ih failures (huri.symm ▸ h)
        rw [huri] at huris hnodup hall
        refine ⟨paths, List.subset_cons_of_subset _ hsubset, hreadable, huris, hnodup, ?_⟩
        exact List.forall_mem_cons.mpr ⟨fun _ _ => List.mem_append_left _ hmem, hall⟩
      · rw [if_neg hmem] at huri
        have hnext : (i.register (Uri.ofPath path) text).uris.Nodup := by
          rw [huri]
          refine List.nodup_append.mpr ⟨h, List.nodup_singleton _, ?_⟩
          simpa using fun a ha => ne_of_mem_of_not_mem ha hmem
        obtain ⟨paths, hsubset, hreadable, huris, hnodup, hall⟩ := ih failures hnext
        rw [huri, List.append_assoc] at huris hnodup hall
        refine ⟨path :: paths, List.cons_subset_cons _ hsubset, ?_, huris, hnodup, ?_⟩
        · exact List.forall_mem_cons.mpr ⟨⟨text, hread⟩, hreadable⟩
        · exact List.forall_mem_cons.mpr ⟨fun _ _ => by simp, hall⟩

theorem mem_discover_uris (ht : t.WellFormed) {settings : Settings} {publishes : Bool} {root path text : String}
    {names : List String} {entered : Nat} (hallows : (empty settings publishes).search.Allows entered)
    (hmeets : (empty settings publishes).search.Meets t false root names entered (.file path))
    (hread : t.readText path = .ok text) :
    Uri.ofPath path ∈ ((empty settings publishes).discover t root).1.uris := by
  have hfile := (FileTree.Search.mem_files_iff ht).mpr ⟨names, entered, hallows, hmeets⟩
  obtain ⟨paths, -, -, huris, -, hall⟩ := foldl_takeFile_uris t
    ((empty settings publishes).search.discover t root).files
    ((empty settings publishes).search.discover t root).failures (i := empty settings publishes) List.nodup_nil
  rw [discover, huris]
  exact hall path hfile text hread

/-- By default nothing limits the search. -/
theorem search_allows (publishes : Bool) (entered : Nat) : (empty .default publishes).search.Allows entered :=
  fun _ => nofun

/-- The documents that a search registers in an empty index, each with the path it was read from. The name of every
file that is found and can be read is among theirs, and none stands twice. Two of them have the same file only if they
stand below different places, of which one at least is not spelled canonically: where all places from which the
search descends are spelled canonically, no file has two documents. -/
theorem discovered_files (ht : t.WellFormed) (settings : Settings) (publishes : Bool) (root : String) :
    ∃ paths : List String,
      ((empty settings publishes).discover t root).1.uris = paths.map Uri.ofPath ∧
      (paths.map Uri.ofPath).Nodup ∧
      (∀ path ∈ ((empty settings publishes).search.discover t root).files, ∀ text,
        t.readText path = .ok text → Uri.ofPath path ∈ paths.map Uri.ofPath) ∧
      (∀ path ∈ paths, (∃ file, t.Denotes path file) ∧
        ∃ start names, t.Start root start ∧ t.Descends start names path) ∧
      (∀ path ∈ paths, ∀ path' ∈ paths, path ≠ path' →
        ∀ file, t.Denotes path file → t.Denotes path' file →
        ∀ start names start' names', t.Descends start names path → t.Descends start' names' path' →
          start ≠ start' ∧ ¬(t.IsCanonical start ∧ t.IsCanonical start')) ∧
      ((∀ start, t.Start root start → t.IsCanonical start) →
        paths.Pairwise fun path path' => ∀ file, t.Denotes path file → ¬t.Denotes path' file) := by
  obtain ⟨paths, hsubset, hreadable, huris, hnodup, hall⟩ := foldl_takeFile_uris t
    ((empty settings publishes).search.discover t root).files
    ((empty settings publishes).search.discover t root).failures (i := empty settings publishes) List.nodup_nil
  have hplace : ∀ path ∈ paths, ∃ start names, t.Start root start ∧ t.Descends start names path := by
    intro path hpath
    obtain ⟨names, entered, -, hmeets⟩ := (FileTree.Search.mem_files_iff ht).mp (hsubset hpath)
    obtain ⟨start, below, hbelow, hstart, -⟩ := hmeets.exists_start
    exact ⟨start, below, hstart, hbelow⟩
  refine ⟨paths, huris, hnodup, hall, fun path hpath => ⟨?_, hplace path hpath⟩, ?_, ?_⟩
  · obtain ⟨text, htext⟩ := hreadable path hpath
    exact FileTree.View.exists_denotes_of_readText htext
  · intro path _ path' _ hne file hfile hfile' start names start' names' hbelow hbelow'
    rw [← not_or]
    exact fun hstart => hne (hbelow.eq_of_denotes ht hbelow' hfile hfile' hstart)
  · intro hcanonical
    refine List.Pairwise.imp_of_mem ?_ (List.Nodup.of_map Uri.ofPath hnodup)
    intro path path' hpath hpath' hne file hfile hfile'
    obtain ⟨start, names, hstart, hbelow⟩ := hplace path hpath
    obtain ⟨start', names', hstart', hbelow'⟩ := hplace path' hpath'
    exact hne (hbelow.eq_of_denotes ht hbelow' hfile hfile' (.inr ⟨hcanonical _ hstart, hcanonical _ hstart'⟩))

/-- A directory with a link to one beside it, which has a canonical target. -/
def libraryTree : FileTree.View := ⟨⟨[
  ("app", .directory [("linked", .link "/lib"), ("main.m", .file [])]),
  ("lib", .directory [("util.m", .file [])])]⟩, []⟩

theorem libraryTree_wellFormed : libraryTree.WellFormed := by
  refine .directory (by decide) (by decide) ?_
  refine List.forall_mem_cons.mpr ⟨.directory (by decide) (by decide) ?_, List.forall_mem_singleton.mpr ?_⟩
  · exact List.forall_mem_cons.mpr ⟨.link _, List.forall_mem_singleton.mpr (.file _)⟩
  · exact .directory (by decide) (by decide) (List.forall_mem_singleton.mpr (.file _))

theorem libraryTree_canonical {start : String} (h : libraryTree.Start "/app" start) :
    libraryTree.IsCanonical start := by
  have happ {name : String} {e : FileTree.Entry} (h : libraryTree.Lists "/app" name e) :
      name = "linked" ∧ e = .link "/lib" ∨ name = "main.m" ∧ e = .file [] := by
    obtain ⟨entries, hentries, hmem⟩ := h
    have hlisting : libraryTree.entry? "/app" =
      some (.directory [("linked", .link "/lib"), ("main.m", .file [])]) := rfl
    rw [hlisting] at hentries
    cases hentries
    simpa using hmem
  have hmain {name : String} {e : FileTree.Entry} : ¬libraryTree.Lists "/app/main.m" name e := by
    rintro ⟨entries, hentries, -⟩
    cases hentries
  cases h with
  | root =>
    intro located hlocated
    cases hlocated
    decide
  | target hdescends hlists =>
    cases hdescends with
    | here =>
      obtain ⟨rfl, ⟨⟩⟩ | ⟨rfl, ⟨⟩⟩ := happ hlists
      intro located hlocated
      cases hlocated
      decide
    | enter hfirst hlink hnext =>
      obtain ⟨rfl, rfl⟩ | ⟨rfl, rfl⟩ := happ hfirst
      · exact absurd rfl (hlink _)
      · cases hnext with
        | here => exact absurd hlists hmain
        | enter hnext => exact absurd hnext hmain

/-- The file behind the link and the one beside it both have a document, and they are different files. -/
theorem discovered_files_libraryTree :
    ∃ paths : List String, ((empty .default false).discover libraryTree "/app").1.uris = paths.map Uri.ofPath ∧
      Uri.ofPath "/lib/util.m" ∈ paths.map Uri.ofPath ∧ Uri.ofPath "/app/main.m" ∈ paths.map Uri.ofPath ∧
      paths.Pairwise fun path path' =>
        ∀ file, libraryTree.Denotes path file → ¬libraryTree.Denotes path' file := by
  obtain ⟨paths, huris, -, hall, -, -, hdiffer⟩ :=
    discovered_files libraryTree_wellFormed .default false "/app"
  have hlinked : libraryTree.Lists "/app" "linked" (.link "/lib") := ⟨_, rfl, List.mem_cons_self⟩
  have hutil : libraryTree.Lists "/lib" "util.m" (.file []) := ⟨_, rfl, List.mem_cons_self⟩
  have hmain : libraryTree.Lists "/app" "main.m" (.file []) :=
    ⟨_, rfl, List.mem_cons_of_mem _ List.mem_cons_self⟩
  refine ⟨paths, huris, ?_, ?_, hdiffer fun start => libraryTree_canonical⟩
  · rw [← huris]
    exact mem_discover_uris libraryTree_wellFormed (search_allows _ _)
      (.linkedDirectory hlinked rfl (.file hutil (by decide))) rfl
  · rw [← huris]
    exact mem_discover_uris libraryTree_wellFormed (search_allows _ _) (.file hmain (by decide)) rfl

/-- A link that leads back gives a file a second document. -/
theorem file_registered_twice :
    cyclicTree.WellFormed ∧
    Uri.ofPath "/app/main.m" ∈ ((empty .default false).discover cyclicTree "/app").1.uris ∧
    Uri.ofPath "/app/lib/../main.m" ∈ ((empty .default false).discover cyclicTree "/app").1.uris ∧
    Uri.ofPath "/app/main.m" ≠ Uri.ofPath "/app/lib/../main.m" ∧
    cyclicTree.Denotes "/app/main.m" ["app", "main.m"] ∧
    cyclicTree.Denotes "/app/lib/../main.m" ["app", "main.m"] := by
  have hlib : cyclicTree.Lists "/app" "lib" (.directory [("up", .link "..")]) :=
    ⟨cyclicListing, rfl, by simp [cyclicListing]⟩
  have hup : cyclicTree.Lists "/app/lib" "up" (.link "..") := ⟨[("up", .link "..")], rfl, by simp⟩
  have hmain : cyclicTree.Lists "/app" "main.m" (.file []) := ⟨cyclicListing, rfl, by simp [cyclicListing]⟩
  have hagain : cyclicTree.Lists "/app/lib/.." "main.m" (.file []) :=
    ⟨cyclicListing, rfl, by simp [cyclicListing]⟩
  refine ⟨cyclicTree_wellFormed, ?_, ?_, by decide +kernel, ⟨[], rfl⟩, ⟨[], rfl⟩⟩
  · exact mem_discover_uris cyclicTree_wellFormed (search_allows _ _) (.file hmain (by decide)) rfl
  · exact mem_discover_uris cyclicTree_wellFormed (search_allows _ _)
      (.directory hlib (.linkedDirectory hup rfl (.file hagain (by decide)))) rfl

end Index

end MatrixScript
