import LayeredConfig.Proofs.Listing
import LayeredConfig.Proofs.Separation
/-!
# Documents that are found

A directory may have any files and directories in it. Whatever name it lists can be read and deleted. A
collection is named after the directories that lead to it, joined by dots, and can be opened under this
name exactly where none of these has a dot in its own name (`Directory.addressable_iff`).
-/

namespace LayeredConfig.Directory

open FileTree

variable {root c n : String} {v : Store} {w w' : World} {names : List String}

/-- Whether a view leads to a collection that lists documents. -/
def Addressable (v : Store) (c : String) (w : World) : Prop :=
  ∃ u n names, View.collection v c w = .ok u w ∧ u.storage.list "" w = .ok (n :: names) w

theorem list_directory_eq_ok {start : String} :
    (Store.directory root c).storage.list start w = .ok names w' ↔
      w' = w ∧ ∃ found, namesIn w.files (collectionPath root c) = .ok found ∧
        Name.sortedUnique (found.filter (·.startsWith start)) = names := by
  show World.onFiles (list root c start) w = _ ↔ _
  rw [World.onFiles_eq_ok]
  constructor
  · rintro ⟨t, hlist, rfl⟩
    obtain ⟨rfl, hfound⟩ := list_eq_ok.mp hlist
    exact ⟨rfl, hfound⟩
  · rintro ⟨rfl, hfound⟩
    exact ⟨_, list_eq_ok.mpr ⟨rfl, hfound⟩, rfl⟩

/-- All names in a directory are listed where no other start is asked for. -/
theorem exists_list_cons_iff :
    (∃ n names, (Store.directory root c).storage.list "" w = .ok (n :: names) w) ↔
      ∃ n names, namesIn w.files (collectionPath root c) = .ok (n :: names) := by
  constructor
  · rintro ⟨n, names, hlist⟩
    obtain ⟨-, found, hfound, hsorted⟩ := list_directory_eq_ok.mp hlist
    have hmem : n ∈ found := by
      have hn : n ∈ Name.sortedUnique (found.filter (·.startsWith "")) := by
        rw [hsorted]
        exact List.mem_cons_self
      rw [Name.mem_sortedUnique] at hn
      exact (List.mem_filter.mp hn).1
    obtain ⟨m, rest, rfl⟩ := List.exists_cons_of_ne_nil (List.ne_nil_of_mem hmem)
    exact ⟨m, rest, hfound⟩
  · rintro ⟨n, found, hfound⟩
    have hmem : n ∈ Name.sortedUnique ((n :: found).filter (·.startsWith "")) := by
      rw [Name.mem_sortedUnique]
      simp
    obtain ⟨m, rest, hsorted⟩ := List.exists_cons_of_ne_nil (List.ne_nil_of_mem hmem)
    exact ⟨m, rest, list_directory_eq_ok.mpr ⟨rfl, n :: found, hfound, hsorted⟩⟩

/-- A collection can be opened and lists documents exactly where it is that of directories without dots
in their names. -/
theorem addressable_iff (hv : Opened root v) : Addressable v c w ↔
    ∃ q, Stocked w.files root q ∧ (∀ s ∈ q, '.' ∉ s.toList) ∧ ".".intercalate q = c := by
  obtain ⟨d, -, rfl⟩ := opened_iff.mp hv
  constructor
  · rintro ⟨u, n, names, hopen, hlist⟩
    obtain ⟨hc, rfl, -⟩ := Store.collection_directory_eq_ok.mp hopen
    have hundotted : ∀ s ∈ Name.segments c, '.' ∉ s.toList :=
      fun _ hs => Name.not_dot_of_mem_segments hs
    refine ⟨Name.segments c, ⟨fun s hs => ?_, ?_⟩, hundotted, Name.intercalate_segments c⟩
    · exact isListed_of_valid (List.all_eq_true.mp hc s hs) (hundotted s hs)
    · exact exists_list_cons_iff.mp ⟨n, names, hlist⟩
  · rintro ⟨q, hq, hundotted, rfl⟩
    have hvalid : ∀ s ∈ q, Name.isValid s = true := fun s hs => (isListed_iff.mp (hq.listed s hs)).2
    -- Cut at the dots, the name gives the directories back, as none of them has a dot.
    have hsegments : Name.segments (".".intercalate q) = q := Name.segments_of_isValid hvalid hundotted
    have hc : Name.isValidCollection (".".intercalate q) = true := by
      rw [Name.isValidCollection, hsegments, List.all_eq_true]
      exact hvalid
    have hpath : collectionPath root (".".intercalate q) = q.foldl Path.join root := by
      rw [collectionPath, hsegments]
    obtain ⟨n, names, hlist⟩ := exists_list_cons_iff.mpr (hpath ▸ hq.holds)
    exact ⟨_, n, names, Store.collection_directory_eq_ok.mpr ⟨hc, rfl, rfl⟩, hlist⟩

/-- A document that has a file is there, is not read as absent, and can be deleted. -/
theorem reached_of_isFile (hn : Name.isValid n = true)
    (h : w.files.isFile (documentPath root c n) = true) :
    (Store.directory root c).storage.contains n w = .ok true w ∧
      (∀ u, (Store.directory root c).storage.read n w ≠ .ok none u) ∧
      ∃ u, (Store.directory root c).storage.delete n w = .ok true u ∧
        (Store.directory root c).storage.contains n u = .ok false u := by
  have hcontains := contains_eq_isFile hn root c
  obtain ⟨t, hdelete, hgone⟩ := exists_delete_of_isFile hn h
  have hthere := hcontains w.files
  rw [h] at hthere
  have habsent := hcontains t
  rw [hgone] at habsent
  refine ⟨World.onFiles_ok hthere, ?_, { w with files := t }, World.onFiles_ok hdelete,
    World.onFiles_ok habsent⟩
  intro u hread
  obtain ⟨t', hnone, -⟩ := World.onFiles_eq_ok.mp hread
  exact read_ne_none_of_isFile hn h t' hnone

theorem collectionNames_directory_eq_ok :
    (Store.directory root c).storage.collectionNames w = .ok names w' ↔
      w' = w ∧ ∃ found, collectionsIn w.files root = .ok found ∧ Name.sortedUnique found = names := by
  show World.onFiles (storage root c).collectionNames w = _ ↔ _
  rw [World.onFiles_eq_ok]
  constructor
  · rintro ⟨t, hnames, rfl⟩
    obtain ⟨rfl, hfound⟩ := collectionNames_eq_ok.mp hnames
    exact ⟨rfl, hfound⟩
  · rintro ⟨rfl, hfound⟩
    exact ⟨_, collectionNames_eq_ok.mpr ⟨rfl, hfound⟩, rfl⟩

/-- Whatever is in a directory, each name that it lists starts as was asked for, is there, is not read as
absent, and can be deleted. Each collection that it names has documents in some directory below, and can be
opened under its name where no dot is in the names of the directories. -/
theorem listed_addressable (hv : Opened root v) (w : World) :
    (∀ start names w', v.storage.list start w = .ok names w' → w' = w ∧ ∀ n ∈ names,
      n.startsWith start = true ∧ v.storage.contains n w = .ok true w ∧
      (∀ u, v.storage.read n w ≠ .ok none u) ∧
      ∃ u, v.storage.delete n w = .ok true u ∧ v.storage.contains n u = .ok false u) ∧
    ∀ names w', v.storage.collectionNames w = .ok names w' → w' = w ∧ ∀ c ∈ names,
      (∃ q, Stocked w.files root q ∧ ".".intercalate q = c) ∧
      (Addressable v c w ↔
        ∃ q, Stocked w.files root q ∧ (∀ s ∈ q, '.' ∉ s.toList) ∧ ".".intercalate q = c) := by
  obtain ⟨c, -, rfl⟩ := opened_iff.mp hv
  constructor
  · intro start names w' hlist
    obtain ⟨rfl, found, hfound, rfl⟩ := list_directory_eq_ok.mp hlist
    refine ⟨rfl, fun n hn => ?_⟩
    rw [Name.mem_sortedUnique, List.mem_filter] at hn
    obtain ⟨hlisted, hfile⟩ := isFile_of_mem_namesIn hfound hn.1
    exact ⟨hn.2, reached_of_isFile (isListed_iff.mp hlisted).2 hfile⟩
  · intro names w' hnames
    obtain ⟨rfl, found, hfound, rfl⟩ := collectionNames_directory_eq_ok.mp hnames
    refine ⟨rfl, fun d hd => ⟨?_, addressable_iff hv⟩⟩
    rw [Name.mem_sortedUnique] at hd
    exact exists_stocked_of_mem hfound hd

/-- A directory with two more in it, one of which has a dot in its name. -/
def dottedWorld : World :=
  { World.empty with files := ⟨[(["sync"], .directory),
    (["sync", "language"], .directory),
    (["sync", "language", "system.site.yml"], .file "name: Beispiel\n".toUTF8),
    (["sync", "de.at"], .directory),
    (["sync", "de.at", "system.site.yml"], .file "name: Beispiel\n".toUTF8)]⟩ }

theorem collectionNames_dotted :
    (Store.directory "sync" "").storage.collectionNames dottedWorld =
      .ok ["de.at", "language"] dottedWorld :=
  collectionNames_directory_eq_ok.mpr ⟨rfl, ["language", "de.at"], by decide +kernel, by decide +kernel⟩

theorem namesIn_dotted : namesIn dottedWorld.files "sync/de/at" = .ok [] := by decide +kernel

/-- Of the two collections, the one without a dot can be opened and lists its document. -/
theorem listed_addressable_dotted :
    Opened "sync" (.directory "sync" "") ∧
      (Store.directory "sync" "").storage.collectionNames dottedWorld =
        .ok ["de.at", "language"] dottedWorld ∧
      Addressable (.directory "sync" "") "language" dottedWorld ∧
      ¬ Addressable (.directory "sync" "") "de.at" dottedWorld := by
  have hopened : Opened "sync" (.directory "sync" "") := .default
  obtain ⟨-, hall⟩ := (listed_addressable hopened dottedWorld).2 _ _ collectionNames_dotted
  refine ⟨hopened, collectionNames_dotted, ?_, ?_⟩
  · rw [(hall "language" (by simp)).2]
    refine ⟨["language"], ⟨?_, "system.site", [], by decide +kernel⟩, ?_, rfl⟩
    · decide +kernel
    · decide
  · rw [(hall "de.at" (by simp)).2]
    rintro ⟨q, ⟨hlisted, n, names, hholds⟩, hundotted, hq⟩
    have hsegments : Name.segments (".".intercalate q) = q :=
      Name.segments_of_isValid (fun s hs => (isListed_iff.mp (hlisted s hs)).2) hundotted
    rw [hq] at hsegments
    obtain rfl : ["de", "at"] = q := hsegments
    cases hholds.symm.trans namesIn_dotted

/-- The collection that is named after a directory with a dot can be opened, but lists nothing. -/
theorem discovered_dotted :
    (Store.directory "sync" "").storage.collectionNames dottedWorld =
        .ok ["de.at", "language"] dottedWorld ∧
      ∃ u, View.collection (Store.directory "sync" "") "de.at" dottedWorld = .ok u dottedWorld ∧
        u.storage.list "" dottedWorld = .ok [] dottedWorld := by
  refine ⟨collectionNames_dotted, .directory "sync" "de.at",
    Store.collection_directory_eq_ok.mpr ⟨by decide +kernel, rfl, rfl⟩, ?_⟩
  exact list_directory_eq_ok.mpr ⟨rfl, [], namesIn_dotted, rfl⟩

end LayeredConfig.Directory
