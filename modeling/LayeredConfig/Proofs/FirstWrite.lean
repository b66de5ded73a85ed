import LayeredConfig.Proofs.Likeness
/-!
# The first document of a directory

A document of any accepted name can be written in an empty directory, where the file system can keep its
file and the hidden one (`Directory.Storable`). It is there then and is read as it was written. It is
listed, and its collection named, unless its name starts with a dot (`Directory.first_write`).
-/

namespace LayeredConfig.Directory

open FileTree

variable {root c n m : String} {t u : FileTree} {q : Place} {content : ByteArray}

/-- Nothing is below a directory that lists nothing. -/
theorem vacant_of_list (ht : t.Sound) (h : t.list root = .ok []) : Vacant root t := by
  obtain ⟨p, hlocate, hat, hchildren⟩ := exists_of_list h
  obtain ⟨hcheck, hwalk⟩ := walk_of_locate hlocate
  obtain ⟨hmade, hshort, rfl⟩ := made_of_walk hwalk hat
  have hempty : ∀ q ≠ [], t.at? (top root ++ q) = none := fun q hq => ht.none_below hchildren.symm hq
  refine ⟨hcheck, ht, hmade.free hshort, fun q hq hway => ?_, hempty⟩
  have hdirectory := hmade _ hway
  rw [hempty q hq] at hdirectory
  cases hdirectory

section Wrote

/-! ## What is there after a write -/

variable (hvacant : Vacant root t) (hc : fitsCollection root c = true) (hn : Name.isValid n = true)
  (h : Wrote t (Path.names root ++ Name.segments c) (fileName n) content u)

include hvacant hc h

theorem made_of_wrote : u.Made [] (Path.names root ++ Name.segments c) :=
  h.made (hvacant.kept.room (fitsCollection_iff.mp hc).1 n)

theorem locate_of_wrote : u.locate root = .ok (top root) := by
  have hmade : u.Made [] (Path.names root) := (made_of_wrote hvacant hc h).append_left
  exact locate_of_made hvacant.check (hmade.free hvacant.free.short) hmade

/-- There is no file but that of the document. -/
theorem eq_below_of_wrote {content' : ByteArray} (hq : q ≠ [])
    (hat : u.at? (top root ++ q) = some (.file content')) : q = below c n := by
  rcases cases_of_wrote (fitsCollection_iff.mp hc).1 h q with ⟨hbelow, -⟩ | hnone | ⟨-, hway⟩ | hold
  · exact hbelow
  · rw [hnone] at hat
    cases hat
  · rw [hway] at hat
    cases hat
  · rw [hold, hvacant.empty q hq] at hat
    cases hat

/-- No other file is found under listed names than that of the document. -/
theorem eq_of_isFile (hq : ∀ s ∈ q, isListed s = true) (hm : isListed m = true)
    (hfile : u.isFile (Path.join (q.foldl Path.join root) (fileName m)) = true) :
    q = Name.segments c ∧ m = n := by
  have hfileName := component_fileName (isListed_iff.mp hm).2
  have hqs : ∀ s ∈ q, Path.Component s := fun s hs => component_of_isListed (hq s hs)
  have hparts := component_append_fileName hqs (isListed_iff.mp hm).2
  have hsteps : Path.steps (Path.join (q.foldl Path.join root) (fileName m)) =
      Path.steps root ++ (q ++ [fileName m]) := by
    rw [Path.steps_join hfileName.not_slash hfileName.ne_empty, Path.steps_foldl_join hqs,
      List.append_assoc]
  obtain ⟨content', hat⟩ :=
    exists_content_of_isFile (locate_of_wrote hvacant hc h) hparts hsteps hfile
  obtain ⟨hsegments, hlast⟩ := List.append_inj' (eq_below_of_wrote hvacant hc h (by simp) hat) rfl
  exact ⟨hsegments, fileName_injective (by simpa using hlast)⟩

include hn

theorem stat_of_wrote (hstorable : Storable root c n) :
    u.stat (documentPath root c n) = .ok (.file content) := by
  have hadmits := (fitsCollection_iff.mp hc).1
  have hleads := leads_of_isValid hvacant.check hc hn hstorable.short hstorable.nonzero hstorable.path
  exact h.stat (hvacant.kept.room hadmits n) (hvacant.kept.free_collection hadmits) hleads

theorem isFile_of_wrote (hstorable : Storable root c n) :
    u.isFile (documentPath root c n) = true := by
  unfold isFile
  rw [stat_of_wrote hvacant hc hn h hstorable]
  rfl

/-- The collection lists the document, unless it is hidden, and nothing else. -/
theorem exists_namesIn_of_wrote (hstorable : Storable root c n) : ∃ names,
    namesIn u (collectionPath root c) = .ok names ∧ ∀ m, m ∈ names ↔ m = n ∧ isListed n = true := by
  have hvalid := isValidCollection_of_admits (fitsCollection_iff.mp hc).1
  have hcheck := checkPath_collectionPath hvacant.check hc
  have hmade := made_of_wrote hvacant hc h
  have hfree := hmade.free (hvacant.kept.free_collection (fitsCollection_iff.mp hc).1).short
  rw [← names_collectionPath root hvalid] at hmade hfree
  obtain ⟨names, hnames, hmem⟩ := exists_namesIn_of_locate h.sound
    (locate_of_made hcheck hfree hmade) hmade.reach
  refine ⟨names, hnames, fun m => (hmem m).trans ?_⟩
  constructor
  · rintro ⟨hm, hfile⟩
    have hlisted : ∀ s ∈ Name.segments c, isListed s = true :=
      fun s hs => (segment_of_mem (fitsCollection_iff.mp hc).1 hs).isListed
    obtain ⟨-, rfl⟩ := eq_of_isFile hvacant hc h hlisted hm hfile
    exact ⟨rfl, hm⟩
  · rintro ⟨rfl, hlisted⟩
    exact ⟨hlisted, isFile_of_wrote hvacant hc hn h hstorable⟩

/-- The collection is the only one that holds documents, unless the document is hidden. -/
theorem stocked_of_wrote (hstorable : Storable root c n) :
    Stocked u root q ↔ q = Name.segments c ∧ isListed n = true := by
  constructor
  · rintro ⟨hlisted, m, names, hholds⟩
    obtain ⟨hm, hfile⟩ := isFile_of_mem_namesIn hholds List.mem_cons_self
    obtain ⟨hq, rfl⟩ := eq_of_isFile hvacant hc h hlisted hm hfile
    exact ⟨hq, hm⟩
  · rintro ⟨rfl, hlisted⟩
    obtain ⟨names, hnames, hmem⟩ := exists_namesIn_of_wrote hvacant hc hn h hstorable
    obtain ⟨m, rest, rfl⟩ := List.exists_cons_of_ne_nil
      (List.ne_nil_of_mem ((hmem n).mpr ⟨rfl, hlisted⟩))
    exact ⟨fun s hs => (segment_of_mem (fitsCollection_iff.mp hc).1 hs).isListed, m, rest, hnames⟩

theorem exists_collectionsIn_of_wrote (hstorable : Storable root c n) : ∃ names,
    collectionsIn u root = .ok names ∧
      ∀ d, d ∈ names ↔ d = c ∧ c ≠ Name.defaultCollection ∧ isListed n = true := by
  have hmade := made_of_wrote hvacant hc h
  have hroot : u.Made [] (Path.names root) := hmade.append_left
  have hlocate := locate_of_wrote hvacant hc h
  refine ⟨(u.directoriesBelow (top root)).filterMap (collectionOf? u root), ?_, fun d => ?_⟩
  · unfold collectionsIn
    rw [list_of_locate hlocate hroot.reach, hlocate]
  · rw [List.mem_filterMap]
    constructor
    · rintro ⟨q, hq, hd⟩
      obtain ⟨hstocked, rfl⟩ := collectionOf?_eq_some.mp hd
      obtain ⟨rfl, hlisted⟩ := (stocked_of_wrote hvacant hc hn h hstorable).mp hstocked
      refine ⟨Name.intercalate_segments c, ?_, hlisted⟩
      rintro rfl
      exact (h.sound.mem_directoriesBelow.mp hq).1 rfl
    · rintro ⟨rfl, hne, hlisted⟩
      have hstocked := (stocked_of_wrote hvacant hc hn h hstorable).mpr ⟨rfl, hlisted⟩
      refine ⟨Name.segments d, h.sound.mem_directoriesBelow.mpr ⟨?_, ?_⟩,
        collectionOf?_eq_some.mpr ⟨hstocked, Name.intercalate_segments d⟩⟩
      · intro hnil
        exact hne (Name.segments_injective (d := Name.defaultCollection) hnil)
      · rw [← reach_way root (fitsCollection_iff.mp hc).1]
        exact hmade.reach

end Wrote

/-! ## Writing in an empty directory -/

/-- A write that answers is one of a document that the file system can keep. -/
theorem short_of_write {d : Document} {b : Bool} (hn : Name.isValid n = true)
    (h : write root c n d t = .ok b u) :
    n.utf8ByteSize ≤ 246 ∧ checkPath (documentPath root c n) = .ok () := by
  unfold write at h
  rw [filePath_of_isValid hn] at h
  obtain ⟨path, t₁, hpath, h⟩ := Run.bind_eq_ok.mp h
  cases hpath
  obtain ⟨text, t₂, -, h⟩ := Run.bind_eq_ok.mp h
  obtain ⟨⟨⟩, t₃, hwrite, -⟩ := Run.bind_eq_ok.mp h
  obtain ⟨hidden, v, p, htemporary, hcheck, -, hwalk⟩ := exists_of_writeAtomically hwrite
  refine ⟨?_, hcheck⟩
  have hfile := component_fileName hn
  have hhidden := component_hiddenName hfile.not_slash
  obtain ⟨parent, -, hparent, -, -, -⟩ :=
    exists_temporary_of_names (Path.names_join hfile) hfile.ne_dots
  obtain rfl := Except.ok.inj (htemporary.symm.trans hparent)
  rw [Path.steps_join hhidden.not_slash hhidden.ne_empty] at hwalk
  have hshort := short_of_walk hhidden hwalk
  rw [utf8ByteSize_hiddenName, utf8ByteSize_fileName, maxNameBytes] at hshort
  omega

/-- What a directory answers that had nothing in it until a document was written. -/
theorem exists_write_of_vacant {d : Document} (hvacant : Vacant root t)
    (hvalid : Name.isValidCollection c = true) (hzero : '\x00' ∉ c.toList) (hn : Name.isValid n = true)
    (hstorable : Storable root c n) (hd : d.recalled = true) : ∃ u, write root c n d t = .ok true u ∧
      (storage root c).contains n u = .ok true u ∧
      (∃ e, read root c n u = .ok (some e) u ∧ e.same d = true) ∧
      (∃ names, list root c "" u = .ok names u ∧ (n ∈ names ↔ n.startsWith "." = false)) ∧
      ∃ names, (storage root c).collectionNames u = .ok names u ∧
        (c ∈ names ↔ c ≠ Name.defaultCollection ∧ n.startsWith "." = false) := by
  have hc : fitsCollection root c = true := by
    have hle := add_le_join (collectionPath root c) (fileName n)
    have hpath := hstorable.path
    rw [documentPath] at hpath
    exact fitsCollection_iff.mpr ⟨admitsCollection_of_isValid hvalid hzero, by omega⟩
  obtain ⟨text, e, hencode, hdecode, hsame⟩ := Document.recalled_iff.mp hd
  obtain ⟨u, hwrite, hwrote⟩ :=
    exists_write_of_isValid hvacant.kept hvacant.check hc hn hstorable hencode
  have hstat := stat_of_wrote hvacant hc hn hwrote hstorable
  have hcontains := contains_eq_isFile hn root c u
  rw [isFile_of_wrote hvacant hc hn hwrote hstorable] at hcontains
  obtain ⟨names, hnames, hmem⟩ := exists_namesIn_of_wrote hvacant hc hn hwrote hstorable
  obtain ⟨collections, hcollections, hmemc⟩ :=
    exists_collectionsIn_of_wrote hvacant hc hn hwrote hstorable
  have hlisted : isListed n = true ↔ n.startsWith "." = false := by simp [isListed_iff, hn]
  refine ⟨u, hwrite, hcontains, ⟨e, read_of_stat hn hstat hdecode, hsame⟩,
    ⟨_, list_eq_ok.mpr ⟨rfl, names, hnames, rfl⟩, ?_⟩,
    _, collectionNames_eq_ok.mpr ⟨rfl, collections, hcollections, rfl⟩, ?_⟩
  · rw [Name.mem_sortedUnique, List.mem_filter, hmem, ← hlisted]
    simp
  · rw [Name.mem_sortedUnique, hmemc, ← hlisted]
    simp

/-- In an empty directory, a document of any accepted name that the file system can keep is written. It is
there then, and is read as it was written. It is listed, and its collection named, unless its name starts
with a dot. -/
theorem first_write {v : Store} {w : World} {d : Document} (hsound : w.files.Sound)
    (hempty : w.files.list root = .ok [])
    (hopen : View.collection (Store.directory root Name.defaultCollection) c w = .ok v w)
    (hzero : '\x00' ∉ c.toList) (hn : Name.isValid n = true) (hstorable : Storable root c n)
    (hd : d.recalled = true) : ∃ u, v.storage.write n d w = .ok true u ∧
      v.storage.contains n u = .ok true u ∧
      (∃ e, v.storage.read n u = .ok (some e) u ∧ e.same d = true) ∧
      (∃ names, v.storage.list "" u = .ok names u ∧ (n ∈ names ↔ n.startsWith "." = false)) ∧
      ∃ names, v.storage.collectionNames u = .ok names u ∧
        (c ∈ names ↔ c ≠ Name.defaultCollection ∧ n.startsWith "." = false) := by
  obtain ⟨hvalid, rfl, -⟩ := Store.collection_directory_eq_ok.mp hopen
  obtain ⟨t, hwrite, hcontains, ⟨e, hread, hsame⟩, ⟨names, hlist, hmem⟩, collections, hcollections,
    hmemc⟩ := exists_write_of_vacant (vacant_of_list hsound hempty) hvalid hzero hn hstorable hd
  exact ⟨{ w with files := t }, World.onFiles_ok hwrite, World.onFiles_ok hcontains,
    ⟨e, World.onFiles_ok hread, hsame⟩, ⟨names, World.onFiles_ok hlist, hmem⟩,
    collections, World.onFiles_ok hcollections, hmemc⟩

/-- A world with an empty directory. -/
def emptyWorld : World := { World.empty with files := ⟨[(["sync"], .directory)]⟩ }

theorem sound_empty : emptyWorld.files.Sound where
  distinct := by simp [emptyWorld]
  proper := by simp [emptyWorld]
  closed p name h := by
    rw [at?, if_neg (by simp), emptyWorld, find?] at h
    split at h
    · next heq =>
      obtain ⟨rfl, -⟩ := List.append_inj' (show [] ++ ["sync"] = p ++ [name] from heq) rfl
      exact at?_top _
    · exact (h rfl).elim

/-- A document is written in a collection of an empty directory. -/
theorem first_write_sync :
    let v := Store.directory "sync" "language.de"
    let d : Document := .ofList [("name", .string "Beispiel")]
    emptyWorld.files.Sound ∧ emptyWorld.files.list "sync" = .ok [] ∧
      View.collection (Store.directory "sync" Name.defaultCollection) "language.de" emptyWorld =
        .ok v emptyWorld ∧
      '\x00' ∉ "language.de".toList ∧ Name.isValid "system.site" = true ∧
      Storable "sync" "language.de" "system.site" ∧ d.recalled = true ∧
      ∃ u, v.storage.write "system.site" d emptyWorld = .ok true u ∧
        (∃ names, v.storage.list "" u = .ok names u ∧ "system.site" ∈ names) ∧
        ∃ names, v.storage.collectionNames u = .ok names u ∧ "language.de" ∈ names := by
  intro v d
  have hempty : emptyWorld.files.list "sync" = .ok [] := by rfl
  have hopen : View.collection (Store.directory "sync" Name.defaultCollection) "language.de" emptyWorld =
      .ok v emptyWorld := Store.collection_directory_eq_ok.mpr ⟨by decide +kernel, rfl, rfl⟩
  have hzero : '\x00' ∉ "language.de".toList := by decide
  have hn : Name.isValid "system.site" = true := by decide +kernel
  have hstorable : Storable "sync" "language.de" "system.site" :=
    storable_of_fitsWriting (by decide +kernel)
  have hd : d.recalled = true := by decide +kernel
  have hdot : "system.site".startsWith "." = false := by decide +kernel
  obtain ⟨u, hwrite, -, -, ⟨names, hlist, hmem⟩, collections, hcollections, hmemc⟩ :=
    first_write sound_empty hempty hopen hzero hn hstorable hd
  exact ⟨sound_empty, hempty, hopen, hzero, hn, hstorable, hd, u, hwrite,
    ⟨names, hlist, hmem.mpr hdot⟩, collections, hcollections, hmemc.mpr ⟨by decide, hdot⟩⟩

/-- A name that is accepted, and too long for the hidden file of its document. -/
theorem isValid_long : Name.isValid (String.ofList (List.replicate 247 'a')) = true := by
  rw [Name.isValid_iff]
  refine ⟨by decide +kernel, by decide +kernel, fun c hc => ?_⟩
  rw [String.toList_ofList] at hc
  rw [List.eq_of_mem_replicate hc]
  decide +kernel

/-- What is written under a hidden name is there, but is not listed. Under names that the file system
cannot keep, or in collections of such names, nothing is written. -/
theorem first_write_exceptions :
    let v := Store.directory "sync"
    let d : Document := .ofList [("name", .string "Beispiel")]
    emptyWorld.files.Sound ∧ emptyWorld.files.list "sync" = .ok [] ∧ d.recalled = true ∧
      (Name.isValid ".site" = true ∧ ∃ u, (v "").storage.write ".site" d emptyWorld = .ok true u ∧
        (v "").storage.contains ".site" u = .ok true u ∧
        ∃ names, (v "").storage.list "" u = .ok names u ∧ ".site" ∉ names) ∧
      (∀ n ∈ [String.ofList (List.replicate 247 'a'), "a\x00"], Name.isValid n = true ∧
        ∀ u, (v "").storage.write n d emptyWorld ≠ .ok true u) ∧
      ∀ c ∈ ["a\x00", deepCollection 600], Name.isValidCollection c = true ∧
        Name.isValid "system.site" = true ∧
        ∀ u, (v c).storage.write "system.site" d emptyWorld ≠ .ok true u := by
  intro v d
  have hd : d.recalled = true := by decide +kernel
  have hsite : Name.isValid ".site" = true := by decide +kernel
  have hsystem : Name.isValid "system.site" = true := by decide +kernel
  have hstorable : Storable "sync" Name.defaultCollection ".site" :=
    storable_of_size hsite (by decide) (by decide) (by decide +kernel)
  obtain ⟨t, hwrite, hcontains, -, ⟨names, hlist, hmem⟩, -⟩ :=
    exists_write_of_vacant (vacant_of_list sound_empty rfl) (by decide +kernel) (by decide) hsite
      hstorable hd
  have hhidden : ".site" ∉ names := by
    rw [hmem]
    decide +kernel
  have hrefused : ∀ {c n}, Name.isValid n = true → ∀ u,
      (v c).storage.write n d emptyWorld = .ok true u →
        n.utf8ByteSize ≤ 246 ∧ checkPath (documentPath "sync" c n) = .ok () := by
    intro c n hn u hwrite
    obtain ⟨t, hwrite, -⟩ := World.onFiles_eq_ok.mp hwrite
    exact short_of_write hn hwrite
  let u : World := ⟨emptyWorld.shelves, t, emptyWorld.journals⟩
  refine ⟨sound_empty, rfl, hd, ⟨hsite, u, World.onFiles_ok hwrite,
    World.onFiles_ok (w := u) hcontains, names, World.onFiles_ok (w := u) hlist, hhidden⟩, ?_, ?_⟩
  · simp only [List.mem_cons, List.not_mem_nil, or_false]
    rintro n (rfl | rfl)
    · refine ⟨isValid_long, fun u hwrite => ?_⟩
      exact absurd (hrefused isValid_long u hwrite).1 (by decide +kernel)
    · have hn : Name.isValid "a\x00" = true := by decide +kernel
      refine ⟨hn, fun u hwrite => ?_⟩
      exact absurd (hrefused hn u hwrite).2 (by decide +kernel)
  · have hvalid := isValidCollection_of_admits (admitsCollection_of_segment (segment_deep 600))
    have hdeep := mul_le_deep "sync" 600
    rw [← deepCollection] at hvalid
    -- Nothing but its length counts of the deep collection, which is too long to be evaluated.
    generalize deepCollection 600 = deep at hvalid hdeep ⊢
    simp only [List.mem_cons, List.not_mem_nil, or_false]
    rintro c (rfl | rfl)
    · refine ⟨by decide +kernel, hsystem, fun u hwrite => ?_⟩
      exact absurd (hrefused hsystem u hwrite).2 (by decide +kernel)
    · refine ⟨hvalid, hsystem, fun u hwrite => ?_⟩
      have hcheck := (checkPath_eq_ok.mp (hrefused hsystem u hwrite).2).2.2
      have hjoin := add_le_join (collectionPath "sync" c) (fileName "system.site")
      rw [documentPath, pathLimit] at hcheck
      omega

end LayeredConfig.Directory
