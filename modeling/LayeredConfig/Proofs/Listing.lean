import LayeredConfig.Proofs.Layout
/-!
# What a directory lists

Each name that is listed in a directory of any tree has a file (`isFile_of_mem_namesIn`). A document that
has a file is there, is not read as absent, and can be deleted. In a sound tree nothing is missing from the
list but what is hidden (`exists_namesIn_of_locate`).
-/

namespace LayeredConfig

namespace FileTree

variable {t u : FileTree} {p q : Place} {path root : String} {parts ss : List String}
  {content : ByteArray}

/-! ## Files at the ends of paths -/

theorem exists_of_isFile (h : t.isFile path = true) :
    ∃ p content, t.locate path = .ok p ∧ t.at? p = some (.file content) := by
  unfold isFile stat at h
  cases hlocate : t.locate path with
  | error f =>
    rw [hlocate] at h
    cases h
  | ok p =>
    rw [hlocate] at h
    simp only [bind, Except.bind] at h
    cases hat : t.at? p with
    | none =>
      rw [hat] at h
      cases h
    | some e =>
      rw [hat] at h
      cases e with
      | directory => cases h
      | file content => exact ⟨p, content, rfl, hat⟩

theorem stat_of_locate {e : Entry} (h : t.locate path = .ok p) (hat : t.at? p = some e) :
    t.stat path = .ok e := by
  unfold stat
  rw [h]
  simp only [bind, Except.bind, hat]

/-- What a path leads to, its steps lead to as well: a slash at the end leads no further. -/
theorem walk_of_locate (h : t.locate path = .ok p) :
    checkPath path = .ok () ∧ t.walk [] (Path.steps path) = .ok p := by
  unfold locate at h
  cases hcheck : checkPath path with
  | error f =>
    rw [hcheck] at h
    cases h
  | ok =>
    refine ⟨rfl, ?_⟩
    rw [hcheck] at h
    simp only [bind, Except.bind] at h
    rw [walk_append] at h
    cases hwalk : t.walk [] (Path.steps path) with
    | error f =>
      rw [hwalk] at h
      cases h
    | ok q =>
      rw [hwalk] at h
      simp only [Except.bind] at h
      split at h
      · unfold walk at h
        split at h
        · cases h
        · cases h
        · exact h
      · exact h

theorem walk_components (hparts : ∀ s ∈ parts, Path.Component s) (h : t.walk p parts = .ok q) :
    q = p ++ parts := by
  induction parts generalizing p with
  | nil =>
    cases h
    simp
  | cons s rest ih =>
    have hs := hparts s (by simp)
    unfold walk at h
    simp only [hs.ne_dot, hs.ne_dots, if_false] at h
    split at h
    · cases h
    · cases h
    · split at h
      · cases h
      · rw [ih (fun x hx => hparts x (List.mem_cons_of_mem s hx)) h]
        simp

/-- A file at the end of a path that goes on over components is in their place. -/
theorem exists_content_of_isFile (hroot : t.locate root = .ok p)
    (hparts : ∀ s ∈ parts, Path.Component s) (hsteps : Path.steps path = Path.steps root ++ parts)
    (h : t.isFile path = true) : ∃ content, t.at? (p ++ parts) = some (.file content) := by
  obtain ⟨q, content, hlocate, hat⟩ := exists_of_isFile h
  have hwalk := (walk_of_locate hlocate).2
  rw [hsteps, walk_append, (walk_of_locate hroot).2] at hwalk
  obtain rfl := walk_components hparts hwalk
  exact ⟨content, hat⟩

/-- What leads to something else than a directory does not lead through it. -/
theorem walk_drop (h : t.walk q ss = .ok p) (hat : t.at? p ≠ some .directory) :
    (t.drop p).walk q ss = .ok p := by
  have hne : p ≠ [] := by
    rintro rfl
    exact hat (at?_top t)
  induction ss generalizing q with
  | nil => exact h
  | cons name rest ih =>
    unfold walk at h ⊢
    split at h
    · cases h
    · cases h
    · next hq =>
      have hqp : p ≠ q := by
        rintro rfl
        exact hat hq
      rw [at?_drop t hne, if_neg hqp, hq]
      simp only
      split at h
      · next hdot =>
        rw [if_pos hdot]
        exact ih h
      · next hdot =>
        rw [if_neg hdot]
        split at h
        · next hdots =>
          rw [if_pos hdots]
          exact ih h
        · next hdots =>
          rw [if_neg hdots]
          split at h
          · cases h
          · next hshort =>
            rw [if_neg hshort]
            exact ih h

/-- A file that a path leads to can be taken away, and the path leads to no file then. -/
theorem remove_of_isFile {name : String} (hsteps : Path.steps path = ss ++ [name])
    (hname : Path.Component name) (hslash : Path.endsInSlash path = false)
    (h : t.isFile path = true) :
    ∃ u, t.remove path = .ok u ∧ u.isFile path = false := by
  obtain ⟨p, content, hlocate, hat⟩ := exists_of_isFile h
  obtain ⟨hcheck, hwalk⟩ := walk_of_locate hlocate
  have hne : p ≠ [] := by
    rintro rfl
    simp at hat
  have hlast : (Path.steps path).getLast? = some name := by rw [hsteps, List.getLast?_concat]
  have hslot : t.slot path .isDirectory = .ok p := by
    unfold slot
    rw [hcheck]
    simp [bind, Except.bind, hwalk, hlast, hname.ne_dot, hname.ne_dots]
  refine ⟨t.drop p, ?_, ?_⟩
  · unfold remove
    rw [hslot]
    simp [bind, Except.bind, hat, hslash]
  · have hdrop : (t.drop p).walk [] (Path.steps path) = .ok p := by
      apply walk_drop hwalk
      rw [hat]
      nofun
    have hnone : (t.drop p).at? p = none := by rw [at?_drop t hne, if_pos rfl]
    unfold isFile stat locate
    rw [hcheck, hslash]
    simp [bind, Except.bind, hdrop, hnone]

theorem list_of_locate (h : t.locate path = .ok p) (hat : t.at? p = some .directory) :
    t.list path = .ok (t.children p) := by
  unfold list
  rw [h]
  simp only [bind, Except.bind, hat]

/-- A path whose names are listed leads to a directory. -/
theorem exists_of_list {files : List (String × Entry)} (h : t.list path = .ok files) :
    ∃ p, t.locate path = .ok p ∧ t.at? p = some .directory ∧ files = t.children p := by
  unfold list at h
  cases hlocate : t.locate path with
  | error f =>
    rw [hlocate] at h
    cases h
  | ok p =>
    rw [hlocate] at h
    simp only [bind, Except.bind] at h
    split at h
    · next hat =>
      cases h
      exact ⟨p, rfl, hat, rfl⟩
    · cases h
    · cases h

end FileTree

namespace Directory

open FileTree

variable {t : FileTree} {p q : Place} {root dir c n : String} {names : List String}

/-! ## Names in a directory -/

/-- Whatever a directory lists is a document of an accepted name that is not hidden, and its file is
there. -/
theorem isFile_of_mem_namesIn (h : namesIn t dir = .ok names) (hn : n ∈ names) :
    isListed n = true ∧ t.isFile (Path.join dir (fileName n)) = true := by
  unfold namesIn at h
  split at h
  · next files hfiles =>
    cases h
    obtain ⟨file, hfile, hname⟩ := List.mem_filterMap.mp hn
    obtain ⟨rfl, hlisted⟩ := documentName?_eq_some.mp hname
    exact ⟨hlisted, (List.mem_filter.mp hfile).2⟩
  · cases h
    cases hn
  · cases h

/-- A directory of a sound tree lists all files that are those of documents and not hidden. -/
theorem exists_namesIn_of_locate (ht : t.Sound) (hdir : t.locate dir = .ok p)
    (hp : t.at? p = some .directory) : ∃ names, namesIn t dir = .ok names ∧
      ∀ n, n ∈ names ↔ isListed n = true ∧ t.isFile (Path.join dir (fileName n)) = true := by
  obtain ⟨names, hnames⟩ : ∃ names, namesIn t dir = .ok names := by
    unfold namesIn
    rw [list_of_locate hdir hp]
    exact ⟨_, rfl⟩
  refine ⟨names, hnames, fun n => ⟨isFile_of_mem_namesIn hnames, ?_⟩⟩
  rintro ⟨hlisted, hfile⟩
  have hcomponent := component_fileName (isListed_iff.mp hlisted).2
  have hsteps : Path.steps (Path.join dir (fileName n)) = Path.steps dir ++ [fileName n] :=
    Path.steps_join hcomponent.not_slash hcomponent.ne_empty
  obtain ⟨content, hat⟩ := exists_content_of_isFile hdir (by simpa using hcomponent) hsteps hfile
  unfold namesIn at hnames
  rw [list_of_locate hdir hp] at hnames
  cases hnames
  rw [List.mem_filterMap]
  refine ⟨fileName n, ?_, documentName?_eq_some.mpr ⟨rfl, hlisted⟩⟩
  rw [List.mem_filter]
  exact ⟨List.mem_map_of_mem (ht.mem_children.mpr hat), hfile⟩

/-! ## Collections of a directory -/

/-- Whether a directory below a root counts as a collection: no name on the way is hidden, and it lists
documents. -/
structure Stocked (t : FileTree) (root : String) (q : Place) : Prop where
  listed : ∀ s ∈ q, isListed s = true
  holds : ∃ n names, namesIn t (q.foldl Path.join root) = .ok (n :: names)

theorem collectionOf?_eq_some :
    collectionOf? t root q = some c ↔ Stocked t root q ∧ ".".intercalate q = c := by
  unfold collectionOf?
  constructor
  · intro h
    split at h
    · next n names hall hnames =>
      cases h
      exact ⟨⟨List.all_eq_true.mp hall, n, names, hnames⟩, rfl⟩
    · cases h
  · rintro ⟨⟨hlisted, n, names, hnames⟩, rfl⟩
    rw [List.all_eq_true.mpr hlisted, hnames]

theorem exists_stocked_of_mem {names : List String} (h : collectionsIn t root = .ok names)
    (hc : c ∈ names) : ∃ q, Stocked t root q ∧ ".".intercalate q = c := by
  unfold collectionsIn at h
  split at h
  · cases h
    obtain ⟨q, -, hq⟩ := List.mem_filterMap.mp hc
    exact ⟨q, collectionOf?_eq_some.mp hq⟩
  · cases h
    cases hc
  · cases h
  · cases h

/-! ## Operations -/

theorem list_eq_ok {start : String} {u : FileTree} : list root c start t = .ok names u ↔
    u = t ∧ ∃ found, namesIn t (collectionPath root c) = .ok found ∧
      Name.sortedUnique (found.filter (·.startsWith start)) = names := by
  show (Run.ofExcept (namesIn t (collectionPath root c)) >>= fun found =>
    pure (Name.sortedUnique (found.filter (·.startsWith start))) : Run FileTree (List String)) t = _ ↔ _
  exact Run.ofExcept_bind_eq_ok

theorem collectionNames_eq_ok {u : FileTree} : (storage root c).collectionNames t = .ok names u ↔
    u = t ∧ ∃ found, collectionsIn t root = .ok found ∧ Name.sortedUnique found = names := by
  show (Run.ofExcept (collectionsIn t root) >>= fun found =>
    pure (Name.sortedUnique found) : Run FileTree (List String)) t = _ ↔ _
  exact Run.ofExcept_bind_eq_ok

section Files

variable (hn : Name.isValid n = true)

include hn

theorem contains_eq_isFile (root c : String) (t : FileTree) :
    (storage root c).contains n t = .ok (t.isFile (documentPath root c n)) t := by
  show (do
    let t ← get
    let path ← Run.ofExcept (filePath root c n)
    return t.isFile path : Run FileTree Bool) t = _
  rw [filePath_of_isValid hn]
  rfl

/-- What is read is the document whose text the file has. -/
theorem read_of_stat {text : String} {d : Document}
    (hstat : t.stat (documentPath root c n) = .ok (.file text.toUTF8))
    (hdecode : Document.decode text = .ok d) : Directory.read root c n t = .ok (some d) t := by
  have htext : t.readText (documentPath root c n) = .ok text := by
    have hutf8 : String.fromUTF8? text.toUTF8 = some text := dif_pos text.isValidUTF8
    simp only [FileTree.readText, FileTree.read, hstat, bind, Except.bind, hutf8]
  rw [Directory.read, filePath_of_isValid hn]
  refine (Run.bind_ok rfl _).trans ?_
  refine (Run.bind_ok rfl _).trans ?_
  simp only [htext, hdecode]
  rfl

variable (h : t.isFile (documentPath root c n) = true)

include h

/-- What has a file is not read as absent, whatever is in the file. -/
theorem read_ne_none_of_isFile (u : FileTree) : read root c n t ≠ .ok none u := by
  obtain ⟨p, content, hlocate, hat⟩ := exists_of_isFile h
  have hmissing : t.readText (documentPath root c n) ≠ .error .notFound := by
    unfold readText FileTree.read
    rw [stat_of_locate hlocate hat]
    simp only [bind, Except.bind]
    split
    · nofun
    · nofun
  unfold Directory.read
  rw [filePath_of_isValid hn]
  intro hread
  obtain ⟨path, t', hpath, hread⟩ := Run.bind_eq_ok.mp hread
  cases hpath
  obtain ⟨t', t'', hget, hread⟩ := Run.bind_eq_ok.mp hread
  cases hget
  cases htext : t.readText (documentPath root c n) with
  | error f =>
    rw [htext] at hread hmissing
    cases f with
    | notFound => exact hmissing rfl
    | _ => cases hread
  | ok text =>
    rw [htext] at hread
    cases hdecode : Document.decode text with
    | error f =>
      simp only [hdecode] at hread
      cases hread
    | ok d =>
      simp only [hdecode] at hread
      cases hread

/-- What has a file can be deleted, and has none then. -/
theorem exists_delete_of_isFile : ∃ u, delete root c n t = .ok true u ∧
    u.isFile (documentPath root c n) = false := by
  have hcomponent := component_fileName hn
  have hsteps : Path.steps (documentPath root c n) =
      Path.steps (collectionPath root c) ++ [fileName n] :=
    Path.steps_join hcomponent.not_slash hcomponent.ne_empty
  have hslash : Path.endsInSlash (documentPath root c n) = false :=
    Path.endsInSlash_join hcomponent.not_slash hcomponent.ne_empty
  obtain ⟨u, hremove, hgone⟩ := remove_of_isFile hsteps hcomponent hslash h
  refine ⟨u, ?_, hgone⟩
  unfold delete
  rw [filePath_of_isValid hn]
  refine (Run.bind_ok rfl _).trans ?_
  refine (Run.bind_ok rfl _).trans ?_
  rw [hremove]
  rfl

end Files

end Directory

end LayeredConfig
