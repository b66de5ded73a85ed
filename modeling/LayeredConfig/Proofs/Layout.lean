import LayeredConfig.Proofs.Atomic
import LayeredConfig.Storage.Directory
/-!
# Layout of a directory

Where a directory keeps documents: each collection has a place, and each document a file there. The
segments of a collection have no dot, and files have one, so that no two documents share a file
(`Directory.below_injective`), and no file is in the place of a collection.
-/

namespace LayeredConfig

namespace Name

theorem not_dot_of_mem_segments {c s : String} (h : s ∈ segments c) : '.' ∉ s.toList := by
  rw [segments] at h
  split at h
  · cases h
  · exact not_mem_of_mem_parts h

theorem intercalate_segments (c : String) : ".".intercalate (segments c) = c := by
  rw [segments]
  split
  · next hempty => rw [String.isEmpty_iff.mp hempty, String.intercalate_nil]
  · exact intercalate_parts '.' c

theorem segments_injective {c d : String} (h : segments c = segments d) : c = d := by
  rw [← intercalate_segments c, h, intercalate_segments]

/-- The segments of a collection that is named by some. -/
theorem segments_intercalate {ss : List String} (h : ∀ s ∈ ss, '.' ∉ s.toList ∧ s ≠ "") :
    segments (".".intercalate ss) = ss := by
  cases ss with
  | nil => rfl
  | cons s rest =>
    have hne : ¬ (".".intercalate (s :: rest)).isEmpty = true := by
      rw [String.isEmpty_iff]
      intro hempty
      have hs := (h s (by simp)).2
      cases rest with
      | nil => exact hs (by simpa using hempty)
      | cons s' rest =>
        rw [String.intercalate_cons_cons] at hempty
        have hbytes := congrArg String.utf8ByteSize hempty
        simp at hbytes
    rw [segments, if_neg hne]
    exact parts_intercalate (by simp) fun s hs => (h s hs).1

/-- What an accepted name is like. -/
theorem isValid_iff {name : String} : isValid name = true ↔
    name ≠ "" ∧ name.utf8ByteSize ≤ maxBytes ∧ ∀ c ∈ name.toList, isNameCharacter c = true := by
  simp [isValid, and_assoc]

theorem segments_of_isValid {ss : List String} (hvalid : ∀ s ∈ ss, isValid s = true)
    (hundotted : ∀ s ∈ ss, '.' ∉ s.toList) : segments (".".intercalate ss) = ss :=
  segments_intercalate fun s hs => ⟨hundotted s hs, (isValid_iff.mp (hvalid s hs)).1⟩

theorem not_slash_of_isValid {name : String} (h : isValid name = true) : '/' ∉ name.toList := by
  intro hslash
  have hchar := (isValid_iff.mp h).2.2 '/' hslash
  cases hchar

end Name

namespace Directory

/-! ## Names that a directory can keep -/

/-- Whether a document of a name can be kept: the name is listed, leaves room for the extension and the
affixes of a hidden file, and can stand in a path. -/
def admits (name : String) : Bool :=
  isListed name && name.utf8ByteSize ≤ 246 && !name.toList.contains '\x00'

/-- Whether all segments of a collection can be kept. -/
def admitsCollection (collection : String) : Bool :=
  (Name.segments collection).all fun s => Name.isValid s && !s.toList.contains '\x00'

variable {c d n m s : String} {ss : List String}

theorem admits_iff : admits n = true ↔
    isListed n = true ∧ n.utf8ByteSize ≤ 246 ∧ '\x00' ∉ n.toList := by
  simp [admits, and_assoc]

theorem isListed_iff : isListed n = true ↔ n.startsWith "." = false ∧ Name.isValid n = true := by
  simp [isListed]

/-- What segments of collections are like. -/
structure Segment (s : String) : Prop where
  valid : Name.isValid s = true
  nonzero : '\x00' ∉ s.toList
  undotted : '.' ∉ s.toList

theorem segment_of_mem (hc : admitsCollection c = true) (hs : s ∈ Name.segments c) : Segment s := by
  have h := List.all_eq_true.mp hc s hs
  simp only [Bool.and_eq_true, Bool.not_eq_true', List.contains_eq_mem,
    decide_eq_false_iff_not] at h
  exact ⟨h.1, h.2, Name.not_dot_of_mem_segments hs⟩

theorem isValidCollection_of_admits (hc : admitsCollection c = true) :
    Name.isValidCollection c = true :=
  List.all_eq_true.mpr fun _ hs => (segment_of_mem hc hs).valid

/-- An accepted collection can be kept if there is no zero in its name. -/
theorem admitsCollection_of_isValid (hc : Name.isValidCollection c = true) (hzero : '\x00' ∉ c.toList) :
    admitsCollection c = true := by
  refine List.all_eq_true.mpr fun s hs => ?_
  have hnonzero : '\x00' ∉ s.toList := by
    intro hmem
    rw [Name.segments] at hs
    split at hs
    · cases hs
    · obtain ⟨before, after, rfl⟩ := Name.exists_append_of_mem_parts hs
      exact hzero (by simp [hmem])
  simp [List.all_eq_true.mp hc s hs, hnonzero]

/-- Segments name a collection. -/
theorem segments_of_segment (h : ∀ s ∈ ss, Segment s) : Name.segments (".".intercalate ss) = ss :=
  Name.segments_of_isValid (fun s hs => (h s hs).valid) fun s hs => (h s hs).undotted

theorem admitsCollection_of_segment (h : ∀ s ∈ ss, Segment s) :
    admitsCollection (".".intercalate ss) = true := by
  rw [admitsCollection, segments_of_segment h, List.all_eq_true]
  intro s hs
  simp [(h s hs).valid, (h s hs).nonzero]

/-- What has no dot leads down. -/
theorem component_of_valid (h : Name.isValid s = true) (hdot : '.' ∉ s.toList) : Path.Component s where
  ne_empty := (Name.isValid_iff.mp h).1
  ne_dot := by
    rintro rfl
    exact hdot (by simp)
  ne_dots := by
    rintro rfl
    exact hdot (by simp)
  not_slash := Name.not_slash_of_isValid h

theorem isListed_of_valid (h : Name.isValid s = true) (hdot : '.' ∉ s.toList) : isListed s = true := by
  rw [isListed_iff]
  refine ⟨?_, h⟩
  rw [String.startsWith_string_eq_false_iff]
  rintro ⟨rest, hrest⟩
  exact hdot (by simp [← hrest])

/-- What is listed leads down. -/
theorem component_of_isListed (h : isListed s = true) : Path.Component s := by
  obtain ⟨hstart, hvalid⟩ := isListed_iff.mp h
  refine ⟨(Name.isValid_iff.mp hvalid).1, ?_, ?_, Name.not_slash_of_isValid hvalid⟩
  · rintro rfl
    simp at hstart
  · rintro rfl
    simp at hstart

/-- The segments of an accepted collection lead down. -/
theorem component_of_mem (hc : Name.isValidCollection c = true) (hs : s ∈ Name.segments c) :
    Path.Component s :=
  component_of_valid (List.all_eq_true.mp hc s hs) (Name.not_dot_of_mem_segments hs)

namespace Segment

theorem component (h : Segment s) : Path.Component s := component_of_valid h.valid h.undotted

theorem short (h : Segment s) : s.utf8ByteSize ≤ FileTree.maxNameBytes :=
  Nat.le_trans (Name.isValid_iff.mp h.valid).2.1 (by decide)

theorem isListed (h : Segment s) : isListed s = true := isListed_of_valid h.valid h.undotted

end Segment

/-! ## Files -/

/-- The name of the file of a document. -/
def fileName (name : String) : String := name ++ extension

theorem toList_fileName (name : String) :
    (fileName name).toList = name.toList ++ ['.', 'y', 'm', 'l'] := by
  simp [fileName, extension]

theorem utf8ByteSize_fileName (name : String) :
    (fileName name).utf8ByteSize = name.utf8ByteSize + 4 := by
  rw [fileName, String.utf8ByteSize_append]
  rfl

/-- The file of an accepted name leads down, whatever dots the name has. -/
theorem component_fileName (hn : Name.isValid n = true) : Path.Component (fileName n) := by
  have hbytes := utf8ByteSize_fileName n
  have hne : ∀ text : String, text.utf8ByteSize < 4 → fileName n ≠ text := by
    rintro text htext rfl
    omega
  refine ⟨hne _ (by decide), hne _ (by decide), hne _ (by decide), ?_⟩
  have hslash := Name.not_slash_of_isValid hn
  simp [toList_fileName, hslash]

/-- A file below components is reached over components. -/
theorem component_append_fileName (hss : ∀ s ∈ ss, Path.Component s) (hn : Name.isValid n = true) :
    ∀ s ∈ ss ++ [fileName n], Path.Component s := by
  intro s hs
  rcases List.mem_append.mp hs with hs | hs
  · exact hss s hs
  · rw [List.mem_singleton.mp hs]
    exact component_fileName hn

theorem fileName_injective (h : fileName n = fileName m) : n = m := by
  rw [← String.toList_inj, toList_fileName, toList_fileName] at h
  exact String.toList_inj.mp (List.append_cancel_right h)

/-- A file is not in the place of a directory, as its name has a dot. -/
theorem fileName_ne_segment (hs : Segment s) (name : String) : fileName name ≠ s := by
  rintro rfl
  exact hs.undotted (by simp [toList_fileName])

/-- No hidden file is the file of a document. -/
theorem hiddenName_ne_fileName (text name : String) : FileTree.hiddenName text ≠ fileName name := by
  intro h
  rw [← String.toList_inj, FileTree.hiddenName, String.toList_append, toList_fileName] at h
  have hend := (List.append_inj' h rfl).2
  simp at hend

theorem endsWith_iff {s suffix : String} : s.endsWith suffix = true ↔ suffix.toList <:+ s.toList := by
  rw [String.endsWith, String.Slice.endsWith_string_iff, String.copy_toSlice]

/-- The document of a file is the one that the file is for. -/
theorem documentName?_eq_some {file : String} :
    documentName? file = some n ↔ file = fileName n ∧ isListed n = true := by
  simp only [documentName?]
  constructor
  · intro h
    split at h
    · next hfile =>
      simp only [Bool.and_eq_true] at hfile
      obtain ⟨hends, hlisted⟩ := hfile
      rw [Option.some.injEq] at h
      rw [h] at hlisted
      refine ⟨?_, hlisted⟩
      rw [endsWith_iff] at hends
      obtain ⟨before, hbefore⟩ := hends
      rw [← String.toList_inj, toList_fileName, ← h, String.toList_ofList, ← hbefore]
      simp [extension]
    · cases h
  · rintro ⟨rfl, hlisted⟩
    have htake : String.ofList ((fileName n).toList.take ((fileName n).toList.length - 4)) = n := by
      rw [← String.toList_inj, String.toList_ofList, toList_fileName]
      simp
    have hends : (fileName n).endsWith extension = true := by
      rw [endsWith_iff]
      exact ⟨n.toList, by simp [fileName]⟩
    rw [htake, hends, hlisted]
    rfl

/-! ## Places -/

open FileTree

/-- The place of a directory. -/
def top (root : String) : Place := reach [] (Path.names root)

/-- The place of a document below that of its directory. -/
def below (collection name : String) : Place := Name.segments collection ++ [fileName name]

/-- No two documents have one place. -/
theorem below_injective (h : below c n = below d m) : c = d ∧ n = m := by
  obtain ⟨hsegments, hfile⟩ := List.append_inj' h rfl
  exact ⟨Name.segments_injective hsegments, fileName_injective (by simpa using hfile)⟩

theorem dots_not_mem (h : ∀ s ∈ ss, Path.Component s) : ".." ∉ ss := fun hmem => (h ".." hmem).ne_dots rfl

theorem reach_segments (p : Place) (h : ∀ s ∈ ss, Path.Component s) : reach p ss = p ++ ss :=
  reach_of_plain (dots_not_mem h) p

/-- The places on the way over some segments. -/
theorem mem_way_segments {p q : Place} (h : ∀ s ∈ ss, Path.Component s) :
    q ∈ way p ss ↔ ∃ front, front <+: ss ∧ q = p ++ front :=
  mem_way_of_plain (dots_not_mem h)

/-- The way to a collection goes on from the directory over its segments. -/
theorem names_collectionPath (root : String) (hc : Name.isValidCollection c = true) :
    Path.names (collectionPath root c) = Path.names root ++ Name.segments c :=
  Path.names_foldl_join fun _ hs => component_of_mem hc hs

theorem reach_collectionPath (root : String) (hc : Name.isValidCollection c = true) :
    reach [] (Path.names (collectionPath root c)) = top root ++ Name.segments c := by
  rw [names_collectionPath root hc, reach_append, reach_segments _ fun _ hs => component_of_mem hc hs]
  rfl

/-- The path of a document's file. -/
def documentPath (root c n : String) : String := Path.join (collectionPath root c) (fileName n)

theorem filePath_of_isValid (hn : Name.isValid n = true) (root c : String) :
    filePath root c n = .ok (documentPath root c n) := if_pos hn

end Directory

end LayeredConfig
