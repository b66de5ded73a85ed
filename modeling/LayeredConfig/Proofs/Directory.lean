import LayeredConfig.Proofs.Listing
import LayeredConfig.Proofs.World
/-!
# Documents of a directory

A directory is kept if it has nothing but the files of documents, and the directories of collections
(`Kept`). Each operation keeps it so, answers by what is in the places of the documents, and changes no
more than the places of those that it is about.
-/

namespace LayeredConfig.Directory

open FileTree

variable {root c d n m s : String} {t u : FileTree} {p q : Place} {e : Entry}

/-! ## Paths -/

/-- Whether a collection can be kept under a path that is not too long. -/
def fitsCollection (root c : String) : Bool :=
  admitsCollection c && (collectionPath root c).utf8ByteSize < pathLimit

/-- Whether a document can be kept under a path that is not too long. -/
def fits (root c n : String) : Bool :=
  admits n && (documentPath root c n).utf8ByteSize < pathLimit

/-- Whether a document can be written, where the hidden file has a longer path. -/
def fitsWriting (root c n : String) : Bool :=
  admits n && (documentPath root c n).utf8ByteSize + 5 < pathLimit

theorem fitsCollection_iff : fitsCollection root c = true ↔
    admitsCollection c = true ∧ (collectionPath root c).utf8ByteSize < pathLimit := by
  simp [fitsCollection]

theorem fits_iff : fits root c n = true ↔
    admits n = true ∧ (documentPath root c n).utf8ByteSize < pathLimit := by
  simp [fits]

theorem fitsWriting_iff : fitsWriting root c n = true ↔
    admits n = true ∧ (documentPath root c n).utf8ByteSize + 5 < pathLimit := by
  simp [fitsWriting]

theorem fits_of_fitsWriting (h : fitsWriting root c n = true) : fits root c n = true := by
  rw [fitsWriting_iff] at h
  exact fits_iff.mpr ⟨h.1, by omega⟩

theorem isValid_of_admits (hn : admits n = true) : Name.isValid n = true :=
  (isListed_iff.mp (admits_iff.mp hn).1).2

theorem filePath_of_admits (hn : admits n = true) (root c : String) :
    filePath root c n = .ok (documentPath root c n) := filePath_of_isValid (isValid_of_admits hn) root c

theorem add_le_join (path part : String) :
    path.utf8ByteSize + part.utf8ByteSize ≤ (Path.join path part).utf8ByteSize := by
  rcases Path.join_cases path part with ⟨h, -⟩ | h
  · rw [h, String.utf8ByteSize_append]
  · rw [h, String.utf8ByteSize_append, String.utf8ByteSize_append]
    omega

/-- A path has the bytes of all that was joined. -/
theorem mul_length_le_foldl_join {path : String} {ss : List String} {k : Nat}
    (h : ∀ s ∈ ss, k ≤ s.utf8ByteSize) :
    path.utf8ByteSize + k * ss.length ≤ (ss.foldl Path.join path).utf8ByteSize := by
  induction ss generalizing path with
  | nil => exact Nat.le_refl _
  | cons s rest ih =>
    have hs := h s (by simp)
    have hjoin := add_le_join path s
    have hrest : (Path.join path s).utf8ByteSize + k * rest.length ≤ _ :=
      ih fun x hx => h x (List.mem_cons_of_mem s hx)
    rw [List.length_cons, Nat.mul_succ, List.foldl_cons]
    omega

theorem checkPath_join {path : String} (hpath : checkPath path = .ok ()) (hs : '\x00' ∉ s.toList)
    (hsize : (Path.join path s).utf8ByteSize < pathLimit) :
    checkPath (Path.join path s) = .ok () := by
  rw [checkPath_eq_ok] at hpath ⊢
  obtain ⟨hzero, hne, -⟩ := hpath
  refine ⟨?_, ?_, hsize⟩
  · rcases Path.join_cases path s with ⟨h, -⟩ | h <;> simp [h, hzero, hs]
  · intro hempty
    have hle := add_le_join path s
    rw [hempty, String.utf8ByteSize_empty] at hle
    exact hne (String.utf8ByteSize_eq_zero_iff.mp (by omega))

theorem checkPath_foldl_join {path : String} {ss : List String} (hpath : checkPath path = .ok ())
    (h : ∀ s ∈ ss, Segment s) (hsize : (ss.foldl Path.join path).utf8ByteSize < pathLimit) :
    checkPath (ss.foldl Path.join path) = .ok () := by
  induction ss generalizing path with
  | nil => exact hpath
  | cons s rest ih =>
    have hrest : (Path.join path s).utf8ByteSize + 0 * rest.length ≤ _ :=
      mul_length_le_foldl_join fun _ _ => Nat.zero_le _
    rw [List.foldl_cons] at hsize ⊢
    exact ih (checkPath_join hpath (h s (by simp)).nonzero (by omega))
      (fun x hx => h x (List.mem_cons_of_mem s hx)) hsize

theorem checkPath_collectionPath (hroot : checkPath root = .ok ()) (hc : fitsCollection root c = true) :
    checkPath (collectionPath root c) = .ok () := by
  rw [fitsCollection_iff] at hc
  exact checkPath_foldl_join hroot (fun _ hs => segment_of_mem hc.1 hs) hc.2

/-- What the file system asks of a document that is to be written: its file and the hidden one have names
and paths that are not too long, and there is no zero in its name. -/
structure Storable (root c n : String) : Prop where
  short : n.utf8ByteSize ≤ 246
  nonzero : '\x00' ∉ n.toList
  path : (documentPath root c n).utf8ByteSize < pathLimit
  temporary : ∀ hidden, temporary (documentPath root c n) = .ok hidden →
    hidden.utf8ByteSize < pathLimit

theorem storable_of_size (hn : Name.isValid n = true) (hshort : n.utf8ByteSize ≤ 246)
    (hzero : '\x00' ∉ n.toList) (hsize : (documentPath root c n).utf8ByteSize + 5 < pathLimit) :
    Storable root c n := by
  have hcomponent := component_fileName hn
  refine ⟨hshort, hzero, by omega, fun hidden hhidden => ?_⟩
  have hle := utf8ByteSize_temporary_le (Path.names_join hcomponent) hcomponent.ne_dots hhidden
  exact Nat.lt_of_le_of_lt hle hsize

theorem storable_of_fitsWriting (h : fitsWriting root c n = true) : Storable root c n := by
  obtain ⟨hadmits, hsize⟩ := fitsWriting_iff.mp h
  obtain ⟨-, hshort, hzero⟩ := admits_iff.mp hadmits
  exact storable_of_size (isValid_of_admits hadmits) hshort hzero hsize

/-- The way to the file of an accepted name, be it hidden or not. -/
theorem leads_of_isValid (hroot : checkPath root = .ok ()) (hc : fitsCollection root c = true)
    (hn : Name.isValid n = true) (hsize : n.utf8ByteSize ≤ 246) (hzero : '\x00' ∉ n.toList)
    (hlimit : (documentPath root c n).utf8ByteSize < pathLimit) :
    Leads (documentPath root c n) (Path.names root ++ Name.segments c) (fileName n) := by
  have hcheck := checkPath_collectionPath hroot hc
  rw [fitsCollection_iff] at hc
  have hshort : (fileName n).utf8ByteSize ≤ maxNameBytes := by
    rw [utf8ByteSize_fileName, maxNameBytes]
    omega
  have hfile : '\x00' ∉ (fileName n).toList := by simp [toList_fileName, hzero]
  rw [← names_collectionPath root (isValidCollection_of_admits hc.1)]
  exact Leads.join (component_fileName hn) hshort (checkPath_join hcheck hfile hlimit)

theorem leads_documentPath (hroot : checkPath root = .ok ()) (hc : fitsCollection root c = true)
    (hn : fits root c n = true) :
    Leads (documentPath root c n) (Path.names root ++ Name.segments c) (fileName n) := by
  obtain ⟨hadmits, hlimit⟩ := fits_iff.mp hn
  obtain ⟨-, hsize, hzero⟩ := admits_iff.mp hadmits
  exact leads_of_isValid hroot hc (isValid_of_admits hadmits) hsize hzero hlimit

theorem exists_checkPath_of_long {path : String} (hlong : pathLimit ≤ path.utf8ByteSize) :
    ∃ f, checkPath path = .error f ∧ f ≠ .notFound := by
  have hne : path.isEmpty = false := by
    by_contra hempty
    rw [Bool.not_eq_false, String.isEmpty_iff] at hempty
    rw [hempty] at hlong
    exact absurd hlong (by decide)
  rw [checkPath, hne, if_pos hlong]
  split
  · exact ⟨_, rfl, by decide⟩
  · exact ⟨_, rfl, by decide⟩

/-! ## Kept directories -/

/-- There are the files of documents in a directory, and the directories of collections, and nothing
else. The way to it does not go through it, and is there when something is in it. -/
structure Kept (root : String) (t : FileTree) : Prop where
  sound : t.Sound
  free : t.Free [] (Path.names root)
  outside : ∀ q ≠ [], top root ++ q ∉ way [] (Path.names root)
  files : ∀ q content, t.at? (top root ++ q) = some (.file content) →
    ∃ c n, fitsCollection root c = true ∧ fits root c n = true ∧ q = below c n
  directories : ∀ q, t.at? (top root ++ q) = some .directory → ∀ s ∈ q, Segment s
  made : t.Made [] (Path.names root) ∨ ∀ q ≠ [], t.at? (top root ++ q) = none

/-- What is in the place of a document. -/
def entryOf (root : String) (t : FileTree) (c n : String) : Option Entry :=
  t.at? (top root ++ below c n)

theorem reach_way (root : String) (hc : admitsCollection c = true) :
    reach [] (Path.names root ++ Name.segments c) = top root ++ Name.segments c := by
  have hvalid := isValidCollection_of_admits hc
  rw [← names_collectionPath root hvalid, reach_collectionPath root hvalid]

/-- The places on the way to a collection. -/
theorem mem_way_collection (root : String) (hc : admitsCollection c = true) :
    q ∈ way [] (Path.names root ++ Name.segments c) ↔
      q ∈ way [] (Path.names root) ∨ ∃ front, front <+: Name.segments c ∧ q = top root ++ front := by
  rw [mem_way_append]
  exact or_congr_right (mem_way_segments fun s hs => (segment_of_mem hc hs).component)

namespace Kept

/-- In the place of a document there is a file or nothing. -/
theorem entryOf_ne_directory (k : Kept root t) (c n : String) :
    entryOf root t c n ≠ some .directory := by
  intro h
  have hsegment := k.directories _ h (fileName n) (by simp [below])
  exact fileName_ne_segment hsegment n rfl

/-- Only documents that can be kept have something in their places. -/
theorem exists_file (k : Kept root t) (h : entryOf root t c n ≠ none) :
    ∃ content, entryOf root t c n = some (.file content) := by
  have hfile := k.entryOf_ne_directory c n
  cases hentry : entryOf root t c n with
  | none => exact (h hentry).elim
  | some e =>
    cases e with
    | file content => exact ⟨content, rfl⟩
    | directory => exact (hfile hentry).elim

theorem fits_of_entryOf (k : Kept root t) (h : entryOf root t c n ≠ none) :
    fitsCollection root c = true ∧ fits root c n = true := by
  obtain ⟨content, hfile⟩ := k.exists_file h
  obtain ⟨d, m, hd, hm, hbelow⟩ := k.files _ content hfile
  obtain ⟨rfl, rfl⟩ := below_injective hbelow
  exact ⟨hd, hm⟩

/-- No file stands on the way to a collection. -/
theorem free_collection (k : Kept root t) (hc : admitsCollection c = true) :
    t.Free [] (Path.names root ++ Name.segments c) where
  short name hname := by
    rcases List.mem_append.mp hname with hname | hname
    · exact k.free.short name hname
    · exact (segment_of_mem hc hname).short
  clear q hq content hat := by
    rcases (mem_way_collection root hc).mp hq with hq | ⟨front, hfront, rfl⟩
    · exact k.free.clear q hq content hat
    · obtain ⟨d, n, -, -, rfl⟩ := k.files front content hat
      have hmem : fileName n ∈ Name.segments c := hfront.subset (by simp [below])
      exact fileName_ne_segment (segment_of_mem hc hmem) n rfl

/-- The way to a collection is there when there is something in its place. -/
theorem made_collection (k : Kept root t) (hc : admitsCollection c = true) (hp : p ≠ [])
    (hat : t.at? (top root ++ Name.segments c ++ p) ≠ none) :
    t.Made [] (Path.names root ++ Name.segments c) := by
  intro q hq
  rcases (mem_way_collection root hc).mp hq with hq | ⟨front, ⟨rest, hrest⟩, rfl⟩
  · rcases k.made with hmade | hnone
    · exact hmade q hq
    · rw [List.append_assoc] at hat
      exact (hat (hnone _ (by simp [hp]))).elim
  · rw [← hrest, ← List.append_assoc, List.append_assoc] at hat
    exact k.sound.directory_above (by simp [hp]) hat

/-- The way to a collection is there when it has a document. -/
theorem made_above (k : Kept root t) (hc : admitsCollection c = true)
    (h : entryOf root t c n ≠ none) : t.Made [] (Path.names root ++ Name.segments c) := by
  rw [entryOf, below, ← List.append_assoc] at h
  exact k.made_collection hc (by simp) h

theorem room (k : Kept root t) (hc : admitsCollection c = true) (n : String) :
    Room t (Path.names root ++ Name.segments c) (fileName n) := by
  have hsegment : ∀ last ∈ [fileName n, hiddenName (fileName n)], ¬ Segment last := by
    intro last hlast hsegment
    refine hsegment.undotted ?_
    simp only [List.mem_cons, List.not_mem_nil, or_false] at hlast
    rcases hlast with rfl | rfl
    · simp [toList_fileName]
    · simp [hiddenName]
  constructor
  · intro last hlast hmem
    rw [reach_way root hc] at hmem
    rcases (mem_way_collection root hc).mp hmem with hmem | ⟨front, hfront, heq⟩
    · rw [List.append_assoc] at hmem
      exact k.outside _ (by simp) hmem
    · rw [List.append_assoc, List.append_cancel_left_eq] at heq
      have hmem : last ∈ Name.segments c := hfront.subset (by simp [← heq])
      exact hsegment last hlast (segment_of_mem hc hmem)
  · intro last hlast hat
    rw [reach_way root hc, List.append_assoc] at hat
    exact hsegment last hlast (k.directories _ hat last (by simp))

end Kept

theorem reach_below (root : String) (hc : admitsCollection c = true) (n : String) :
    reach [] (Path.names root ++ Name.segments c) ++ [fileName n] = top root ++ below c n := by
  rw [reach_way root hc, List.append_assoc]
  rfl

/-- The tree is kept, the place of a document has this, and those of other documents have what they
had. -/
structure Puts (root c n : String) (o : Option Entry) (t u : FileTree) : Prop where
  kept : Kept root u
  here : entryOf root u c n = o
  others : ∀ d m, d ≠ c ∨ m ≠ n → entryOf root u d m = entryOf root t d m

theorem Puts.refl (k : Kept root t) (c n : String) : Puts root c n (entryOf root t c n) t t :=
  ⟨k, rfl, fun _ _ _ => rfl⟩

theorem below_ne (h : d ≠ c ∨ m ≠ n) : below d m ≠ below c n := by
  intro heq
  obtain ⟨hd, hm⟩ := below_injective heq
  rcases h with h | h
  · exact h hd
  · exact h hm

/-- What a write leaves at a place: the new file, nothing in the place of the hidden one, a directory on
the way, or what was there. -/
theorem cases_of_wrote (hc : admitsCollection c = true) {content : ByteArray}
    (h : Wrote t (Path.names root ++ Name.segments c) (fileName n) content u) (q : Place) :
    q = below c n ∧ u.at? (top root ++ q) = some (.file content) ∨
      u.at? (top root ++ q) = none ∨
      top root ++ q ∈ way [] (Path.names root ++ Name.segments c) ∧
        u.at? (top root ++ q) = some .directory ∨
      u.at? (top root ++ q) = t.at? (top root ++ q) := by
  obtain ⟨-, hfile, hhidden, hothers⟩ := h
  rw [reach_below root hc] at hfile hothers
  rw [reach_way root hc, List.append_assoc] at hhidden hothers
  by_cases hq : q = below c n
  · exact .inl ⟨hq, hq ▸ hfile⟩
  · by_cases hq' : q = Name.segments c ++ [hiddenName (fileName n)]
    · exact .inr (.inl (hq' ▸ hhidden))
    · rw [hothers _ (by simpa using hq) (by simpa using hq')]
      split
      · next hmem => exact .inr (.inr (.inl ⟨hmem, rfl⟩))
      · exact .inr (.inr (.inr rfl))

namespace Kept

/-- A tree is kept if all that is new in it is the file of a document and directories on its way. -/
theorem of_new (k : Kept root t) (hc : fitsCollection root c = true) (hn : fits root c n = true)
    (hsound : u.Sound) (hmade : u.Made [] (Path.names root))
    (hfiles : ∀ q content, u.at? (top root ++ q) = some (.file content) →
      q = below c n ∨ t.at? (top root ++ q) = some (.file content))
    (hdirectories : ∀ q, u.at? (top root ++ q) = some .directory →
      q <+: Name.segments c ∨ t.at? (top root ++ q) = some .directory) : Kept root u where
  sound := hsound
  free := hmade.free k.free.short
  outside := k.outside
  files q content hat := by
    rcases hfiles q content hat with rfl | hold
    · exact ⟨c, n, hc, hn, rfl⟩
    · exact k.files q content hold
  directories q hat s hs := by
    rcases hdirectories q hat with hq | hold
    · exact segment_of_mem (fitsCollection_iff.mp hc).1 (hq.subset hs)
    · exact k.directories q hold s hs
  made := .inl hmade

/-- The place of a document is not on the way to the directory. -/
theorem below_aside (k : Kept root t) (c n : String) (hq : q ∈ way [] (Path.names root)) :
    top root ++ below c n ≠ q := by
  rintro rfl
  exact k.outside _ (by simp [below]) hq

/-- A file in a kept tree is taken out. -/
theorem puts_drop (k : Kept root t) {content : ByteArray}
    (hat : entryOf root t c n = some (.file content)) :
    Puts root c n none t (t.drop (top root ++ below c n)) := by
  obtain ⟨hc, hn⟩ := k.fits_of_entryOf (by simp [hat] : entryOf root t c n ≠ none)
  have hdrop := at?_drop t (p := top root ++ below c n) (by simp [below])
  have hmade : (t.drop (top root ++ below c n)).Made [] (Path.names root) := by
    intro q hq
    rw [hdrop, if_neg (k.below_aside c n hq)]
    have hway := k.made_above (fitsCollection_iff.mp hc).1 (n := n) (by simp [hat])
    exact hway.append_left q hq
  refine ⟨k.of_new hc hn (k.sound.drop hat) hmade ?_ ?_, ?_, ?_⟩
  · intro q content' hq
    rw [hdrop] at hq
    split at hq
    · cases hq
    · exact .inr hq
  · intro q hq
    rw [hdrop] at hq
    split at hq
    · cases hq
    · exact .inr hq
  · rw [entryOf, hdrop, if_pos rfl]
  · intro d m h
    rw [entryOf, hdrop, if_neg fun heq => below_ne h (List.append_cancel_left heq).symm]
    rfl

/-- A file is put into a place of a kept tree. -/
theorem puts_put (k : Kept root t) (hc : fitsCollection root c = true) (hn : fits root c n = true)
    (hway : t.Made [] (Path.names root ++ Name.segments c)) (content : ByteArray) :
    Puts root c n (some (.file content)) t (t.put (top root ++ below c n) (.file content)) := by
  have habove := hway.reach
  rw [reach_way root (fitsCollection_iff.mp hc).1] at habove
  have hput := at?_put t (p := top root ++ below c n) (by simp [below]) (.file content)
  have hsound : (t.put (top root ++ below c n) (.file content)).Sound := by
    have hvacant := k.entryOf_ne_directory c n
    rw [entryOf, below, ← List.append_assoc] at hvacant
    rw [below, ← List.append_assoc]
    exact k.sound.put habove (.inr hvacant)
  have hmade : (t.put (top root ++ below c n) (.file content)).Made [] (Path.names root) := by
    intro q hq
    rw [hput, if_neg (k.below_aside c n hq)]
    exact hway.append_left q hq
  refine ⟨k.of_new hc hn hsound hmade ?_ ?_, ?_, ?_⟩
  · intro q content' hq
    rw [hput] at hq
    split at hq
    · next heq => exact .inl (List.append_cancel_left heq).symm
    · exact .inr hq
  · intro q hq
    rw [hput] at hq
    split at hq
    · cases hq
    · exact .inr hq
  · rw [entryOf, hput, if_pos rfl]
  · intro d m h
    rw [entryOf, hput, if_neg fun heq => below_ne h (List.append_cancel_left heq).symm]
    rfl

/-- The place of a document is not on the way to a collection. -/
theorem below_not_mem_way (k : Kept root t) (hc : admitsCollection c = true) (d m : String) :
    top root ++ below d m ∉ way [] (Path.names root ++ Name.segments c) := by
  intro hmem
  rcases (mem_way_collection root hc).mp hmem with hmem | ⟨front, hfront, heq⟩
  · exact k.below_aside d m hmem rfl
  · rw [List.append_cancel_left_eq] at heq
    have hsegment : fileName m ∈ Name.segments c := hfront.subset (by simp [← heq, below])
    exact fileName_ne_segment (segment_of_mem hc hsegment) m rfl

/-- A write leaves a kept tree. -/
theorem puts_of_wrote (k : Kept root t) (hc : fitsCollection root c = true)
    (hn : fits root c n = true) {content : ByteArray}
    (h : Wrote t (Path.names root ++ Name.segments c) (fileName n) content u) :
    Puts root c n (some (.file content)) t u := by
  have hadmits := (fitsCollection_iff.mp hc).1
  have hat := cases_of_wrote hadmits h
  have hmade : u.Made [] (Path.names root) := (h.made (k.room hadmits n)).append_left
  obtain ⟨hsound, hfile, -, hothers⟩ := h
  rw [reach_below root hadmits] at hfile hothers
  rw [reach_way root hadmits, List.append_assoc] at hothers
  refine ⟨k.of_new hc hn hsound hmade ?_ ?_, hfile, ?_⟩
  · intro q content' hq
    rcases hat q with ⟨rfl, -⟩ | hnone | ⟨-, hdirectory⟩ | hold
    · exact .inl rfl
    · simp [hnone] at hq
    · simp [hdirectory] at hq
    · exact .inr (hold ▸ hq)
  · intro q hq
    rcases hat q with ⟨-, hfile⟩ | hnone | ⟨hmem, -⟩ | hold
    · simp [hfile] at hq
    · simp [hnone] at hq
    · rcases (mem_way_collection root hadmits).mp hmem with hmem | ⟨front, hfront, heq⟩
      · by_cases hnil : q = []
        · exact .inl (hnil ▸ List.nil_prefix)
        · exact (k.outside q hnil hmem).elim
      · exact .inl (List.append_cancel_left heq ▸ hfront)
    · exact .inr (hold ▸ hq)
  · intro d m hne
    rw [entryOf, hothers _ (by simpa using below_ne hne) ?_,
      if_neg (k.below_not_mem_way hadmits d m)]
    · rfl
    · intro heq
      rw [List.append_cancel_left_eq, below] at heq
      have hlast := (List.append_inj' heq rfl).2
      rw [List.singleton_inj] at hlast
      exact hiddenName_ne_fileName _ m hlast.symm

end Kept

section Operations

/-! ## Operations -/

variable (k : Kept root t) (hroot : checkPath root = .ok ()) (hc : fitsCollection root c = true)
  (hn : fits root c n = true)

include k hroot hc hn

theorem stat_documentPath : t.stat (documentPath root c n) =
    match entryOf root t c n with
    | some e => .ok e
    | none => .error .notFound := by
  have hleads := leads_documentPath hroot hc hn
  rw [fitsCollection_iff] at hc
  have hfree := k.free_collection hc.1
  by_cases hmade : t.Made [] (Path.names root ++ Name.segments c)
  · rw [hleads.stat_of_made hfree hmade, reach_below root hc.1]
    rfl
  · have hnone : entryOf root t c n = none := by
      by_contra hsome
      exact hmade (k.made_above hc.1 hsome)
    rw [hleads.stat_of_not_made hfree hmade, hnone]

theorem isFile_documentPath : t.isFile (documentPath root c n) = (entryOf root t c n).isSome := by
  rw [isFile, stat_documentPath k hroot hc hn]
  have hfile := k.entryOf_ne_directory c n
  cases h : entryOf root t c n with
  | none => rfl
  | some e =>
    cases e with
    | file content => rfl
    | directory => exact (hfile h).elim

theorem contains_eq :
    (storage root c).contains n t = .ok (entryOf root t c n).isSome t := by
  rw [← isFile_documentPath k hroot hc hn]
  exact contains_eq_isFile (isValid_of_admits (fits_iff.mp hn).1) root c t

/-- What is read is the document whose text the file has. -/
theorem read_of_text {text : String} {d : Document}
    (h : entryOf root t c n = some (.file text.toUTF8)) (hdecode : Document.decode text = .ok d) :
    read root c n t = .ok (some d) t := by
  have hstat := stat_documentPath k hroot hc hn
  rw [h] at hstat
  exact read_of_stat (isValid_of_admits (fits_iff.mp hn).1) hstat hdecode

theorem read_of_none (h : entryOf root t c n = none) : read root c n t = .ok none t := by
  have hstat := stat_documentPath k hroot hc hn
  rw [h] at hstat
  rw [read, filePath_of_admits (fits_iff.mp hn).1]
  refine (Run.bind_ok rfl _).trans ?_
  refine (Run.bind_ok rfl _).trans ?_
  simp only [FileTree.readText, FileTree.read, hstat, bind, Except.bind]
  rfl

/-- A document is taken away with its file. -/
theorem delete_of_file {content : ByteArray} (h : entryOf root t c n = some (.file content)) :
    delete root c n t = .ok true (t.drop (top root ++ below c n)) := by
  have hleads := leads_documentPath hroot hc hn
  have hadmits := (fitsCollection_iff.mp hc).1
  have hplace := reach_below root hadmits n
  have hmade := k.made_above hadmits (n := n) (by simp [h])
  have hremove := hleads.remove_of_made (k.free_collection hadmits) hmade
    ((congrArg t.at? hplace).trans h)
  rw [delete, filePath_of_admits (fits_iff.mp hn).1]
  refine (Run.bind_ok rfl _).trans ?_
  refine (Run.bind_ok rfl _).trans ?_
  rw [hremove, hplace]
  rfl

theorem delete_of_none (h : entryOf root t c n = none) : delete root c n t = .ok false t := by
  have hleads := leads_documentPath hroot hc hn
  have hadmits := (fitsCollection_iff.mp hc).1
  have hplace := reach_below root hadmits n
  have hremove := hleads.remove_of_none (k.free_collection hadmits)
    ((congrArg t.at? hplace).trans h)
  rw [delete, filePath_of_admits (fits_iff.mp hn).1]
  refine (Run.bind_ok rfl _).trans ?_
  refine (Run.bind_ok rfl _).trans ?_
  rw [hremove]
  rfl

omit hn in
/-- The file of an accepted name is written, be it hidden or not. -/
theorem exists_write_of_isValid (hn : Name.isValid n = true) (hstorable : Storable root c n)
    {text : String} {d : Document} (hencode : d.encode = .ok text) :
    ∃ u, write root c n d t = .ok true u ∧
      Wrote t (Path.names root ++ Name.segments c) (fileName n) text.toUTF8 u := by
  have hadmits := (fitsCollection_iff.mp hc).1
  have hshort : (fileName n).utf8ByteSize + 5 ≤ maxNameBytes := by
    have hbytes := hstorable.short
    rw [utf8ByteSize_fileName, maxNameBytes]
    omega
  obtain ⟨u, hwrite, hwrote⟩ := writeAtomically_of_free k.sound
    (leads_of_isValid hroot hc hn hstorable.short hstorable.nonzero hstorable.path)
    hstorable.temporary hshort
    (k.free_collection hadmits) (k.room hadmits n) text.toUTF8
  refine ⟨u, ?_, hwrote⟩
  rw [write, filePath_of_isValid hn, hencode]
  refine (Run.bind_ok rfl _).trans ?_
  refine (Run.bind_ok rfl _).trans ?_
  exact Run.bind_ok hwrite _

omit hn in
/-- A document is written as the file with its text. -/
theorem exists_write (hn : fitsWriting root c n = true) {text : String} {d : Document}
    (hencode : d.encode = .ok text) :
    ∃ u, write root c n d t = .ok true u ∧ Puts root c n (some (.file text.toUTF8)) t u := by
  obtain ⟨u, hwrite, hwrote⟩ := exists_write_of_isValid k hroot hc
    (isValid_of_admits (fitsWriting_iff.mp hn).1) (storable_of_fitsWriting hn) hencode
  exact ⟨u, hwrite, k.puts_of_wrote hc (fits_of_fitsWriting hn) hwrote⟩

/-- A document is renamed by moving its file. -/
theorem exists_rename {content : ByteArray} (hm : fits root c m = true)
    (h : entryOf root t c n = some (.file content)) :
    ∃ u v, rename root c n m t = .ok true v ∧ Puts root c n none t u ∧
      Puts root c m (some (.file content)) u v := by
  have hadmits := (fitsCollection_iff.mp hc).1
  have hmade := k.made_above hadmits (n := n) (by simp [h])
  have hnew := k.entryOf_ne_directory c m
  rw [entryOf, ← reach_below root hadmits] at hnew
  have hrename := (leads_documentPath hroot hc hn).rename_of_made (leads_documentPath hroot hc hm)
    (k.free_collection hadmits) hmade ((congrArg t.at? (reach_below root hadmits n)).trans h) hnew
  rw [reach_below root hadmits, reach_below root hadmits] at hrename
  have hdrop := k.puts_drop h
  have hstays : (t.drop (top root ++ below c n)).Made [] (Path.names root ++ Name.segments c) := by
    intro q hq
    rw [at?_drop t (by simp [below]), if_neg ?_]
    · exact hmade q hq
    · rintro rfl
      exact k.below_not_mem_way hadmits c n hq
  have hfile := isFile_documentPath k hroot hc hn
  refine ⟨_, _, ?_, hdrop, hdrop.kept.puts_put hc hm hstays content⟩
  rw [rename, filePath_of_admits (fits_iff.mp hn).1, filePath_of_admits (fits_iff.mp hm).1]
  refine (Run.bind_ok rfl _).trans ?_
  refine (Run.bind_ok rfl _).trans ?_
  refine (Run.bind_ok rfl _).trans ?_
  rw [hfile, h, hrename]
  rfl

theorem rename_of_none (hm : fits root c m = true) (h : entryOf root t c n = none) :
    rename root c n m t = .ok false t := by
  have hfile := isFile_documentPath k hroot hc hn
  rw [rename, filePath_of_admits (fits_iff.mp hn).1, filePath_of_admits (fits_iff.mp hm).1]
  refine (Run.bind_ok rfl _).trans ?_
  refine (Run.bind_ok rfl _).trans ?_
  refine (Run.bind_ok rfl _).trans ?_
  rw [hfile, h]
  rfl

end Operations

/-- Nothing is read from under a path that is too long, not even that there is no document. -/
theorem exists_read_of_long (hn : admits n = true)
    (hlong : pathLimit ≤ (documentPath root c n).utf8ByteSize) (t : FileTree) :
    ∃ stop, read root c n t = .error stop t := by
  obtain ⟨f, hcheck, hf⟩ := exists_checkPath_of_long hlong
  have htext : t.readText (documentPath root c n) = .error f := by
    simp [FileTree.readText, FileTree.read, FileTree.stat, FileTree.locate, hcheck, bind, Except.bind]
  refine ⟨.failure (.io (.read (documentPath root c n) f)), ?_⟩
  rw [read, filePath_of_admits hn]
  refine (Run.bind_ok rfl _).trans ?_
  refine (Run.bind_ok rfl _).trans ?_
  simp only [htext]
  cases f with
  | notFound => exact (hf rfl).elim
  | _ => rfl

/-! ## Listing -/

/-- The documents in a collection are those in whose places there is something. -/
theorem exists_namesIn (k : Kept root t) (hroot : checkPath root = .ok ())
    (hc : fitsCollection root c = true) : ∃ names,
    namesIn t (collectionPath root c) = .ok names ∧ ∀ n, n ∈ names ↔ entryOf root t c n ≠ none := by
  have hadmits := (fitsCollection_iff.mp hc).1
  have hcheck := checkPath_collectionPath hroot hc
  have hnames := names_collectionPath root (isValidCollection_of_admits hadmits)
  have hplace := reach_collectionPath root (isValidCollection_of_admits hadmits)
  have hfree : t.Free [] (Path.names (collectionPath root c)) := hnames ▸ k.free_collection hadmits
  by_cases hmade : t.Made [] (Path.names (collectionPath root c))
  · obtain ⟨names, hlist, hmem⟩ := exists_namesIn_of_locate k.sound
      (locate_of_made hcheck hfree hmade) hmade.reach
    refine ⟨names, hlist, fun n => (hmem n).trans ?_⟩
    constructor
    · rintro ⟨hlisted, hfile⟩ hnone
      have hcomponent := component_fileName (isListed_iff.mp hlisted).2
      obtain ⟨content, hat⟩ := exists_content_of_isFile (locate_of_made hcheck hfree hmade)
        (by simpa using hcomponent) (Path.steps_join hcomponent.not_slash hcomponent.ne_empty) hfile
      rw [hplace, List.append_assoc] at hat
      exact nomatch hat.symm.trans hnone
    · intro hsome
      have hn := (k.fits_of_entryOf hsome).2
      refine ⟨(admits_iff.mp (fits_iff.mp hn).1).1, ?_⟩
      have hfile := isFile_documentPath k hroot hc hn
      rwa [Option.isSome_iff_ne_none.mpr hsome] at hfile
  · refine ⟨[], by rw [namesIn, list_of_not_made hcheck hfree hmade], fun n => ?_⟩
    simp only [List.not_mem_nil, false_iff, not_not]
    by_contra hsome
    exact hmade (hnames ▸ k.made_above hadmits hsome)

theorem exists_list (k : Kept root t) (hroot : checkPath root = .ok ())
    (hc : fitsCollection root c = true) (start : String) : ∃ names,
    list root c start t = .ok names t ∧ names.Pairwise (· < ·) ∧
      ∀ n, n ∈ names ↔ entryOf root t c n ≠ none ∧ n.startsWith start = true := by
  obtain ⟨names, hnames, hmem⟩ := exists_namesIn k hroot hc
  refine ⟨_, list_eq_ok.mpr ⟨rfl, names, hnames, rfl⟩, Name.pairwise_sortedUnique _, fun n => ?_⟩
  rw [Name.mem_sortedUnique, List.mem_filter, hmem]

/-- Documents are deleted one after the other. -/
theorem exists_deleteEach (k : Kept root t) (hroot : checkPath root = .ok ())
    (hc : fitsCollection root c = true) {names : List String} (hnames : names.Nodup)
    (h : ∀ n ∈ names, entryOf root t c n ≠ none) : ∃ u,
    (names.foldlM (fun all name => do
      let deleted ← delete root c name
      return all && deleted) true : Run FileTree Bool) t = .ok true u ∧ Kept root u ∧
      ∀ d m, entryOf root u d m = if d = c ∧ m ∈ names then none else entryOf root t d m := by
  induction names generalizing t with
  | nil => exact ⟨t, rfl, k, by simp⟩
  | cons n names ih =>
    obtain ⟨hn, hrest⟩ := List.nodup_cons.mp hnames
    obtain ⟨content, hfile⟩ := k.exists_file (h n (by simp))
    have hputs := k.puts_drop hfile
    have hothers : ∀ m ∈ names, entryOf root (t.drop (top root ++ below c n)) c m ≠ none := by
      intro m hm
      rw [hputs.others c m (.inr fun heq => hn (heq ▸ hm))]
      exact h m (List.mem_cons_of_mem n hm)
    obtain ⟨u, hu, hkept, hentries⟩ := ih hputs.kept hrest hothers
    refine ⟨u, ?_, hkept, fun d m => ?_⟩
    · have hdelete := delete_of_file k hroot hc (k.fits_of_entryOf (h n (by simp))).2 hfile
      rw [List.foldlM_cons]
      exact (Run.bind_ok (Run.bind_ok hdelete _) _).trans hu
    · rw [hentries]
      by_cases hdm : d = c ∧ m = n
      · obtain ⟨rfl, rfl⟩ := hdm
        simp [hputs.here]
      · rw [hputs.others d m (by rwa [ne_eq, ne_eq, ← not_and_or])]
        by_cases hd : d = c <;> simp_all

/-- All documents of a collection whose names start with a text are deleted, and no others. -/
theorem exists_deleteAll (k : Kept root t) (hroot : checkPath root = .ok ())
    (hc : fitsCollection root c = true) (start : String) : ∃ u,
    deleteAll root c start t = .ok true u ∧ Kept root u ∧ ∀ d m, entryOf root u d m =
      if d = c ∧ m.startsWith start = true then none else entryOf root t d m := by
  obtain ⟨names, hlist, hpairwise, hmem⟩ := exists_list k hroot hc start
  obtain ⟨u, hu, hkept, hentries⟩ := exists_deleteEach k hroot hc
    (hpairwise.imp String.ne_of_lt) fun n hn => ((hmem n).mp hn).1
  refine ⟨u, (Run.bind_ok hlist _).trans hu, hkept, fun d m => ?_⟩
  rw [hentries]
  by_cases hd : d = c
  · subst hd
    by_cases hm : entryOf root t d m = none <;> simp [hmem, hm]
  · simp [hd]

/-- A directory that counts as a collection is the place of one that has a document. -/
theorem Kept.stocked_iff (k : Kept root t) (hroot : checkPath root = .ok ())
    (hq : t.at? (top root ++ q) = some .directory) :
    Stocked t root q ↔ ∃ n, entryOf root t (".".intercalate q) n ≠ none := by
  have hsegment := k.directories q hq
  have hsegments := segments_of_segment hsegment
  have hadmits := admitsCollection_of_segment hsegment
  have hpath : q.foldl Path.join root = collectionPath root (".".intercalate q) := by
    rw [collectionPath, hsegments]
  by_cases hc : fitsCollection root (".".intercalate q) = true
  · obtain ⟨names, hnames, hmem⟩ := exists_namesIn k hroot hc
    constructor
    · rintro ⟨-, n, rest, hholds⟩
      rw [hpath, hnames] at hholds
      cases hholds
      exact ⟨n, (hmem n).mp (by simp)⟩
    · rintro ⟨n, hsome⟩
      obtain ⟨m, rest, rfl⟩ := List.exists_cons_of_ne_nil
        (List.ne_nil_of_mem ((hmem n).mpr hsome))
      exact ⟨fun s hs => (hsegment s hs).isListed, m, rest, hpath ▸ hnames⟩
  · -- Nothing is found under a path that is too long.
    constructor
    · rintro ⟨-, n, rest, hholds⟩
      have hlong : pathLimit ≤ (collectionPath root (".".intercalate q)).utf8ByteSize := by
        by_contra hshort
        exact hc (fitsCollection_iff.mpr ⟨hadmits, by omega⟩)
      obtain ⟨f, hcheck, hf⟩ := exists_checkPath_of_long hlong
      have hlist : t.list (collectionPath root (".".intercalate q)) = .error f := by
        simp [FileTree.list, locate, hcheck, bind, Except.bind]
      rw [hpath, namesIn, hlist] at hholds
      cases f with
      | notFound => exact (hf rfl).elim
      | _ => cases hholds
    · rintro ⟨n, hsome⟩
      exact (hc (k.fits_of_entryOf hsome).1).elim

/-- The collections that are found are those that have a document. -/
theorem exists_collectionsIn (k : Kept root t) (hroot : checkPath root = .ok ()) : ∃ names,
    collectionsIn t root = .ok names ∧
      ∀ c, c ∈ names ↔ c ≠ Name.defaultCollection ∧ ∃ n, entryOf root t c n ≠ none := by
  by_cases hmade : t.Made [] (Path.names root)
  · refine ⟨(t.directoriesBelow (top root)).filterMap (collectionOf? t root), ?_, fun c => ?_⟩
    · rw [collectionsIn, list_of_made hroot k.free hmade, locate_of_made hroot k.free hmade]
      rfl
    · rw [List.mem_filterMap]
      constructor
      · rintro ⟨q, hq, hc⟩
        obtain ⟨hne, hat⟩ := k.sound.mem_directoriesBelow.mp hq
        obtain ⟨hstocked, rfl⟩ := collectionOf?_eq_some.mp hc
        refine ⟨?_, (k.stocked_iff hroot hat).mp hstocked⟩
        intro hempty
        have hsegments := segments_of_segment (k.directories q hat)
        rw [hempty] at hsegments
        exact hne hsegments.symm
      · rintro ⟨hne, n, h⟩
        have hat : t.at? (top root ++ Name.segments c) = some .directory := by
          rw [entryOf, below, ← List.append_assoc] at h
          exact k.sound.closed _ _ h
        have hstocked : Stocked t root (Name.segments c) := by
          rw [k.stocked_iff hroot hat, Name.intercalate_segments]
          exact ⟨n, h⟩
        refine ⟨Name.segments c, k.sound.mem_directoriesBelow.mpr ⟨?_, hat⟩,
          collectionOf?_eq_some.mpr ⟨hstocked, Name.intercalate_segments c⟩⟩
        intro hnil
        exact hne (Name.segments_injective (d := Name.defaultCollection) hnil)
  · refine ⟨[], by rw [collectionsIn, list_of_not_made hroot k.free hmade], fun c => ?_⟩
    simp only [List.not_mem_nil, false_iff, not_and, not_exists, not_not]
    intro _ n
    rcases k.made with h | h
    · exact (hmade h).elim
    · exact h _ (by simp [below])

end LayeredConfig.Directory
