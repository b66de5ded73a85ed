import LayeredConfig.Proofs.Dialogue
import LayeredConfig.Proofs.Directory
/-!
# Directories and shelves

A directory that was empty or missing answers like an empty shelf. The two stay mirrored
(`Directory.Mirrors`): the places of the documents of the shelf have files with the texts of the same
documents, and nothing else is kept. Each call answers the same in both then, and leaves them mirrored
(`Directory.call_agree`), so that dialogues have the same replies (`Store.transcript_directory`).
-/

namespace LayeredConfig

/-- Whether the text of a document gives it back. -/
def Document.recalled (d : Document) : Bool :=
  match d.encode with
  | .ok text =>
    match Document.decode text with
    | .ok e => e.same d
    | .error _ => false
  | .error _ => false

theorem Document.recalled_iff {d : Document} : d.recalled = true ↔
    ∃ text e, d.encode = .ok text ∧ Document.decode text = .ok e ∧ e.same d = true := by
  rw [recalled]
  cases hencode : d.encode with
  | error f => simp
  | ok text => cases hdecode : Document.decode text <;> simp [hdecode]

namespace Directory

open FileTree

/-! ## Mirrored documents -/

/-- What is in the place of a document: a file with the text of the same document. -/
inductive Holds : Option Entry → Option Document → Prop
  | absent : Holds none none
  | present {text : String} {d e : Document} : Document.decode text = .ok e → e.same d = true →
      Holds (some (.file text.toUTF8)) (some d)

theorem Holds.isSome_eq {x : Option Entry} {o : Option Document} (h : Holds x o) :
    x.isSome = o.isSome := by
  cases h <;> rfl

theorem Holds.ne_none_iff {x : Option Entry} {o : Option Document} (h : Holds x o) :
    x ≠ none ↔ o ≠ none := by
  cases h <;> simp

/-- A directory has the documents of a shelf, and no others. -/
structure Mirrors (root : String) (i : Nat) (w w' : World) : Prop where
  kept : Kept root w.files
  holds : ∀ c n, Holds (entryOf root w.files c n) ((w'.documents i c).get? n)

theorem Mirrors.congr {root : String} {i : Nat} {v w w' : World} (h : Mirrors root i v w)
    (hw : ∀ c, w'.documents i c = w.documents i c) : Mirrors root i v w' where
  kept := h.kept
  holds c n := by
    rw [hw]
    exact h.holds c n

/-- Two runs answer, their answers are related, and what they leave is mirrored. -/
def Agree (root : String) (i : Nat) {α β : Type} (R : α → β → Prop) (x : Run World α)
    (y : Run World β) (w w' : World) : Prop :=
  ∃ a v b v', x w = .ok a v ∧ y w' = .ok b v' ∧ R a b ∧ Mirrors root i v v'

theorem Agree.map {root : String} {i : Nat} {α β α' β' : Type} {R : α → β → Prop}
    {S : α' → β' → Prop} {x : Run World α} {y : Run World β} {f : α → α'} {g : β → β'} {w w' : World}
    (h : Agree root i R x y w w') (hfg : ∀ a b, R a b → S (f a) (g b)) :
    Agree root i S (f <$> x) (g <$> y) w w' := by
  obtain ⟨a, v, b, v', hx, hy, hab, hv⟩ := h
  exact ⟨f a, v, g b, v', Run.map_ok hx, Run.map_ok hy, hfg a b hab, hv⟩

section Calls

variable {root c n m : String} {i : Nat} {w w' v' : World} (h : Mirrors root i w w')
  (hroot : checkPath root = .ok ()) (hc : fitsCollection root c = true)

include h in
/-- What is put in the place of a document is put on the shelf. -/
theorem Mirrors.of_puts {u : FileTree} {x : Option Entry} {o : Option Document}
    (hputs : Puts root c n x w.files u) (hsets : World.Sets i c n o w' v') (hx : Holds x o) :
    Mirrors root i { w with files := u } v' where
  kept := hputs.kept
  holds d m := by
    by_cases hd : d = c
    · subst hd
      by_cases hm : m = n
      · subst hm
        rw [hputs.here, hsets.here]
        exact hx
      · rw [hputs.others d m (.inr hm), hsets.others m hm]
        exact h.holds d m
    · rw [hputs.others d m (.inl hd), hsets.only.collections d hd]
      exact h.holds d m

include h hroot hc

theorem contains_agree (hn : fits root c n = true) : Agree root i Eq
    ((Store.directory root c).storage.contains n) ((Store.shelf i c).storage.contains n) w w' :=
  ⟨_, w, _, w', World.onFiles_ok (contains_eq h.kept hroot hc hn), Store.contains_shelf i c w' n,
    (h.holds c n).isSome_eq, h⟩

theorem exists_read (hn : fits root c n = true) : ∃ o, read root c n w.files = .ok o w.files ∧
    Option.Rel (fun d e => d.same e = true) o ((w'.documents i c).get? n) := by
  have hholds := h.holds c n
  generalize hx : entryOf root w.files c n = x at hholds
  generalize (w'.documents i c).get? n = o at hholds
  cases hholds with
  | absent => exact ⟨none, read_of_none h.kept hroot hc hn hx, .none⟩
  | present hdecode hsame => exact ⟨_, read_of_text h.kept hroot hc hn hx hdecode, .some hsame⟩

theorem read_agree (hn : fits root c n = true) : Agree root i
    (Option.Rel fun d e => d.same e = true) ((Store.directory root c).storage.read n)
    ((Store.shelf i c).storage.read n) w w' := by
  obtain ⟨o, hread, hsame⟩ := exists_read h hroot hc hn
  exact ⟨o, w, _, w', World.onFiles_ok hread, Store.read_shelf i c w' n, hsame, h⟩

theorem readMany_agree {names : List String} (hnames : ∀ n ∈ names, fits root c n = true) :
    Agree root i (fun ds es => ∀ n, Option.Rel (fun d e => d.same e = true) (ds.get? n) (es.get? n))
      ((Store.directory root c).storage.readMany names) ((Store.shelf i c).storage.readMany names)
      w w' := by
  obtain ⟨ds, hds, hsame⟩ := Storage.readEach_rel fun n hn => exists_read h hroot hc (hnames n hn)
  exact ⟨ds, w, _, w', World.onFiles_ok hds, Store.readMany_shelf i c w' names, hsame, h⟩

theorem write_agree (hn : fitsWriting root c n = true) {d : Document} (hd : d.recalled = true) :
    Agree root i Eq
    ((Store.directory root c).storage.write n d) ((Store.shelf i c).storage.write n d) w w' := by
  obtain ⟨text, e, hencode, hdecode, hsame⟩ := Document.recalled_iff.mp hd
  obtain ⟨u, hwrite, hputs⟩ := exists_write h.kept hroot hc hn hencode
  exact ⟨true, _, true, _, World.onFiles_ok hwrite, Store.write_shelf i c w' n d, rfl,
    h.of_puts hputs (.insert w' i c n d) (.present hdecode hsame)⟩

theorem delete_agree (hn : fits root c n = true) : Agree root i Eq
    ((Store.directory root c).storage.delete n) ((Store.shelf i c).storage.delete n) w w' := by
  have hshelf := Store.delete_shelf i c w' n
  have hholds := h.holds c n
  rw [Dict.contains] at hshelf
  by_cases hx : entryOf root w.files c n = none
  · have hputs := Puts.refl h.kept c n
    rw [hx] at hputs hholds
    rw [← hholds.isSome_eq] at hshelf
    exact ⟨false, _, false, _, World.onFiles_ok (delete_of_none h.kept hroot hc hn hx), hshelf, rfl,
      h.of_puts hputs (.erase w' i c n) .absent⟩
  · obtain ⟨content, hfile⟩ := h.kept.exists_file hx
    rw [← hholds.isSome_eq, hfile] at hshelf
    exact ⟨true, _, true, _, World.onFiles_ok (delete_of_file h.kept hroot hc hn hfile), hshelf, rfl,
      h.of_puts (h.kept.puts_drop hfile) (.erase w' i c n) .absent⟩

theorem rename_agree (hn : fits root c n = true) (hm : fits root c m = true) : Agree root i Eq
    ((Store.directory root c).storage.rename n m) ((Store.shelf i c).storage.rename n m) w w' := by
  have hshelf := Store.rename_shelf i c w' n m
  have hholds := h.holds c n
  generalize hx : entryOf root w.files c n = x at hholds
  generalize hd : (w'.documents i c).get? n = o at hholds hshelf
  cases hholds with
  | absent => exact ⟨false, _, false, _, World.onFiles_ok (rename_of_none h.kept hroot hc hn hm hx), hshelf,
      rfl, h⟩
  | present hdecode hsame =>
    obtain ⟨u, v, hrename, hdrop, hput⟩ := exists_rename h.kept hroot hc hn hm hx
    refine ⟨true, _, true, _, World.onFiles_ok hrename, hshelf, rfl, ?_⟩
    -- On the shelf both steps are one.
    have hdropped := h.of_puts hdrop (.erase w' i c n) .absent
    refine (hdropped.of_puts hput (.insert _ i c m _) (.present hdecode hsame)).congr fun d => ?_
    by_cases hd : c = d <;> simp [World.documents_put, hd]

theorem list_agree (start : String) : Agree root i Eq
    ((Store.directory root c).storage.list start) ((Store.shelf i c).storage.list start) w w' := by
  obtain ⟨names, hlist, hascending, hmem⟩ := exists_list h.kept hroot hc start
  refine ⟨names, w, _, w', World.onFiles_ok hlist, Store.list_shelf i c w' start, ?_, h⟩
  refine Name.eq_of_ascending hascending ((Dict.pairwise_keys _).filter _) fun n => ?_
  rw [hmem, List.mem_filter, Dict.mem_keys, Dict.contains_iff, (h.holds c n).ne_none_iff]

theorem deleteAll_agree (start : String) : Agree root i Eq
    ((Store.directory root c).storage.deleteAll start) ((Store.shelf i c).storage.deleteAll start)
    w w' := by
  obtain ⟨u, hdelete, hkept, hentries⟩ := exists_deleteAll h.kept hroot hc start
  refine ⟨true, _, true, _, World.onFiles_ok hdelete, Store.deleteAll_shelf i c w' start, rfl, hkept,
    fun d m => ?_⟩
  have hholds := h.holds d m
  rw [hentries, World.documents_put]
  by_cases hd : d = c
  · subst hd
    by_cases hm : m.startsWith start = true
    · simpa [Dict.get?_filterKeys, hm] using Holds.absent
    · simpa [Dict.get?_filterKeys, hm] using hholds
  · simpa [hd, Ne.symm hd] using hholds

omit hc in
theorem collectionNames_agree : Agree root i Eq ((Store.directory root c).storage.collectionNames)
    ((Store.shelf i c).storage.collectionNames) w w' := by
  obtain ⟨names, hnames, hmem⟩ := exists_collectionsIn h.kept hroot
  have hlist : (storage root c).collectionNames w.files = .ok (Name.sortedUnique names) w.files :=
    collectionNames_eq_ok.mpr ⟨rfl, names, hnames, rfl⟩
  refine ⟨_, w, _, w', World.onFiles_ok hlist, Store.collectionNames_shelf i c w', ?_, h⟩
  refine Name.eq_of_ascending (Name.pairwise_sortedUnique names) ((Dict.pairwise_keys _).filter _)
    fun d => ?_
  rw [Name.mem_sortedUnique, hmem, Shelf.mem_named, ← World.documents, Dict.isEmpty_iff]
  simp only [(h.holds d _).ne_none_iff, not_forall]

end Calls

end Directory

/-! ## Dialogues -/

/-- Whether a call is about names that a directory can keep, and documents that it can give back. -/
def Call.fits (root c : String) : Call → Bool
  | .contains n | .read n | .delete n => Directory.fits root c n
  | .readMany names => names.all (Directory.fits root c)
  | .write n d => Directory.fitsWriting root c n && d.recalled
  | .rename old new => Directory.fits root c old && Directory.fits root c new
  | .list _ | .deleteAll _ | .collectionNames => true

/-- Whether a question to a view is about such names and documents. -/
def Question.fits (root : String) (v : Store) : Question → Bool
  | .call k => k.fits root v.storage.collectionName
  | .collection c => Directory.fitsCollection root c
  | .collectionName | .encode _ | .decode _ => true

namespace Directory

open FileTree

variable {root c : String} {i : Nat} {w w' : World}

theorem call_agree (h : Mirrors root i w w') (hroot : checkPath root = .ok ())
    (hc : fitsCollection root c = true) {k : Call} (hk : k.fits root c = true) :
    Agree root i Answer.Same
      (k.run (Store.directory root c).storage) (k.run (Store.shelf i c).storage) w w' := by
  cases k with
  | contains n => exact (contains_agree h hroot hc hk).map fun _ b hab => hab ▸ .truth b
  | read n => exact (read_agree h hroot hc hk).map fun _ _ => .document
  | readMany names =>
    exact (readMany_agree h hroot hc (List.all_eq_true.mp hk)).map fun _ _ => .documents
  | write n d =>
    obtain ⟨hn, hd⟩ := Bool.and_eq_true_iff.mp hk
    exact (write_agree h hroot hc hn hd).map fun _ b hab => hab ▸ .truth b
  | delete n => exact (delete_agree h hroot hc hk).map fun _ b hab => hab ▸ .truth b
  | rename old new =>
    obtain ⟨hold, hnew⟩ := Bool.and_eq_true_iff.mp hk
    exact (rename_agree h hroot hc hold hnew).map fun _ b hab => hab ▸ .truth b
  | list start => exact (list_agree h hroot hc start).map fun _ b hab => hab ▸ .names b
  | deleteAll start => exact (deleteAll_agree h hroot hc start).map fun _ b hab => hab ▸ .truth b
  | collectionNames => exact (collectionNames_agree h hroot).map fun _ b hab => hab ▸ .names b

/-- A directory that is empty or missing. No file stands on the way to it, and the way does not go
through it. -/
structure Vacant (root : String) (t : FileTree) : Prop where
  check : checkPath root = .ok ()
  sound : t.Sound
  free : t.Free [] (Path.names root)
  outside : ∀ q ≠ [], top root ++ q ∉ way [] (Path.names root)
  empty : ∀ q ≠ [], t.at? (top root ++ q) = none

theorem Vacant.kept {t : FileTree} (h : Vacant root t) : Kept root t where
  sound := h.sound
  free := h.free
  outside := h.outside
  files q content hat := by
    by_cases hq : q = []
    · subst hq
      rw [List.append_nil] at hat
      exact (h.free.clear _ (reach_mem_way [] _) content hat).elim
    · rw [h.empty q hq] at hat
      cases hat
  directories q hat s hs := by
    rw [h.empty q (List.ne_nil_of_mem hs)] at hat
    cases hat
  made := .inr h.empty

/-- An empty directory and an empty shelf are mirrored. -/
theorem Vacant.mirrors (h : Vacant root w.files) (hshelf : w'.shelves.get i = ∅) :
    Mirrors root i w w' where
  kept := h.kept
  holds c n := by
    have hempty : w'.documents i c = ∅ := by
      rw [World.documents, hshelf]
      rfl
    rw [hempty, entryOf, h.empty _ (by simp [below])]
    exact .absent

theorem fitsCollection_default (hroot : checkPath root = .ok ()) :
    fitsCollection root Name.defaultCollection = true :=
  fitsCollection_iff.mpr ⟨rfl, (checkPath_eq_ok.mp hroot).2.2⟩

end Directory

namespace Store

open Directory

variable {root : String} {i : Nat} {w w' : World}

/-- The views of a directory and a shelf in one collection. -/
def Twins (root : String) (i : Nat) (v u : Store) : Prop :=
  ∃ c, fitsCollection root c = true ∧ v = directory root c ∧ u = shelf i c

section Views

variable (root c : String)

theorem collection_directory {d : String} (hd : admitsCollection d = true) (w : World) :
    View.collection (directory root c) d w = .ok (directory root d) w :=
  collection_directory_eq_ok.mpr ⟨isValidCollection_of_admits hd, rfl, rfl⟩

end Views

/-- What does not depend on the state is replied alike. -/
theorem alike_ofExcept (h : Mirrors root i w w') {α : Type} (x : Except Failure α) (reply : α → Reply)
    (hreply : ∀ a, (reply a).Same (reply a)) :
    Session.Alike (Twins root i) (Mirrors root i) Reply.Same
      (((fun a => (reply a, ([] : List Store))) <$> World.onFiles (.ofExcept x)) w)
      (((fun a => (reply a, ([] : List Store))) <$> World.onShelf i (.ofExcept x)) w') := by
  cases x with
  | ok a =>
    rw [Run.map_ok (World.onFiles_ofExcept (.ok a) w), Run.map_ok (onShelf_ofExcept i (.ok a) w')]
    exact .ok (hreply a) .nil h
  | error f =>
    have hfiles : World.onFiles (.ofExcept (.error f : Except Failure α)) w = .error (.failure f) w :=
      World.onFiles_ofExcept _ w
    have hshelf : World.onShelf i (.ofExcept (.error f : Except Failure α)) w' =
        .error (.failure f) w' := onShelf_ofExcept i _ w'
    rw [Run.map_error hfiles, Run.map_error hshelf]
    exact .error h

theorem Twins.alike {v u : Store} (hviews : Twins root i v u) (hroot : FileTree.checkPath root = .ok ())
    (h : Mirrors root i w w') {q : Question} (hq : q.fits root u = true) :
    Session.Alike (Twins root i) (Mirrors root i) Reply.Same (q.run v w) (q.run u w') := by
  obtain ⟨c, hc, rfl, rfl⟩ := hviews
  cases q with
  | call k =>
    obtain ⟨a, v, b, v', hx, hy, hab, hv⟩ := call_agree h hroot hc hq
    have hdirectory : k.run (View.storage (directory root c)) w = .ok a v := hx
    have hshelf : k.run (View.storage (shelf i c)) w' = .ok b v' := hy
    rw [Question.run, Question.run, Run.map_ok hdirectory, Run.map_ok hshelf]
    exact .ok (.answer hab) .nil hv
  | collectionName =>
    have hdirectory : (View.storage (directory root c)).collectionName = c := rfl
    have hshelf : (View.storage (shelf i c)).collectionName = c := rfl
    rw [Question.run, Question.run, hdirectory, hshelf]
    exact .ok (.text c) .nil h
  | encode d =>
    rw [Question.run, Question.run, encode_directory, encode_shelf]
    exact alike_ofExcept h d.encode _ .text
  | decode text =>
    rw [Question.run, Question.run, decode_directory, decode_shelf]
    exact alike_ofExcept h (Document.decode text) _ .document
  | collection d =>
    have hopen := collection_directory root c (fitsCollection_iff.mp hq).1 w
    rw [Question.run, Question.run, Run.map_ok hopen, Run.map_ok (collection_shelf i c w' d)]
    exact .ok .opened (.cons ⟨d, hq, rfl, rfl⟩ .nil) h

/-- Every dialogue with a directory that was empty or missing has the replies that it has with an empty
shelf, as long as it is about names that the directory can keep and documents that it can give back. The
directory has the documents of the shelf at each turn, and no others. -/
theorem transcript_directory (h : Vacant root w.files) (hshelf : w'.shelves.get i = ∅)
    (turns : List Turn)
    (hfits : Session.Allows (fun v q => q.fits root v = true)
      ⟨[shelf i Name.defaultCollection], w'⟩ turns) :
    List.Forall₂ (fun x y => Session.SameOutcome Reply.Same x.1 y.1 ∧ Mirrors root i x.2 y.2)
      (Session.transcript ⟨[directory root Name.defaultCollection], w⟩ turns)
      (Session.transcript ⟨[shelf i Name.defaultCollection], w'⟩ turns) := by
  have hviews : Twins root i (directory root Name.defaultCollection) (shelf i Name.defaultCollection) :=
    ⟨_, fitsCollection_default h.check, rfl, rfl⟩
  exact Session.transcript_related (fun v u q s t hvu hst hq => hvu.alike h.check hst hq) turns
    ⟨.cons hviews .nil, h.mirrors hshelf⟩ hfits

end Store

/-! ## A directory called `sync` -/

theorem Directory.vacant_sync : Vacant "sync" FileTree.empty where
  check := by decide +kernel
  sound := ⟨.nil, nofun, fun p name h => (h (if_neg (by simp))).elim⟩
  free := by
    have hnames : Path.names "sync" = ["sync"] := by decide +kernel
    rw [hnames]
    refine ⟨fun name hname => ?_, fun q _ content h => ?_⟩
    · rw [List.mem_singleton.mp hname]
      decide
    · rw [FileTree.at?] at h
      split at h <;> cases h
  outside q hq := by
    have hnames : Path.names "sync" = ["sync"] := by decide +kernel
    simp [top, hnames, FileTree.way, FileTree.reach, FileTree.step, hq]
  empty q hq := if_neg (by simp [hq])

/-- Documents are written in two collections, renamed, listed and read, and deleted. -/
def syncTurns : List Turn :=
  [⟨0, .call (.write "system.site" (.ofList [("name", .string "Beispiel")]))⟩,
    ⟨0, .collection "language.de"⟩, ⟨1, .call (.write "system.site" ∅)⟩,
    ⟨1, .call (.rename "system.site" "system.name")⟩, ⟨0, .call .collectionNames⟩,
    ⟨1, .call (.readMany ["system.name", "system.site"])⟩, ⟨0, .call (.deleteAll "system.")⟩]

/-- The directory and a shelf, of which the same is asked. -/
theorem Store.transcript_directory_sync :
    Directory.Vacant "sync" World.empty.files ∧ World.empty.shelves.get 0 = ∅ ∧
      Session.Allows (fun v q => q.fits "sync" v = true)
        ⟨[shelf 0 Name.defaultCollection], World.empty⟩ syncTurns ∧
      List.Forall₂
        (fun x y => Session.SameOutcome Reply.Same x.1 y.1 ∧ Directory.Mirrors "sync" 0 x.2 y.2)
        (Session.transcript ⟨[directory "sync" Name.defaultCollection], World.empty⟩ syncTurns)
        (Session.transcript ⟨[shelf 0 Name.defaultCollection], World.empty⟩ syncTurns) := by
  have hfits : Session.Allows (fun v q => q.fits "sync" v = true)
      ⟨[shelf 0 Name.defaultCollection], World.empty⟩ syncTurns := by
    refine ⟨?_, ?_, ?_, ?_, ?_, ?_, ?_, trivial⟩
    all_goals
      rintro v ⟨⟩
      decide +kernel
  exact ⟨Directory.vacant_sync, rfl, hfits,
    transcript_directory (i := 0) Directory.vacant_sync rfl syncTurns hfits⟩

/-- A collection that is as deep as a number. -/
def deepCollection (k : Nat) : String := ".".intercalate (List.replicate k "language")

namespace Directory

theorem segment_deep (k : Nat) : ∀ s ∈ List.replicate k "language", Segment s := by
  intro s hs
  rw [List.eq_of_mem_replicate hs]
  exact ⟨by decide +kernel, by decide, by decide⟩

/-- The path of a collection gets longer with each level. -/
theorem mul_le_deep (root : String) (k : Nat) :
    8 * k ≤ (collectionPath root (deepCollection k)).utf8ByteSize := by
  have hsegments : Name.segments (deepCollection k) = List.replicate k "language" :=
    segments_of_segment (segment_deep k)
  have hbytes : ∀ s ∈ List.replicate k "language", 8 ≤ s.utf8ByteSize := by
    intro s hs
    rw [List.eq_of_mem_replicate hs]
    decide +kernel
  have hlength : root.utf8ByteSize + 8 * (List.replicate k "language").length ≤ _ :=
    mul_length_le_foldl_join hbytes
  rw [List.length_replicate] at hlength
  rw [collectionPath, hsegments]
  omega

end Directory

/-- In a collection that is too deep, a directory does not reply that there is no document. -/
theorem Store.transcript_directory_deep :
    Directory.Vacant "sync" World.empty.files ∧ World.empty.shelves.get 0 = ∅ ∧
      Directory.admitsCollection (deepCollection 600) = true ∧ Directory.admits "system.site" = true ∧
      let turns : List Turn := [⟨0, .collection (deepCollection 600)⟩, ⟨1, .call (.read "system.site")⟩]
      ¬ List.Forall₂ (fun x y => Session.SameOutcome Reply.Same x.1 y.1)
        (Session.transcript ⟨[directory "sync" Name.defaultCollection], World.empty⟩ turns)
        (Session.transcript ⟨[shelf 0 Name.defaultCollection], World.empty⟩ turns) := by
  have hcollection : Directory.admitsCollection (deepCollection 600) = true :=
    Directory.admitsCollection_of_segment (Directory.segment_deep 600)
  have hname : Directory.admits "system.site" = true := by decide +kernel
  have hdeep := Directory.mul_le_deep "sync" 600
  generalize deepCollection 600 = c at hcollection hdeep ⊢
  have hlong : FileTree.pathLimit ≤ (Directory.documentPath "sync" c "system.site").utf8ByteSize := by
    have hjoin := Directory.add_le_join (Directory.collectionPath "sync" c)
      (Directory.fileName "system.site")
    rw [Directory.documentPath, FileTree.pathLimit]
    omega
  obtain ⟨stop, hread⟩ := Directory.exists_read_of_long hname hlong World.empty.files
  refine ⟨Directory.vacant_sync, rfl, hcollection, hname, ?_⟩
  intro turns h
  have hopen := collection_directory "sync" Name.defaultCollection hcollection World.empty
  have hopened : Session.turn ⟨[directory "sync" Name.defaultCollection], World.empty⟩
      ⟨0, .collection c⟩ =
      (⟨[directory "sync" Name.defaultCollection, directory "sync" c], World.empty⟩,
        some (.ok .opened)) := by
    show Session.record _ (Question.run _ (.collection c) World.empty) = _
    rw [Question.run, Run.map_ok hopen]
    rfl
  have hstops : (Session.turn ⟨[directory "sync" Name.defaultCollection, directory "sync" c],
      World.empty⟩ ⟨1, .call (.read "system.site")⟩).2 = some (.error stop) := by
    have hrun : (Call.read "system.site").run (View.storage (directory "sync" c)) World.empty =
        .error stop World.empty := Run.map_error (World.onFiles_error hread)
    show (Session.record _ (Question.run _ (.call (.read "system.site")) World.empty)).2 = _
    rw [Question.run, Run.map_error hrun]
    rfl
  cases h with
  | cons _ hrest =>
    cases hrest with
    | cons hsame _ =>
      rw [hopened, hstops] at hsame
      cases hsame

end LayeredConfig
