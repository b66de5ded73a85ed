import LayeredConfig.Proofs.Identity
import LayeredConfig.Proofs.Sameness
import LayeredConfig.Proofs.Transfer
/-!
# Round trips

Without an overlay, an export is a transfer from one shelf into another through a pipeline that has no
filters, and an import is one back. The pipeline stores no empty document, though it answers that it
was written. So all documents come back but the empty ones: under their names, what the other shelf has
is taken over (`export_import`).
-/

namespace LayeredConfig

/-- No mapping in any document of a shelf has two keys that are the same. -/
def Shelf.distinct (s : Shelf) : Bool := s.entries.all fun e => e.2.entries.all (·.2.distinct)

theorem Shelf.distinct_of_get? {s : Shelf} {c name : String} {d : Document} (hs : s.distinct = true)
    (hd : (s.documents c).get? name = some d) : d.distinct = true := by
  rw [documents] at hd
  cases hc : s.get? c with
  | none =>
    rw [hc] at hd
    cases hd
  | some ds =>
    rw [hc] at hd
    have hds := List.all_eq_true.mp hs (c, ds) (Dict.lookup_eq_some hc)
    exact List.all_eq_true.mp hds (name, d) (Dict.lookup_eq_some hd)

namespace Transfer

open World

variable {i j : Nat} {c : String} {w w' : World} {r r' : Report} {mark : Option Nat}

/-- A shelf in a pipeline that has no filters. -/
def unfiltered (mark : Option Nat) (i : Nat) (c : String) : Store := .layered mark (.shelf i c) []

theorem storage_unfiltered (mark : Option Nat) (i : Nat) (c : String) :
    (unfiltered mark i c).storage = (Store.shelf i c).storage.sparing :=
  Store.storage_layered (.shelf i c) (by simp)

theorem collection_unfiltered (mark : Option Nat) (i : Nat) (c d : String) (w : World) :
    (unfiltered mark i c).collection d w = .ok (unfiltered none i d) w := by
  rw [unfiltered, Store.collection_layered (by simp), Store.collection]
  rfl

theorem opens_unfiltered (mark : Option Nat) (i : Nat) :
    View.Opens (unfiltered mark i Name.defaultCollection) fun c => (Store.shelf i c).storage.sparing where
  storage := storage_unfiltered mark i Name.defaultCollection
  collection c w :=
    ⟨_, collection_unfiltered mark i Name.defaultCollection c w, storage_unfiltered none i c⟩

theorem collectionNames_unfiltered (mark : Option Nat) (i : Nat) (c : String) (w : World) :
    (unfiltered mark i c).storage.collectionNames w = .ok (w.shelves.get i).named w := by
  rw [storage_unfiltered]
  exact Store.collectionNames_shelf i c w

/-! ## One collection -/

theorem readsAs_sparing (i : Nat) (c : String) : ReadsAs (Store.shelf i c).storage.sparing i c :=
  ⟨rfl, rfl⟩

theorem changes_sparing (i : Nat) (c : String) (w : World) :
    Changes (Store.shelf i c).storage.sparing i c w (fun _ d o => if d.isEmpty then o else some d)
      fun _ _ => none where
  write name d u b v hu h := by
    cases hd : d.isEmpty with
    | true =>
      simp only [Storage.sparing, hd, if_true] at h ⊢
      rw [Run.map_ok (Store.contains_shelf i c u name)] at h
      rw [← (EStateM.Result.ok.inj h).2]
      exact .refl i c name u
    | false =>
      simp only [Storage.sparing, hd] at h ⊢
      exact (changes_shelf i c w).write name d u b v hu h
  delete := (changes_shelf i c w).delete

theorem sparing_answers (i : Nat) (c : String) : (Store.shelf i c).storage.sparing.Answers where
  list := (shelf_answers i c).list
  readMany := (shelf_answers i c).readMany
  write name d := by
    refine .ite (fun w => ?_) ((shelf_answers i c).write name d)
    exact ⟨true, w, Run.map_ok (Store.contains_shelf i c w name)⟩
  delete := (shelf_answers i c).delete
  collectionNames := (shelf_answers i c).collectionNames

/-- What an export leaves at a name, where the shelf that it goes to and the one that it comes from
have these. -/
def exported (existing incoming : Option Document) : Option Document :=
  incoming.bind fun d => if d.isEmpty || existing.any (·.same d) then existing else some d

/-- What comes back to a name. -/
theorem settled_exported {existing active : Option Document} (h : ∀ d ∈ existing, d.distinct = true) :
    settled active (exported existing active) =
      active.bind fun d => if d.isEmpty then existing else some d := by
  cases active with
  | none => rfl
  | some d =>
    rw [exported, Option.bind_some, Option.bind_some]
    cases existing with
    | none => cases hd : d.isEmpty <;> simp [settled]
    | some e =>
      cases hed : e.same d with
      | true =>
        have hde : d.same e = true := Document.same_symm (h e rfl) hed
        have hempty : d.isEmpty = e.isEmpty := Document.isEmpty_of_same hde
        cases hd : d.isEmpty with
        | true =>
          rw [hd] at hempty
          rw [Dict.eq_empty_of_isEmpty hd, Dict.eq_empty_of_isEmpty hempty.symm]
          simp [settled]
        | false => simp [settled, hed, hde]
      | false =>
        cases hd : d.isEmpty with
        | true =>
          have hde : d.same e = false := by
            rw [Bool.eq_false_iff]
            intro hde
            have hempty := Document.isEmpty_of_same hde
            rw [hd] at hempty
            rw [Dict.eq_empty_of_isEmpty hd, Dict.eq_empty_of_isEmpty hempty.symm,
              Document.same_refl] at hed
            cases hed
          simp [settled, hde]
        | false => simp [settled, hed]

theorem reconcile_exported
    (h : reconcile (Store.shelf j c).storage (Store.shelf i c).storage.sparing r w = .ok r' w') :
    OnlyAt i c w w' ∧ ∀ name, (w'.documents i c).get? name =
      exported ((w.documents i c).get? name) ((w.documents j c).get? name) := by
  obtain ⟨honly, hall⟩ := reconcile_documents (changes_sparing i c w)
    (reads_shelves (readsAs_shelf j c) (readsAs_sparing i c) w) h
  refine ⟨honly, fun name => ?_⟩
  rw [hall name, contains_listed_shelf, pruned, exported, Dict.contains, Dict.contains]
  cases (w.documents j c).get? name with
  | none => cases (w.documents i c).get? name <;> simp [copied]
  | some d =>
    cases (w.documents i c).get? name with
    | none => cases hd : d.isEmpty <;> simp [copied, hd]
    | some e => cases hed : e.same d <;> simp [copied, hed]

theorem reads_import (i j : Nat) (c : String) (w : World) :
    Reads (Store.shelf i c).storage.sparing (Store.shelf j c).storage w
      ((w.documents i c).keys.filter (·.startsWith "")) (w.documents i c) (w.documents j c) :=
  reads_shelves (readsAs_sparing i c) (readsAs_shelf j c) w

theorem reconcile_imported
    (h : reconcile (Store.shelf i c).storage.sparing (Store.shelf j c).storage r w = .ok r' w') :
    OnlyAt j c w w' ∧ ∀ name, (w'.documents j c).get? name =
      settled ((w.documents j c).get? name) ((w.documents i c).get? name) :=
  reconcile_shelf (reads_import i j c w) (fun _ => mem_listed_shelf) h

/-! ## All collections -/

/-- What a transfer between two shelves makes of the documents of a collection. -/
structure Mirrored (put : Option Document → Option Document → Option Document) (i j : Nat)
    (u v : Nat → Dict Document) : Prop where
  source : v i = u i
  target : ∀ name, (v j).get? name = put ((u j).get? name) ((u i).get? name)

theorem run_exported_unfiltered (hne : i ≠ j)
    (h : run (Store.shelf j Name.defaultCollection) (unfiltered mark i Name.defaultCollection) w =
      .ok r w') :
    OnlyOn i w w' ∧ ∀ c, Mirrored exported j i (w.documents · c) (w'.documents · c) := by
  obtain ⟨honly, hall⟩ := run_documents (Store.opens_shelf j) (opens_unfiltered mark i)
    (Store.collectionNames_shelf j _) (collectionNames_unfiltered mark i _) (fun _ => exported)
    (fun _ => rfl) (fun _ _ _ _ _ => reconcile_exported) h
  exact ⟨honly, fun c => ⟨honly.documents_of_ne hne.symm c, hall c⟩⟩

theorem run_imported_unfiltered (hne : i ≠ j)
    (h : run (unfiltered mark i Name.defaultCollection) (Store.shelf j Name.defaultCollection) w =
      .ok r w') :
    OnlyOn j w w' ∧ ∀ c, Mirrored settled i j (w.documents · c) (w'.documents · c) := by
  obtain ⟨honly, hall⟩ := run_documents (opens_unfiltered mark i) (Store.opens_shelf j)
    (collectionNames_unfiltered mark i _) (Store.collectionNames_shelf j _) (fun _ => settled)
    (fun _ => rfl) (fun _ _ _ _ _ => reconcile_imported) h
  exact ⟨honly, fun c => ⟨honly.documents_of_ne hne c, hall c⟩⟩

/-- A collection into which nothing needs to be transferred. -/
theorem reconcile_of_settled (h : ∀ name, settled ((w.documents j c).get? name)
      ((w.documents i c).get? name) = (w.documents j c).get? name) (r : Report) :
    ∃ r', reconcile (Store.shelf i c).storage.sparing (Store.shelf j c).storage r w = .ok r' w ∧
      r.SameChanges r' := by
  refine reconcile_settled (reads_import i j c w) ?_ ?_ r
  · intro name d hd
    obtain ⟨e, he, hsame, -⟩ := settled_same ((w.documents j c).get? name) d
    rw [← hd, h name] at he
    exact ⟨e, he, hsame⟩
  · intro name hname
    rw [mem_listed_shelf]
    intro hnone
    rw [Dict.contains_iff, ← h name, hnone, settled_none] at hname
    exact hname rfl

/-- An import reports changes exactly if it has made some. -/
theorem import_hasChanges_eq_false_iff (hne : i ≠ j)
    (h : run (unfiltered mark i Name.defaultCollection) (Store.shelf j Name.defaultCollection) w =
      .ok r w') :
    r.hasChanges = false ↔ ∀ c, w'.documents j c = w.documents j c := by
  have hnames : ∀ w, ∃ ours theirs,
      (unfiltered mark i Name.defaultCollection).storage.collectionNames w = .ok ours w ∧
      (Store.shelf j Name.defaultCollection).storage.collectionNames w = .ok theirs w :=
    fun w => ⟨_, _, collectionNames_unfiltered mark i _ w, Store.collectionNames_shelf j _ w⟩
  constructor
  · intro hno
    have hcounts : Counts j .zero w r w' := run_counts (opens_unfiltered mark i) (Store.opens_shelf j)
      (fun c _ u _ _ => reconcile_counts (reads_import i j c u)) hnames h
    rcases hcounts with hlt | ⟨-, hsame⟩
    · simp only [Report.hasChanges, decide_eq_false_iff_not] at hno
      exact (hno (Nat.zero_lt_of_lt hlt)).elim
    · exact hsame
  · intro hsame
    obtain ⟨-, hall⟩ := run_imported_unfiltered hne h
    have hsettled : ∀ c name, settled ((w.documents j c).get? name)
        ((w.documents i c).get? name) = (w.documents j c).get? name := by
      intro c name
      rw [← (hall c).target name, hsame c]
    obtain ⟨s, hrun, hs⟩ := run_settled (opens_unfiltered mark i) (Store.opens_shelf j)
      (fun c => reconcile_of_settled (hsettled c)) (hnames w)
    obtain ⟨rfl, -⟩ := Run.ok_unique h hrun
    simp [Report.hasChanges, hs.created, hs.updated, hs.deleted, Report.zero]

theorem run_export_unfiltered_answers (mark : Option Nat) (i j : Nat) :
    Run.Answers (run (Store.shelf j Name.defaultCollection)
      (unfiltered mark i Name.defaultCollection)) :=
  run_answers (Store.opens_shelf j) (opens_unfiltered mark i) (shelf_answers j) (sparing_answers i)

theorem run_import_unfiltered_answers (mark : Option Nat) (i j : Nat) :
    Run.Answers (run (unfiltered mark i Name.defaultCollection)
      (Store.shelf j Name.defaultCollection)) :=
  run_answers (opens_unfiltered mark i) (Store.opens_shelf j) (sparing_answers i) (shelf_answers j)

/-- An export and an import after it always answer. They leave every document as it was, but for the
empty ones: an empty document is replaced by what the other shelf has under its name, and is gone if
there is nothing. The import reports no changes exactly if each empty document was empty there, too. -/
theorem export_import (hne : i ≠ j) (hi : (w.shelves.get i).distinct = true) (mark : Option Nat) :
    ∃ r₁ w₁ r₂ w₂,
      run (Store.shelf j Name.defaultCollection) (unfiltered mark i Name.defaultCollection) w =
        .ok r₁ w₁ ∧
      run (unfiltered mark i Name.defaultCollection) (Store.shelf j Name.defaultCollection) w₁ =
        .ok r₂ w₂ ∧
      (∀ c name, (w₂.documents j c).get? name = ((w.documents j c).get? name).bind fun d =>
        if d.isEmpty then (w.documents i c).get? name else some d) ∧
      (r₂.hasChanges = false ↔ ∀ c name, (w.documents j c).get? name = some ∅ →
        (w.documents i c).get? name = some ∅) := by
  obtain ⟨r₁, w₁, h₁⟩ := run_export_unfiltered_answers mark i j w
  obtain ⟨r₂, w₂, h₂⟩ := run_import_unfiltered_answers mark i j w₁
  have hafter : ∀ c name, (w₂.documents j c).get? name = ((w.documents j c).get? name).bind fun d =>
      if d.isEmpty then (w.documents i c).get? name else some d := by
    intro c name
    have hsent := ((run_exported_unfiltered hne h₁).2 c)
    rw [((run_imported_unfiltered hne h₂).2 c).target name, hsent.source, hsent.target name]
    exact settled_exported fun d hd => Shelf.distinct_of_get? hi hd
  refine ⟨r₁, w₁, r₂, w₂, h₁, h₂, hafter, ?_⟩
  rw [import_hasChanges_eq_false_iff hne h₂]
  constructor
  · intro hsame c name hempty
    have hname := hafter c name
    rw [hsame c, ((run_exported_unfiltered hne h₁).2 c).source, hempty] at hname
    exact hname.symm
  · intro hempty c
    refine Dict.ext fun name => ?_
    rw [((run_exported_unfiltered hne h₁).2 c).source, hafter c name]
    cases hd : (w.documents j c).get? name with
    | none => rfl
    | some d =>
      rw [Option.bind_some]
      split
      · next hisEmpty =>
        rw [Dict.eq_empty_of_isEmpty hisEmpty] at hd ⊢
        exact hempty c name hd
      · rfl

/-- A live site with a guest and an empty `system.site`, to be exported to a site that has another
`system.site`. -/
def siteShelves : World :=
  .ofShelves (.ofDocuments (.ofList [("system.site", .ofList [("name", .string "Copy")])]))
    (.ofDocuments (.ofList [("system.site", ∅), ("user.guest", .ofList [("name", .string "Guest")])]))

theorem export_import_site :
    0 ≠ 1 ∧ (siteShelves.shelves.get 0).distinct = true ∧ ∃ r₁ w₁ r₂ w₂,
      run (Store.shelf 1 Name.defaultCollection) (unfiltered none 0 Name.defaultCollection)
        siteShelves = .ok r₁ w₁ ∧
      run (unfiltered none 0 Name.defaultCollection) (Store.shelf 1 Name.defaultCollection) w₁ =
        .ok r₂ w₂ ∧
      (w₂.documents 1 "").get? "user.guest" = some (.ofList [("name", .string "Guest")]) ∧
      (w₂.documents 1 "").get? "system.site" = some (.ofList [("name", .string "Copy")]) ∧
      (w₂.documents 1 "").get? "system.cron" = none ∧ ¬ r₂.hasChanges = false := by
  have hne : 0 ≠ 1 := by decide
  have hdistinct : (siteShelves.shelves.get 0).distinct = true := by decide +kernel
  obtain ⟨r₁, w₁, r₂, w₂, h₁, h₂, hafter, hchanges⟩ := export_import hne hdistinct none
  refine ⟨hne, hdistinct, r₁, w₁, r₂, w₂, h₁, h₂, hafter "" "user.guest",
    hafter "" "system.site", hafter "" "system.cron", fun hno => ?_⟩
  cases hchanges.mp hno "" "system.site" rfl

/-- A live site with nothing but an empty `system.site`, and a site without documents to export it to.
The export does not store the document, and the import deletes it. -/
theorem export_import_drops_empty_site :
    let w := World.ofShelves ∅ (.ofDocuments (.ofList [("system.site", ∅)]))
    (w.documents 1 "").get? "system.site" = some ∅ ∧ ∃ r₁ w₁ r₂ w₂,
      run (Store.shelf 1 Name.defaultCollection) (unfiltered none 0 Name.defaultCollection) w =
        .ok r₁ w₁ ∧
      run (unfiltered none 0 Name.defaultCollection) (Store.shelf 1 Name.defaultCollection) w₁ =
        .ok r₂ w₂ ∧
      r₂.hasChanges = true ∧ (w₂.documents 1 "").get? "system.site" = none := by
  intro w
  have hanswers : Run.answers (fun _ w₁ => (w₁.documents 1 "").contains "system.site" &&
      Run.answers (fun _ w₂ => !(w₂.documents 1 "").contains "system.site")
        (run (unfiltered none 0 Name.defaultCollection) (Store.shelf 1 Name.defaultCollection) w₁))
      (run (Store.shelf 1 Name.defaultCollection) (unfiltered none 0 Name.defaultCollection) w) =
        true := by
    decide +kernel
  obtain ⟨r₁, w₁, h₁, hw₁⟩ := Run.exists_of_answers hanswers
  rw [Bool.and_eq_true] at hw₁
  obtain ⟨r₂, w₂, h₂, hw₂⟩ := Run.exists_of_answers hw₁.2
  rw [Bool.not_eq_true'] at hw₂
  refine ⟨rfl, r₁, w₁, r₂, w₂, h₁, h₂, ?_, Option.not_isSome_iff_eq_none.mp (Bool.eq_false_iff.mp hw₂)⟩
  rw [← Bool.not_eq_false, import_hasChanges_eq_false_iff (by decide) h₂]
  intro hsame
  rw [hsame "", hw₁.1] at hw₂
  cases hw₂

end Transfer

end LayeredConfig
