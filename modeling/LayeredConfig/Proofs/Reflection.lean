import LayeredConfig.Command
import LayeredConfig.Proofs.Identity
import LayeredConfig.Proofs.Layer
import LayeredConfig.Proofs.Passage
/-!
# A store laid over itself

An ignore filter may take from the very store that it is wrapped around. What is read through it is then
what is read without it, in every collection: what is ignored is taken from where it is anyhow, keys are
set to what they are, and the names of both stores are those of one (`Store.reads_reflected`). Only where
a tagged mapping is above an ignored key, reading stops.
-/

namespace LayeredConfig

namespace Storage

variable {σ : Type}

/-- A storage whose reading operations leave every state as it is, and that reads many documents as it
reads each of them. -/
structure Steady (x : Storage σ) : Prop where
  contains : ∀ name, (x.contains name).Steady
  read : ∀ name, (x.read name).Steady
  readMany : ∀ names, (x.readMany names).Steady
  list : ∀ start, (x.list start).Steady
  collectionNames : x.collectionNames.Steady
  all : ∀ {names : List String} {ds : Dict Document} {s : σ},
    (∀ name ∈ names, x.read name s = .ok (ds.get? name) s) →
      x.readMany names s = .ok (ds.restrict names) s
  each : ∀ {names : List String} {ds : Dict Document} {s : σ}, x.readMany names s = .ok ds s →
    ds.restrict names = ds ∧ ∀ name ∈ names, x.read name s = .ok (ds.get? name) s

/-- A storage behind an ignore filter that takes from the storage itself. -/
def reflected (p : Ignore.Patterns) (b : Bool) (x : Storage σ) : Storage σ :=
  Pipeline.storage x [Ignore.Context.hooks ⟨p, b, x⟩ (some x.readOnly)]

/-- No tagged mapping is above an ignored key of the document that is read under a name. -/
def Clear (p : Ignore.Patterns) (x : Storage σ) (name : String) (s : σ) : Prop :=
  ∀ d, x.read name s = .ok (some d) s → ∀ k ∈ p.keys name, d.Passable k

/-! ## Reading -/

section Reflected

variable {x : Storage σ} {p : Ignore.Patterns} {b : Bool} {name : String} {s : σ}

theorem contains_reflected (hx : x.Steady) (p : Ignore.Patterns) (b : Bool) (name : String) :
    (x.reflected p b).contains name = x.contains name := by
  funext s
  refine (hx.contains name).bind_eq_self fun found hfound => ?_
  rw [Run.foldlM_singleton]
  show (if !found && _ then x.contains name else pure found : Run σ Bool) s = _
  split
  · exact hfound
  · rfl

theorem spliced_reflected {d : Document} (hread : x.read name s = .ok (some d) s)
    (hclear : x.Clear p name s) : Ignore.Context.spliced ⟨p, b, x⟩ name d s = .ok d s := by
  have hkeys : ∀ k ∈ Ignore.Context.keys ⟨p, b, x⟩ name, d.Passable k := by
    intro k hk
    rw [Ignore.Context.keys] at hk
    split at hk
    · cases hk
    · exact hclear d hread k hk
  rw [Ignore.Context.spliced]
  cases hpaths : Ignore.Context.keys ⟨p, b, x⟩ name with
  | nil => rfl
  | cons k paths =>
    refine (Run.bind_ok hread _).trans ?_
    rw [Ignore.splice_of_passable (hpaths ▸ hkeys)]
    rfl

theorem read_reflected (hx : x.Steady) (b : Bool) (hclear : x.Clear p name s) :
    (x.reflected p b).read name s = x.read name s := by
  refine (hx.read name).bind_eq_self fun o ho => ?_
  rw [Run.foldlM_singleton]
  show Ignore.Context.replaced ⟨p, b, x⟩ name o s = _
  unfold Ignore.Context.replaced
  split
  · exact ho
  · cases o with
    | none => rfl
    | some d => exact Run.map_ok (spliced_reflected ho hclear)

/-- Reading many passes through where reading each of them does. -/
theorem readMany_reflected (hx : x.Steady) (b : Bool) {names : List String}
    (hclear : ∀ name ∈ names, x.Clear p name s) :
    (x.reflected p b).readMany names s = x.readMany names s := by
  refine (hx.readMany names).bind_eq_self fun ds hds => ?_
  obtain ⟨hrestrict, heach⟩ := hx.each hds
  rw [Run.foldlM_singleton]
  show Ignore.Context.replacedMany ⟨p, b, x⟩ names ds s = _
  unfold Ignore.Context.replacedMany
  -- Each document that was read is spliced into itself.
  have hstep : ∀ e ∈ ds.entries,
      (if Ignore.Context.ignores ⟨p, b, x⟩ e.1 then pure e
        else return (e.1, ← Ignore.Context.spliced ⟨p, b, x⟩ e.1 e.2) : Run σ (String × Document)) s =
      .ok e s := by
    intro e he
    have hget : ds.get? e.1 = some e.2 := Dict.lookup_of_mem ds.ascending he
    have hname : e.1 ∈ names := by
      by_contra hnot
      rw [← hrestrict, Dict.get?_restrict, if_neg hnot] at hget
      cases hget
    split
    · rfl
    · exact Run.bind_ok (spliced_reflected (hget ▸ heach e.1 hname) (hclear e.1 hname)) _
  refine (Run.bind_ok (Run.mapM_self hstep) _).trans ?_
  rw [Dict.ofList_entries]
  generalize hmatched : names.filter (Ignore.Context.ignores ⟨p, b, x⟩) = matched
  have hsub : ∀ name ∈ matched, x.read name s = .ok (ds.get? name) s := by
    intro name hname
    rw [← hmatched] at hname
    exact heach name (List.mem_of_mem_filter hname)
  cases matched with
  | nil => rfl
  | cons name rest =>
    refine (Run.bind_ok (hx.all hsub) _).trans ?_
    rw [Dict.override_restrict]
    rfl

/-- A hook that adds to names some of those that are there already adds nothing. -/
theorem names_reflected {y : Run σ (List String)} (hy : y.Steady) (ho : Name.sortedUnique <$> y = y)
    {hook : List String → Run σ (List String)} {pick : List String → List String}
    (hpick : ∀ names, pick names ⊆ names)
    (hhook : ∀ names, hook names = do return Name.sortedUnique (names ++ pick (← y))) :
    (do return Name.sortedUnique (← hook (← y))) = y := by
  funext s
  refine hy.bind_eq_self fun names hnames => ?_
  have hascending : names.Pairwise (· < ·) := by
    have hsorted : (Name.sortedUnique <$> y) s = .ok (Name.sortedUnique names) s := Run.map_ok hnames
    rw [ho] at hsorted
    rw [← (Run.ok_unique hsorted hnames).1]
    exact Name.pairwise_sortedUnique names
  have hadded : hook names s = .ok names s := by
    rw [hhook]
    refine (Run.bind_ok hnames _).trans ?_
    rw [Name.sortedUnique_append_of_subset hascending (hpick names)]
    rfl
  refine (Run.bind_ok hadded _).trans ?_
  rw [Name.sortedUnique_of_ascending hascending]
  rfl

theorem list_reflected (hx : x.Steady) (ho : x.Orderly) (p : Ignore.Patterns) (b : Bool)
    (start : String) : (x.reflected p b).list start = x.list start := by
  show Pipeline.list x _ start = _
  simp only [Pipeline.list, Run.foldlM_singleton]
  exact names_reflected (hx.list start) (ho.list start) (fun _ => List.filter_sublist.subset)
    fun _ => rfl

theorem collectionNames_reflected (hx : x.Steady) (ho : x.Orderly) (p : Ignore.Patterns) (b : Bool) :
    (x.reflected p b).collectionNames = x.collectionNames := by
  show Pipeline.collectionNames x _ = _
  simp only [Pipeline.collectionNames, Run.foldlM_singleton]
  exact names_reflected hx.collectionNames ho.collectionNames (fun names => List.Subset.refl names)
    fun _ => rfl

end Reflected

end Storage

/-! ## Shelves and directories -/

theorem Directory.steady_read (root c name : String) : (Directory.read root c name).Steady := by
  apply (Run.Steady.ofExcept _).bind
  intro path
  apply Run.Steady.get.bind
  intro t
  split
  · exact .pure none
  · exact .fail _
  · split
    · exact .pure _
    · exact .fail _

theorem Directory.steady (root c : String) : (Directory.storage root c).Steady where
  contains _ := Run.Steady.get.bind fun _ => (Run.Steady.ofExcept _).bind fun _ => .pure _
  read := Directory.steady_read root c
  readMany := Storage.steady_readEach (Directory.steady_read root c)
  list _ := Run.Steady.get.bind fun _ => (Run.Steady.ofExcept _).bind fun _ => .pure _
  collectionNames := Run.Steady.get.bind fun _ => (Run.Steady.ofExcept _).bind fun _ => .pure _
  all := Storage.readEach_eq
  each := Storage.readEach_eq_ok (Directory.steady_read root c)

namespace Store

theorem steady_shelf (i : Nat) (c : String) : (shelf i c).storage.Steady where
  contains name w := .inl ⟨_, contains_shelf i c w name⟩
  read name w := .inl ⟨_, read_shelf i c w name⟩
  readMany names w := .inl ⟨_, readMany_shelf i c w names⟩
  list start w := .inl ⟨_, list_shelf i c w start⟩
  collectionNames w := .inl ⟨_, collectionNames_shelf i c w⟩
  all {names ds w} h := by
    have hsame : (w.documents i c).restrict names = ds.restrict names := by
      refine Dict.ext fun name => ?_
      rw [Dict.get?_restrict, Dict.get?_restrict]
      split
      · next hname => exact (Run.ok_unique (read_shelf i c w name) (h name hname)).1
      · rfl
    rw [readMany_shelf, hsame]
  each {names ds w} h := by
    obtain ⟨rfl, -⟩ := Run.ok_unique (readMany_shelf i c w names) h
    refine ⟨Dict.restrict_restrict names _, fun name hname => ?_⟩
    rw [read_shelf, Dict.get?_restrict, if_pos hname]

theorem steady_directory (root c : String) : (directory root c).storage.Steady where
  contains name := World.steady_onFiles ((Directory.steady root c).contains name)
  read name := World.steady_onFiles ((Directory.steady root c).read name)
  readMany names := World.steady_onFiles ((Directory.steady root c).readMany names)
  list start := World.steady_onFiles ((Directory.steady root c).list start)
  collectionNames := World.steady_onFiles (Directory.steady root c).collectionNames
  all {names ds w} h := by
    have hread := (Directory.steady root c).read
    refine World.onFiles_ok ((Directory.steady root c).all fun name hname => ?_)
    exact World.of_onFiles_eq_ok (hread name) (h name hname)
  each {names ds w} h := by
    have hmany := (Directory.steady root c).readMany names
    obtain ⟨hrestrict, heach⟩ := (Directory.steady root c).each (World.of_onFiles_eq_ok hmany h)
    exact ⟨hrestrict, fun name hname => World.onFiles_ok (heach name hname)⟩

theorem Plain.steady {s : Store} (h : s.Plain) : s.storage.Steady := by
  induction h with
  | shelf i c => exact steady_shelf i c
  | directory root c => exact steady_directory root c
  | readOnly _ ih =>
    exact ⟨ih.contains, ih.read, ih.readMany, ih.list, ih.collectionNames, ih.all, ih.each⟩

theorem Plain.steady_collection {s : Store} (h : s.Plain) (c : String) : (s.collection c).Steady := by
  induction h with
  | shelf i c' => exact .pure _
  | directory root c' =>
    rw [Store.collection]
    split
    · exact .pure _
    · exact .fail _
  | readOnly _ ih =>
    rw [Store.collection]
    exact ih.map

/-! ## A store behind its own filter -/

/-- A store behind an ignore filter that takes from the store itself. -/
def reflected (mark : Option Nat) (p : Ignore.Patterns) (b : Bool) (s : Store) : Store :=
  .layered mark s [.ignore p b s]

theorem storage_reflected (mark : Option Nat) (p : Ignore.Patterns) (b : Bool) (s : Store) :
    View.storage (reflected mark p b s) = (View.storage s).reflected p b := by
  show (layered mark s [.ignore p b s]).storage = _
  rw [Store.storage, Filter.chain, Filter.chain, Filter.hooks]
  rfl

/-- A collection behind the filter is that of the store, behind a filter that takes from it. -/
theorem collection_reflected {s : Store} (hs : s.Plain) (mark : Option Nat) (p : Ignore.Patterns)
    (b : Bool) (c : String) :
    View.collection (reflected mark p b s) c = reflected none p b <$> View.collection s c := by
  funext w
  show (layered mark s [.ignore p b s]).collection c w = (reflected none p b <$> s.collection c) w
  rw [Store.collection, Filter.derivations, Filter.derivations, Filter.derive]
  -- The filter asks for the collection of the store first, and then the store is asked for it.
  rcases hs.steady_collection c w with ⟨t, ht⟩ | ⟨stop, hstop⟩
  · have hderive : Pipeline.derive [(some <| Filter.ignore p b ·) <$> s.collection c] w =
        .ok [.ignore p b t] w := Run.bind_ok (Run.map_ok ht) _
    have hcollection : Pipeline.collection [(some <| Filter.ignore p b ·) <$> s.collection c]
        (s.collection c) w = .ok (t, [.ignore p b t]) w :=
      (Run.bind_ok hderive _).trans (Run.bind_ok ht _)
    rw [Run.map_ok ht, Run.bind_ok hcollection]
    rfl
  · have hderive : Pipeline.derive [(some <| Filter.ignore p b ·) <$> s.collection c] w =
        .error stop w := Run.bind_error (Run.map_error hstop) _
    rw [Run.map_error hstop]
    exact Run.bind_error (Run.bind_error hderive _) _

/-- What is read through a store is what is read from another one, with the same answers and failures,
unless a tagged mapping is above an ignored key of a document. -/
structure Transparent (p : Ignore.Patterns) (v t : Store) : Prop where
  contains : ∀ name, (View.storage v).contains name = (View.storage t).contains name
  read : ∀ name w, (View.storage t).Clear p name w →
    (View.storage v).read name w = (View.storage t).read name w
  readMany : ∀ names w, (∀ name ∈ names, (View.storage t).Clear p name w) →
    (View.storage v).readMany names w = (View.storage t).readMany names w
  list : ∀ start, (View.storage v).list start = (View.storage t).list start
  collectionNames : (View.storage v).collectionNames = (View.storage t).collectionNames

theorem Plain.transparent {s : Store} (hs : s.Plain) (mark : Option Nat) (p : Ignore.Patterns)
    (b : Bool) : Transparent p (reflected mark p b s) s := by
  have hsteady : (View.storage s).Steady := hs.steady
  have horderly : (View.storage s).Orderly := hs.orderly
  constructor <;> rw [storage_reflected]
  · exact Storage.contains_reflected hsteady p b
  · exact fun _ _ hclear => Storage.read_reflected hsteady b hclear
  · exact fun _ _ hclear => Storage.readMany_reflected hsteady b hclear
  · exact Storage.list_reflected hsteady horderly p b
  · exact Storage.collectionNames_reflected hsteady horderly p b

/-- Opens collections one from the other. -/
def descend (collections : List String) (s : Store) : Run World Store :=
  collections.foldlM View.collection s

/-- Of a store that is laid over itself, and of the store alone, the same collections can be opened, and
the others fail for the same cause. What is read in a collection behind the filter is what is read there
without it. -/
theorem reads_reflected {s : Store} (hs : s.Plain) (mark : Option Nat) (p : Ignore.Patterns) (b : Bool)
    (collections : List String) (w : World) :
    (∃ t mark', descend collections s w = .ok t w ∧
      descend collections (reflected mark p b s) w = .ok (reflected mark' p b t) w ∧
      Transparent p (reflected mark' p b t) t) ∨
    ∃ stop, descend collections s w = .error stop w ∧
      descend collections (reflected mark p b s) w = .error stop w := by
  unfold descend
  induction collections generalizing s mark with
  | nil => exact .inl ⟨s, mark, rfl, rfl, hs.transparent mark p b⟩
  | cons c collections ih =>
    rw [List.foldlM_cons, List.foldlM_cons, collection_reflected hs]
    have hsteady : Run.Steady (View.collection s c) := hs.steady_collection c
    rcases hsteady w with ⟨t, ht⟩ | ⟨stop, hstop⟩
    · rw [Run.bind_ok ht, Run.bind_ok (Run.map_ok ht)]
      exact ih (hs.collection ht) none
    · exact .inr ⟨stop, Run.bind_error hstop _, Run.bind_error (Run.map_error hstop) _⟩

/-- A page whose front is ignored is read as it is, and a collection without an accepted name is not
opened. -/
theorem reads_reflected_page :
    let p := (Ignore.Patterns.ofTexts? ["system.site:page.front", "user.*"]).toOption.getD ⟨[]⟩
    let page : Document := .ofList [("name", .string "Sync"),
      ("page", .mapping [(.string "front", .string "/sync"), (.string "denied", .string "/denied")])]
    let w := World.ofShelves (.ofDocuments (.ofList [("system.site", page)])) ∅
    let site := Store.shelf 0 Name.defaultCollection
    let files := Store.directory "sync" Name.defaultCollection
    p.keys "system.site" = [⟨"page", ["front"]⟩] ∧ site.Plain ∧
      (View.storage site).Clear p "system.site" w ∧
      (View.storage (reflected (some 0) p false site)).read "system.site" w = .ok (some page) w ∧
      files.Plain ∧ ∃ stop, View.collection (reflected (some 0) p false files) "../language" w =
        .error stop w := by
  intro p page w site files
  have hkeys : p.keys "system.site" = [⟨"page", ["front"]⟩] := by decide +kernel
  have hsite : site.Plain := .shelf 0 _
  have hfiles : files.Plain := .directory "sync" _
  have hget : (w.documents 0 Name.defaultCollection).get? "system.site" = some page := by
    have hshelf : w.shelves.get 0 = .ofDocuments (.ofList [("system.site", page)]) := rfl
    rw [World.documents, hshelf, Shelf.documents_ofDocuments, if_pos rfl,
      Dict.get?_ofList (List.pairwise_singleton _ _)]
    rfl
  have hread : (View.storage site).read "system.site" w = .ok (some page) w := by
    rw [← hget]
    exact read_shelf 0 Name.defaultCollection w "system.site"
  have hpage : page.Passable ⟨"page", ["front"]⟩ := by
    by_contra hnot
    have hnone : page.with? ⟨"page", ["front"]⟩ .null = none := Document.with?_eq_none_iff.mpr hnot
    revert hnone
    decide +kernel
  have hclear : (View.storage site).Clear p "system.site" w := by
    intro d hd k hk
    obtain ⟨heq, -⟩ := Run.ok_unique hread hd
    cases heq
    rw [hkeys, List.mem_singleton] at hk
    exact hk ▸ hpage
  refine ⟨hkeys, hsite, hclear, ?_, hfiles, ?_⟩
  · rcases reads_reflected hsite (some 0) p false [] w with
      ⟨t, mark, ht, hopen, htransparent⟩ | ⟨stop, hstop, -⟩
    · cases ht
      cases hopen
      exact (htransparent.read "system.site" w hclear).trans hread
    · cases hstop
  · rcases reads_reflected hfiles (some 0) p false ["../language"] w with
      ⟨t, mark, ht, -⟩ | ⟨stop, -, hopen⟩
    · rw [descend, Run.foldlM_singleton] at ht
      exact absurd (collection_directory_eq_ok.mp ht).1 (by decide +kernel)
    · rw [descend, Run.foldlM_singleton] at hopen
      exact ⟨stop, hopen⟩

end Store

/-- A command for which no active directory is given reads what is in the directory, if its overlay is
one ignore filter. -/
theorem Command.openStore_transparent {o : Overlay} {root : String} {p : Ignore.Patterns} {b : Bool}
    (h : Registry.standard.chain o (directory root) = .ok [.ignore p b (directory root)])
    (collection : String) (w : World) :
    (∃ v, openStore o root none collection w = .ok v w ∧
      Store.Transparent p v (.directory root collection)) ∨
    ∃ stop, View.collection (directory root) collection w = .error stop w ∧
      openStore o root none collection w = .error stop w := by
  have hwrap : Registry.standard.wrap none (directory root) o (directory root) =
      .ok (Store.reflected none p b (directory root)) := by
    rw [Registry.wrap, h]
    rfl
  have hopen : openStore o root none collection =
      if collection.isEmpty then pure (Store.reflected none p b (directory root))
      else View.collection (Store.reflected none p b (directory root)) collection := by
    rw [openStore, Option.getD_none, hwrap]
    rfl
  have hplain : (directory root).Plain := .directory root Name.defaultCollection
  rw [hopen]
  split
  · next hempty =>
    obtain rfl : collection = Name.defaultCollection := String.isEmpty_iff.mp hempty
    exact .inl ⟨_, rfl, hplain.transparent none p b⟩
  · have hsteady : Run.Steady (View.collection (directory root) collection) :=
      hplain.steady_collection collection
    rw [Store.collection_reflected hplain]
    rcases hsteady w with ⟨t, ht⟩ | ⟨stop, hstop⟩
    · obtain ⟨-, rfl, -⟩ := Store.collection_directory_eq_ok.mp ht
      exact .inl ⟨_, Run.map_ok ht, (hplain.collection ht).transparent none p b⟩
    · exact .inr ⟨stop, hstop, Run.map_error hstop⟩

end LayeredConfig
