import LayeredConfig.Proofs.Deletion
import LayeredConfig.Proofs.Splice
/-!
# A shelf behind an ignore filter

A layer is a shelf wrapped in one ignore filter, whose active store is a shelf as well. Each
operation is given here as what it answers and what it does to the documents of the wrapped shelf;
later modules look at no hook.
-/

namespace LayeredConfig

open World

/-- Two shelves by their numbers, the wrapped one and the active one, and what is ignored. -/
structure Layer where
  base : Nat
  active : Nat
  patterns : Ignore.Patterns
  deactivated : Bool

namespace Layer

variable (x : Layer) (c : String) (w : World)

/-- A collection of the wrapped shelf, behind the filter. A mark does not count for what it does. -/
def store (mark : Option Nat) (c : String) : Store :=
  .layered mark (.shelf x.base c) [.ignore x.patterns x.deactivated (.shelf x.active c)]

/-- What the filter works with in a collection. -/
def context (c : String) : Ignore.Context World :=
  ⟨x.patterns, x.deactivated, (Store.shelf x.active c).storage⟩

/-- Whether documents of a name are ignored. -/
def ignores (name : String) : Bool := !x.deactivated && x.patterns.ignores name

/-- The keys that are ignored in documents of a name. -/
def keys (name : String) : List KeyPath := if x.deactivated then [] else x.patterns.keys name

/-- The hooks of the filter, which is bound to the wrapped shelf. -/
def hooks (c : String) : Hooks World :=
  (x.context c).hooks (some (Store.shelf x.base c).storage.readOnly)

/-- The operations on a collection, whatever the mark. -/
def storage (c : String) : Storage World :=
  Pipeline.storage (Store.shelf x.base c).storage [x.hooks c]

theorem storage_store (mark : Option Nat) : View.storage (x.store mark c) = x.storage c := rfl

/-- All collections are reached from each one. -/
theorem collection_store (mark : Option Nat) (other : String) :
    View.collection (x.store mark c) other w = .ok (x.store none other) w := rfl

/-- Nothing but collections of the wrapped shelf behind the filter is opened from one of them. -/
theorem store_of_reaches {mark : Option Nat} {c : String} {v : Store}
    (h : (x.store mark c).Reaches v) : ∃ mark' c', v = x.store mark' c' := by
  induction h with
  | self => exact ⟨mark, c, rfl⟩
  | @collection _ _ d _ _ _ hopen ih =>
    obtain ⟨mark', c', rfl⟩ := ih
    rw [collection_store] at hopen
    cases hopen
    exact ⟨none, d, rfl⟩

theorem opens_store (mark : Option Nat) :
    View.Opens (x.store mark Name.defaultCollection) x.storage where
  storage := x.storage_store _ mark
  collection c w := ⟨_, x.collection_store Name.defaultCollection w mark c, x.storage_store c none⟩

theorem encode_eq (d : Document) :
    (x.storage c).encode d = (View.storage (Store.shelf x.base c)).encode d := by
  simp only [storage, Pipeline.storage, View.storage]

theorem decode_eq (text : String) :
    (x.storage c).decode text = (View.storage (Store.shelf x.base c)).decode text := by
  simp only [storage, Pipeline.storage, View.storage]

/-! ## Reading -/

/-- A document with its ignored keys taken from the active one. There is no answer where a tagged
mapping is in the way. -/
def spliced (name : String) (a o : Option Document) : Option (Option Document) :=
  match o with
  | none => some none
  | some d => (Ignore.splice a (x.keys name) d).map some

/-- What is read at a name, where the active shelf and the wrapped one have these. -/
def replaced (name : String) (a o : Option Document) : Option (Option Document) :=
  if x.ignores name then some a else x.spliced name a o

/-- What is read at a name when many are read: a document of the wrapped shelf comes in where the
active one has none, also if the name is ignored. -/
def merged (name : String) (a o : Option Document) : Option (Option Document) :=
  if x.ignores name then some (a.or o) else x.spliced name a o

theorem replaced_of_ignores {name : String} (h : x.ignores name = true) (a o : Option Document) :
    x.replaced name a o = some a := if_pos h

theorem replaced_of_not_ignores {name : String} (h : x.ignores name = false)
    (a o : Option Document) : x.replaced name a o = x.spliced name a o := if_neg (by simp [h])

@[simp] theorem merged_none (name : String) : x.merged name none none = some none := by
  rw [merged]
  split <;> rfl

theorem merged_of_ignores {name : String} (h : x.ignores name = true) (a o : Option Document) :
    x.merged name a o = some (a.or o) := if_pos h

theorem merged_of_not_ignores {name : String} (h : x.ignores name = false) (a o : Option Document) :
    x.merged name a o = x.spliced name a o := if_neg (by simp [h])

/-- Nothing is read where the wrapped shelf has nothing, unless the active one has it and it is
ignored. -/
theorem merged_eq_none_iff {name : String} {a o : Option Document} :
    x.merged name a o = some none ↔ o = none ∧ (x.ignores name = true → a = none) := by
  cases hig : x.ignores name with
  | true =>
    rw [x.merged_of_ignores hig]
    simp [and_comm]
  | false =>
    rw [x.merged_of_not_ignores hig]
    cases o <;> simp [spliced]

theorem spliced_eq (name : String) (d : Document) :
    (x.context c).spliced name d w =
      Run.ofOption (Ignore.splice ((w.documents x.active c).get? name) (x.keys name) d) w := by
  have hkeys : (x.context c).keys name = x.keys name := rfl
  rw [Ignore.Context.spliced, hkeys]
  cases x.keys name with
  | nil => rfl
  | cons p paths =>
    refine (Run.bind_ok (Store.read_shelf x.active c w name) _).trans ?_
    cases Ignore.splice ((w.documents x.active c).get? name) (p :: paths) d <;> rfl

theorem replaced_eq (name : String) (o : Option Document) :
    (x.context c).replaced name o w =
      Run.ofOption (x.replaced name ((w.documents x.active c).get? name) o) w := by
  have hignores : (x.context c).ignores name = x.ignores name := rfl
  unfold Ignore.Context.replaced
  rw [replaced, hignores]
  split
  · exact Store.read_shelf x.active c w name
  · cases o with
    | none => rfl
    | some d =>
      have hspliced := x.spliced_eq c w name d
      rw [spliced]
      cases hs : Ignore.splice ((w.documents x.active c).get? name) (x.keys name) d with
      | none =>
        rw [hs] at hspliced
        exact Run.map_error hspliced
      | some s =>
        rw [hs] at hspliced
        exact Run.map_ok hspliced

theorem read_eq (name : String) :
    (x.storage c).read name w =
      Run.ofOption (x.replaced name ((w.documents x.active c).get? name)
        ((w.documents x.base c).get? name)) w := by
  refine (Run.bind_ok (Store.read_shelf x.base c w name) _).trans ?_
  rw [Run.foldlM_singleton]
  exact x.replaced_eq c w name _

theorem contains_eq (name : String) :
    (x.storage c).contains name w =
      .ok ((w.documents x.base c).contains name ||
        x.ignores name && (w.documents x.active c).contains name) w := by
  refine (Run.bind_ok (Store.contains_shelf x.base c w name) _).trans ?_
  rw [Run.foldlM_singleton]
  have hignores : (x.context c).ignores name = x.ignores name := rfl
  simp only [hooks, Ignore.Context.hooks, hignores]
  cases (w.documents x.base c).contains name <;> cases x.ignores name <;>
    first | rfl | exact Store.contains_shelf x.active c w name

/-- What reading many makes of a document of the wrapped shelf. -/
def filled (active : Dict Document) (name : String) (d : Document) : Option Document :=
  if x.ignores name then some d else Ignore.splice (active.get? name) (x.keys name) d

/-- The documents of some names. -/
def mergedMany (names : List String) (active base : Dict Document) : Option (Dict Document) :=
  (Dict.mapEntries? (x.filled active) (base.restrict names).entries).map fun es =>
    (Dict.ofList es).override (active.restrict (names.filter x.ignores))

theorem merged_of_mergedMany {names : List String} {active base ds : Dict Document}
    (h : x.mergedMany names active base = some ds) (name : String) :
    if name ∈ names then x.merged name (active.get? name) (base.get? name) = some (ds.get? name)
    else ds.get? name = none := by
  obtain ⟨es, hes, rfl⟩ := Option.map_eq_some_iff.mp h
  obtain ⟨hlookup, hsome⟩ := Dict.lookup_mapEntries? hes name
  rw [Dict.get?_override, Dict.get?_ofList (Dict.distinct_mapEntries? (Dict.distinct_entries _) hes),
    hlookup]
  rw [← Dict.get?] at hlookup hsome ⊢
  rw [Dict.get?_restrict] at hlookup hsome ⊢
  rw [Dict.get?_restrict]
  by_cases hname : name ∈ names
  · simp only [hname, if_true, List.mem_filter, true_and] at hsome ⊢
    rw [merged]
    cases hig : x.ignores name with
    | true => cases base.get? name <;> simp [filled, hig]
    | false =>
      cases hd : base.get? name with
      | none => simp [spliced]
      | some d =>
        obtain ⟨s, hs⟩ := Option.ne_none_iff_exists'.mp (hsome d hd)
        simp only [filled, hig, Bool.false_eq_true, if_false] at hs
        simp [spliced, filled, hig, hs]
  · simp [hname, List.mem_filter]

/-- Many documents can be read where each of them can. -/
theorem exists_mergedMany {names : List String} {active base : Dict Document}
    (h : ∀ name ∈ names, x.merged name (active.get? name) (base.get? name) ≠ none) :
    ∃ ds, x.mergedMany names active base = some ds := by
  have hfilled : ∀ e ∈ (base.restrict names).entries, x.filled active e.1 e.2 ≠ none := by
    intro e he hnone
    have hget := Dict.lookup_of_mem (base.restrict names).ascending he
    rw [← Dict.get?, Dict.get?_restrict] at hget
    rw [filled] at hnone
    split at hnone <;> rename_i hig
    · cases hnone
    · split at hget <;> rename_i hname
      · refine h e.1 hname ?_
        rw [merged, if_neg hig, hget, spliced, hnone]
        rfl
      · cases hget
  obtain ⟨es, hes⟩ := Dict.exists_mapEntries? hfilled
  exact ⟨_, congrArg (Option.map _) hes⟩

theorem readMany_eq (names : List String) :
    (x.storage c).readMany names w =
      Run.ofOption (x.mergedMany names (w.documents x.active c) (w.documents x.base c)) w := by
  refine (Run.bind_ok (Store.readMany_shelf x.base c w names) _).trans ?_
  rw [Run.foldlM_singleton]
  show (x.context c).replacedMany names ((w.documents x.base c).restrict names) w = _
  have hignores : (x.context c).ignores = x.ignores := rfl
  unfold Ignore.Context.replacedMany
  rw [mergedMany, hignores]
  have hstep : ∀ e : String × Document,
      (if x.ignores e.1 then pure e else do
        let d ← (x.context c).spliced e.1 e.2
        pure (e.1, d) : Run World (String × Document)) w =
      Run.ofOption ((x.filled (w.documents x.active c) e.1 e.2).map (e.1, ·)) w := by
    intro e
    rw [filled]
    split
    · rfl
    · have hspliced := x.spliced_eq c w e.1 e.2
      cases hs : Ignore.splice ((w.documents x.active c).get? e.1) (x.keys e.1) e.2 with
      | none =>
        rw [hs] at hspliced
        exact Run.bind_error hspliced _
      | some s =>
        rw [hs] at hspliced
        exact Run.bind_ok hspliced _
  have hloop : (((w.documents x.base c).restrict names).entries.mapM _ : Run World _) w =
      Run.ofOption (Dict.mapEntries? (x.filled (w.documents x.active c))
        ((w.documents x.base c).restrict names).entries) w := Run.mapM_ofOption fun e _ => hstep e
  cases hes : Dict.mapEntries? (x.filled (w.documents x.active c))
    ((w.documents x.base c).restrict names).entries with
  | none =>
    rw [hes] at hloop
    exact Run.bind_error hloop _
  | some es =>
    rw [hes] at hloop
    refine (Run.bind_ok hloop _).trans ?_
    cases names.filter x.ignores with
    | nil => rw [Dict.restrict_nil]; rfl
    | cons name rest => exact Run.bind_ok (Store.readMany_shelf x.active c w (name :: rest)) _

/-! ## Names -/

/-- The names that are listed. -/
def listed (start : String) (active base : Dict Document) : List String :=
  Name.sortedUnique (Name.sortedUnique (base.keys.filter (·.startsWith start) ++
    (active.keys.filter (·.startsWith start)).filter x.ignores))

theorem mem_listed {start name : String} {active base : Dict Document} :
    name ∈ x.listed start active base ↔ name.startsWith start = true ∧
      (base.contains name = true ∨ x.ignores name = true ∧ active.contains name = true) := by
  simp only [listed, Name.mem_sortedUnique, List.mem_append, List.mem_filter, Dict.mem_keys]
  tauto

theorem list_eq (start : String) :
    (x.storage c).list start w =
      .ok (x.listed start (w.documents x.active c) (w.documents x.base c)) w := by
  refine (Run.bind_ok (Store.list_shelf x.base c w start) _).trans ?_
  rw [Run.foldlM_singleton]
  have hhook : ∀ names, (x.hooks c).list start names w = .ok (Name.sortedUnique (names ++
      ((w.documents x.active c).keys.filter (·.startsWith start)).filter x.ignores)) w :=
    fun _ => Run.bind_ok (Store.list_shelf x.active c w start) _
  exact Run.bind_ok (hhook _) _

/-- The names that are not listed are those under which nothing is read. -/
theorem not_mem_listed_iff {name : String} {active base : Dict Document} :
    name ∉ x.listed "" active base ↔
      x.merged name (active.get? name) (base.get? name) = some none := by
  simp [mem_listed, merged_eq_none_iff, Dict.contains]

/-- When all names that are listed are read, every name is. -/
theorem merged_of_listed {active base ds : Dict Document}
    (h : x.mergedMany (x.listed "" active base) active base = some ds) (name : String) :
    x.merged name (active.get? name) (base.get? name) = some (ds.get? name) := by
  have hname := x.merged_of_mergedMany h name
  split at hname <;> rename_i hlisted
  · exact hname
  · rw [hname]
    exact x.not_mem_listed_iff.mp hlisted

theorem mem_listed_iff {active base ds : Dict Document}
    (h : x.mergedMany (x.listed "" active base) active base = some ds) (name : String) :
    name ∈ x.listed "" active base ↔ ds.get? name ≠ none := by
  have hnot : name ∉ x.listed "" active base ↔ ds.get? name = none := by
    rw [not_mem_listed_iff, x.merged_of_listed h, Option.some.injEq]
  exact (not_iff_comm.mp hnot).symm

/-- The other collections of either shelf. -/
def named : List String :=
  Name.sortedUnique (Name.sortedUnique ((w.shelves.get x.base).named ++ (w.shelves.get x.active).named))

theorem collectionNames_eq : (x.storage c).collectionNames w = .ok (x.named w) w := by
  refine (Run.bind_ok (Store.collectionNames_shelf x.base c w) _).trans ?_
  rw [Run.foldlM_singleton]
  have hhook : ∀ names, (x.hooks c).collectionNames names w =
      .ok (Name.sortedUnique (names ++ (w.shelves.get x.active).named)) w :=
    fun _ => Run.bind_ok (Store.collectionNames_shelf x.active c w) _
  exact Run.bind_ok (hhook _) _

/-- A collection that is not named has no documents on either shelf. -/
theorem documents_of_not_mem_named {w : World} {c : String} (hc : c ≠ Name.defaultCollection)
    (h : c ∉ x.named w) : w.documents x.base c = ∅ ∧ w.documents x.active c = ∅ := by
  simp only [named, Name.mem_sortedUnique, List.mem_append, not_or] at h
  exact ⟨World.documents_of_not_mem_named hc h.1, World.documents_of_not_mem_named hc h.2⟩

/-! ## Changing -/

/-- What writing leaves at a name, where this was to be written: an empty document, or none, is
written nowhere, but it deletes what is ignored. -/
def kept (name : String) (payload o : Option Document) : Option Document :=
  match payload.filter (! ·.isEmpty) with
  | some p => some p
  | none => if x.ignores name then none else o

theorem kept_of_not_isEmpty {name : String} {d : Document} (h : d.isEmpty = false)
    (o : Option Document) : x.kept name (some d) o = some d := by
  rw [kept, Option.filter_some_pos (by simp [h])]

/-- What is ignored becomes what was to be written, and goes if that is nothing. -/
theorem kept_of_ignores {name : String} (h : x.ignores name = true) (payload o : Option Document) :
    x.kept name payload o = payload.filter (! ·.isEmpty) := by
  rw [kept, if_pos h]
  cases payload.filter (! ·.isEmpty) <;> rfl

/-- The world after this was written. -/
def wrote (name : String) (payload : Option Document) : World :=
  match payload.filter (! ·.isEmpty) with
  | some p => w.put x.base c ((w.documents x.base c).insert name p)
  | none =>
    if (w.documents x.base c).contains name && x.ignores name then
      w.put x.base c ((w.documents x.base c).erase name)
    else w

theorem wrote_sets (name : String) (payload : Option Document) :
    Sets x.base c name (x.kept name payload ((w.documents x.base c).get? name)) w
      (x.wrote c w name payload) := by
  rw [kept, wrote]
  cases payload.filter (! ·.isEmpty) with
  | some p => exact .insert w x.base c name p
  | none =>
    cases hig : x.ignores name with
    | false => simpa using Sets.refl x.base c name w
    | true =>
      cases hd : (w.documents x.base c).contains name with
      | true => simpa using Sets.erase w x.base c name
      | false =>
        have hnone : (w.documents x.base c).get? name = none := by simpa [Dict.contains] using hd
        simpa [hnone] using Sets.refl x.base c name w

theorem write_eq (name : String) (d : Document) :
    (x.storage c).write name d w =
      match x.replaced name ((w.documents x.active c).get? name) (some d) with
      | none => .error .crash w
      | some payload => .ok true (x.wrote c w name payload) := by
  have hreplaced := x.replaced_eq c w name (some d)
  show Pipeline.write (Store.shelf x.base c).storage
    [x.hooks c] name d w = _
  unfold Pipeline.write
  rw [Run.foldlM_singleton]
  cases hp : x.replaced name ((w.documents x.active c).get? name) (some d) with
  | none =>
    rw [hp] at hreplaced
    exact Run.bind_error hreplaced _
  | some payload =>
    rw [hp] at hreplaced
    refine (Run.bind_ok hreplaced _).trans ?_
    simp only [wrote]
    cases payload.filter (! ·.isEmpty) with
    | some p => exact Store.write_shelf x.base c w name p
    | none =>
      refine (Run.bind_ok (Store.contains_shelf x.base c w name) _).trans ?_
      have hasks : [x.hooks c].anyM
          (·.emptyDeletes name) w = .ok (x.ignores name) w := by
        refine (Run.bind_ok rfl _).trans ?_
        show _ = EStateM.Result.ok ((x.context c).ignores name) w
        cases (x.context c).ignores name <;> rfl
      cases hd : (w.documents x.base c).contains name with
      | false => rfl
      | true =>
        refine (Run.bind_ok hasks _).trans ?_
        cases x.ignores name with
        | false => rfl
        | true =>
          refine (Store.delete_shelf x.base c w name).trans ?_
          rw [hd]
          rfl

/-- What is ignored is not deleted. -/
theorem delete_eq (name : String) :
    (x.storage c).delete name w =
      if x.ignores name then .ok false w
      else .ok ((w.documents x.base c).contains name)
        (w.put x.base c ((w.documents x.base c).erase name)) := by
  show Pipeline.delete (Store.shelf x.base c).storage
    [x.hooks c] name w = _
  have hpermits : Pipeline.permitsDelete
      [x.hooks c] name w =
      .ok (!x.ignores name) w := by
    rw [Pipeline.permitsDelete, Run.foldlM_singleton]
    rfl
  refine (Run.bind_ok hpermits _).trans ?_
  cases x.ignores name with
  | false => exact Store.delete_shelf x.base c w name
  | true => rfl

/-- What is ignored is not renamed, and nothing is renamed to it. -/
theorem rename_eq (old new : String) :
    (x.storage c).rename old new w =
      if x.ignores old || x.ignores new then .ok false w
      else (Store.shelf x.base c).storage.rename old new w := by
  have hpermits : ([x.hooks c].foldlM
      (fun b h => h.rename old new b) true : Run World Bool) w =
      .ok (!(x.ignores old || x.ignores new)) w := by
    rw [Run.foldlM_singleton, Bool.not_or]
    rfl
  refine (Run.bind_ok hpermits _).trans ?_
  cases x.ignores old || x.ignores new <;> rfl

/-- Whether nothing that is ignored is among the names that start with a text, on either shelf. -/
def spares (start : String) (active base : Dict Document) : Bool :=
  !(base.keys.filter (·.startsWith start)).any x.ignores &&
    !(active.keys.filter (·.startsWith start)).any x.ignores

/-- The filter alone, in a collection. -/
def screen (c : String) : Screen := ⟨x.patterns, x.deactivated, x.active, c⟩

/-- Documents are deleted at once if that spares all that is ignored, and else one by one. -/
theorem deleteAll_eq (start : String) :
    (x.storage c).deleteAll start w =
      if x.spares start (w.documents x.active c) (w.documents x.base c) then
        .ok true (w.put x.base c ((w.documents x.base c).filterKeys (! ·.startsWith start)))
      else (do
        ((w.documents x.base c).keys.filter (·.startsWith start)).forM fun name => do
          discard ((x.storage c).delete name)
        pure true : Run World Bool) w := by
  have hdelete := Screen.deleteAll_eq [x.screen c] x.base c w start
  rw [List.all_cons, List.all_nil, Bool.and_true] at hdelete
  exact hdelete

/-- Of the names that start with a text, all that are not ignored are deleted, be it at once or one
by one. -/
theorem deleteAll_documents (start : String) :
    ∃ v, (x.storage c).deleteAll start w = .ok true v ∧ OnlyAt x.base c w v ∧
      ∀ name, (v.documents x.base c).get? name =
        if name.startsWith start = true ∧ x.ignores name = false then none
        else (w.documents x.base c).get? name := by
  obtain ⟨v, hrun, honly, hv⟩ := Screen.deleteAll_documents [x.screen c] x.base c w start
  refine ⟨v, hrun, honly, fun name => ?_⟩
  have hignores : [x.screen c].any (·.ignores name) = x.ignores name := by
    rw [List.any_cons, List.any_nil, Bool.or_false]
    rfl
  rw [hv, Screen.survivors, Dict.get?_filterKeys, hignores]
  cases name.startsWith start <;> cases x.ignores name <;> simp

/-! ## A small layer -/

/-- A site: all that is about the system is ignored, but for the file system, and so is the mail
address in the settings of users. -/
def site : Layer where
  base := 0
  active := 1
  patterns := (Ignore.Patterns.ofTexts? ["system.*", "user.*:mail", "~system.file"]).toOption.getD ⟨[]⟩
  deactivated := false

/-- A document with one text under each name. -/
def texts (fields : List (String × String)) : Document :=
  .ofList (fields.map fun f => (f.1, .string f.2))

/-- A site that has been set up elsewhere, and is live here. -/
def siteWorld : World :=
  .ofShelves
    (.ofDocuments (.ofList [
      ("system.file", texts [("scheme", "private")]),
      ("system.site", texts [("name", "Sync")]),
      ("user.settings", texts [("mail", "sync@example.com"), ("role", "editor")])]))
    (.ofDocuments (.ofList [
      ("system.cron", texts [("interval", "daily")]),
      ("user.settings", texts [("mail", "live@example.com"), ("role", "guest")])]))

end Layer

end LayeredConfig
