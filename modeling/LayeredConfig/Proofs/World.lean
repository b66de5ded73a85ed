import LayeredConfig.Proofs.KeyPath
import LayeredConfig.Proofs.Run
import LayeredConfig.Store
/-!
# Documents of a world

A world is looked at through the documents in each collection of each shelf. Here is what each
operation of a shelf answers and does to that view. `World.OnlyAt` says that no more than one
collection of one shelf was changed, and `World.Sets` that no more than one document was.
-/

namespace LayeredConfig

namespace Shelf

theorem documents_put (s : Shelf) (c other : String) (ds : Dict Document) :
    (s.put c ds).documents other = if c = other then ds else s.documents other := by
  rw [put]
  split <;> rename_i hempty
  · rw [documents, documents, Dict.get?_erase]
    split
    · exact (Dict.eq_empty_of_isEmpty hempty).symm
    · rfl
  · rw [documents, documents, Dict.get?_insert]
    split <;> rfl

theorem documents_ofDocuments (ds : Dict Document) (c : String) :
    (ofDocuments ds).documents c = if Name.defaultCollection = c then ds else ∅ :=
  (congrArg (Option.getD · ∅) (Dict.get?_insert ∅ Name.defaultCollection c ds)).trans (by split <;> rfl)

theorem documents_of_get? {s : Shelf} {c : String} {ds : Dict Document} (h : s.get? c = some ds) :
    s.documents c = ds := by rw [documents, h, Option.getD_some]

theorem mem_named {s : Shelf} {c : String} :
    c ∈ s.named ↔ c ≠ Name.defaultCollection ∧ ¬ (s.documents c).isEmpty = true := by
  rw [named, List.mem_filter, Dict.mem_keys]
  simp only [Dict.contains, documents, Bool.and_eq_true, decide_eq_true_eq, Bool.not_eq_true']
  constructor
  · rintro ⟨-, hne, hc⟩
    exact ⟨hne, by simpa using hc⟩
  · rintro ⟨hne, hc⟩
    refine ⟨?_, hne, by simpa using hc⟩
    cases hs : s.get? c with
    | none => exact absurd (by rw [hs]; rfl) hc
    | some => rfl

/-! ## Operations -/

/-- Where there is a document, none of the others need be taken out with their collection. -/
theorem insert_eq_put (s : Shelf) (c name : String) (d : Document) (ds : Dict Document) :
    s.insert c (ds.insert name d) = s.put c (ds.insert name d) := by
  have hkept : ¬ (ds.insert name d).isEmpty = true := fun hempty => by
    simpa [Dict.get?_insert] using Dict.isEmpty_iff.mp hempty name
  rw [put, if_neg hkept]

/-- Where there is no collection, its documents are replaced by none. -/
theorem put_empty {s : Shelf} {c : String} (h : s.get? c = none) : s.put c ∅ = s :=
  Dict.erase_of_get? h

theorem write_eq (s : Shelf) (c name : String) (d : Document) :
    (storage c).write name d s = .ok true (s.put c ((s.documents c).insert name d)) := by
  rw [← insert_eq_put]
  rfl

theorem delete_eq (s : Shelf) (c name : String) :
    (storage c).delete name s =
      .ok ((s.documents c).contains name) (s.put c ((s.documents c).erase name)) := by
  refine (Run.bind_ok rfl _).trans ?_
  cases hs : s.get? c with
  | none =>
    have hnone : (s.documents c).erase name = ∅ := by
      rw [documents, hs]
      rfl
    rw [hnone, put_empty hs, documents, hs]
    rfl
  | some ds =>
    rw [documents_of_get? hs]
    rfl

theorem rename_eq (s : Shelf) (c old new : String) :
    (storage c).rename old new s =
      match (s.documents c).get? old with
      | none => .ok false s
      | some d => .ok true (s.put c (((s.documents c).erase old).insert new d)) := by
  refine (Run.bind_ok rfl _).trans ?_
  cases hs : s.get? c with
  | none =>
    rw [documents, hs]
    rfl
  | some ds =>
    rw [documents_of_get? hs]
    cases hd : ds.get? old with
    | none => simp only [hd]; rfl
    | some d => simp only [hd, ← insert_eq_put]; rfl

theorem deleteAll_eq (s : Shelf) (c start : String) :
    (storage c).deleteAll start s =
      .ok true (s.put c ((s.documents c).filterKeys (! ·.startsWith start))) := by
  refine (Run.bind_ok rfl _).trans ?_
  cases hs : s.get? c with
  | none =>
    have hnone : (s.documents c).filterKeys (! ·.startsWith start) = ∅ := by
      rw [documents, hs]
      rfl
    rw [hnone, put_empty hs]
    rfl
  | some ds =>
    rw [documents_of_get? hs]
    rfl

/-! ## Keys -/

/-- No mapping in any of the documents has a key twice. -/
def keyed (s : Shelf) : Bool := s.entries.all fun e => e.2.entries.all (·.2.keyed)

theorem keyed_of_get? {s : Shelf} {c name : String} {d : Document} (hs : s.keyed = true)
    (hd : (s.documents c).get? name = some d) : d.keyed = true := by
  rw [documents] at hd
  cases hc : s.get? c with
  | none =>
    rw [hc] at hd
    cases hd
  | some ds =>
    rw [hc] at hd
    have hds := List.all_eq_true.mp hs (c, ds) (Dict.lookup_eq_some hc)
    exact List.all_eq_true.mp hds (name, d) (Dict.lookup_eq_some hd)

end Shelf

namespace World

variable {i j : Nat} {c d name : String} {u v w : World}

/-- The documents in a collection of a shelf. -/
def documents (w : World) (i : Nat) (c : String) : Dict Document := (w.shelves.get i).documents c

/-- Replaces the documents in a collection of a shelf. -/
def put (w : World) (i : Nat) (c : String) (ds : Dict Document) : World :=
  { w with shelves := w.shelves.replace i ((w.shelves.get i).put c ds) }

theorem shelves_put (w : World) (i j : Nat) (c : String) (ds : Dict Document) :
    (w.put i c ds).shelves.get j =
      if i = j then (w.shelves.get i).put c ds else w.shelves.get j := rfl

theorem documents_put (w : World) (i j : Nat) (c d : String) (ds : Dict Document) :
    (w.put i c ds).documents j d = if i = j ∧ c = d then ds else w.documents j d := by
  rw [documents, shelves_put]
  by_cases hij : i = j
  · subst hij
    simpa [documents] using Shelf.documents_put _ c d ds
  · simp [hij, documents]

theorem documents_of_not_mem_named (hc : c ≠ Name.defaultCollection)
    (h : c ∉ (w.shelves.get i).named) : w.documents i c = ∅ := by
  rw [Shelf.mem_named] at h
  exact Dict.eq_empty_of_isEmpty (Decidable.of_not_not fun hne => h ⟨hc, hne⟩)

/-- A world of two shelves. -/
def ofShelves (s t : Shelf) : World :=
  ⟨⟨fun i => if i = 0 then s else if i = 1 then t else ∅, 2⟩, .empty, .empty⟩

/-! ## What may differ -/

/-- The worlds differ in no more than one shelf. -/
structure OnlyOn (i : Nat) (u w : World) : Prop where
  files : w.files = u.files
  journals : w.journals = u.journals
  shelves : ∀ j ≠ i, w.shelves.get j = u.shelves.get j

/-- The worlds differ in no more than one collection of one shelf. -/
structure OnlyAt (i : Nat) (c : String) (u w : World) : Prop extends OnlyOn i u w where
  collections : ∀ d ≠ c, w.documents i d = u.documents i d

namespace OnlyOn

theorem refl (i : Nat) (w : World) : OnlyOn i w w := ⟨rfl, rfl, fun _ _ => rfl⟩

theorem trans (h : OnlyOn i u v) (h' : OnlyOn i v w) : OnlyOn i u w where
  files := h'.files.trans h.files
  journals := h'.journals.trans h.journals
  shelves j hj := (h'.shelves j hj).trans (h.shelves j hj)

theorem documents_of_ne (h : OnlyOn i u w) (hj : j ≠ i) (d : String) :
    w.documents j d = u.documents j d := by
  rw [documents, documents, h.shelves j hj]

end OnlyOn

namespace OnlyAt

theorem refl (i : Nat) (c : String) (w : World) : OnlyAt i c w w := ⟨.refl i w, fun _ _ => rfl⟩

theorem trans (h : OnlyAt i c u v) (h' : OnlyAt i c v w) : OnlyAt i c u w where
  toOnlyOn := h.toOnlyOn.trans h'.toOnlyOn
  collections d hd := (h'.collections d hd).trans (h.collections d hd)

theorem put (w : World) (i : Nat) (c : String) (ds : Dict Document) : OnlyAt i c w (w.put i c ds) where
  files := rfl
  journals := rfl
  shelves j hj := by rw [shelves_put, if_neg (Ne.symm hj)]
  collections d hd := by rw [documents_put, if_neg fun h => hd h.2.symm]

/-- All documents of other collections stay, on all shelves. -/
theorem documents_of_collection_ne (h : OnlyAt i c u w) (hd : d ≠ c) (j : Nat) :
    w.documents j d = u.documents j d := by
  by_cases hj : j = i
  · exact hj ▸ h.collections d hd
  · exact h.toOnlyOn.documents_of_ne hj d

end OnlyAt

/-- The worlds differ in no more than one document, of which the second world has this one. -/
structure Sets (i : Nat) (c name : String) (o : Option Document) (u w : World) : Prop where
  only : OnlyAt i c u w
  here : (w.documents i c).get? name = o
  others : ∀ other ≠ name, (w.documents i c).get? other = (u.documents i c).get? other

namespace Sets

theorem refl (i : Nat) (c name : String) (w : World) :
    Sets i c name ((w.documents i c).get? name) w w :=
  ⟨.refl i c w, rfl, fun _ _ => rfl⟩

theorem of_put {ds : Dict Document} (h : ∀ other ≠ name, ds.get? other = (w.documents i c).get? other) :
    Sets i c name (ds.get? name) w (w.put i c ds) where
  only := .put w i c ds
  here := by rw [documents_put, if_pos ⟨rfl, rfl⟩]
  others other hne := by rw [documents_put, if_pos ⟨rfl, rfl⟩, h other hne]

theorem insert (w : World) (i : Nat) (c name : String) (d : Document) :
    Sets i c name (some d) w (w.put i c ((w.documents i c).insert name d)) := by
  have h : ((w.documents i c).insert name d).get? name = some d := by
    rw [Dict.get?_insert, if_pos rfl]
  rw [← h]
  refine of_put fun other hne => ?_
  rw [Dict.get?_insert, if_neg (Ne.symm hne)]

theorem erase (w : World) (i : Nat) (c name : String) :
    Sets i c name none w (w.put i c ((w.documents i c).erase name)) := by
  have h : ((w.documents i c).erase name).get? name = none := by
    rw [Dict.get?_erase, if_pos rfl]
  rw [← h]
  refine of_put fun other hne => ?_
  rw [Dict.get?_erase, if_neg (Ne.symm hne)]

end Sets

end World

/-! ## Files -/

namespace World

variable {α : Type} {x : Run FileTree α} {a : α} {t : FileTree} {w w' : World}

theorem onFiles_ok (h : x w.files = .ok a t) : onFiles x w = .ok a { w with files := t } := by
  rw [onFiles, Run.within, h]

theorem onFiles_error {stop : Halt} (h : x w.files = .error stop t) :
    onFiles x w = .error stop { w with files := t } := by
  rw [onFiles, Run.within, h]

/-- What is answered from the file tree. -/
theorem onFiles_eq_ok :
    onFiles x w = .ok a w' ↔ ∃ t, x w.files = .ok a t ∧ w' = { w with files := t } := by
  cases hx : x w.files with
  | ok b u =>
    rw [onFiles_ok hx]
    constructor
    · intro h
      cases h
      exact ⟨u, rfl, rfl⟩
    · rintro ⟨t, ht, rfl⟩
      cases ht
      rfl
  | error stop u =>
    rw [onFiles_error hx]
    constructor
    · intro h
      cases h
    · rintro ⟨t, ht, -⟩
      cases ht

/-- What only reads the file tree only reads. -/
theorem steady_onFiles (hx : x.Steady) : (onFiles x).Steady := by
  intro w
  rcases hx w.files with ⟨a, ha⟩ | ⟨stop, hstop⟩
  · exact .inl ⟨a, onFiles_ok ha⟩
  · exact .inr ⟨stop, onFiles_error hstop⟩

/-- What an operation that only reads answers in the world, it answers on the file tree. -/
theorem of_onFiles_eq_ok (hx : x.Steady) (h : onFiles x w = .ok a w) :
    x w.files = .ok a w.files := by
  obtain ⟨t, ht, -⟩ := onFiles_eq_ok.mp h
  rw [hx.eq_of_ok ht] at ht
  exact ht

end World

/-- What does not depend on the file tree is answered as it is. -/
theorem World.onFiles_ofExcept {α : Type} (o : Except Failure α) (w : World) :
    World.onFiles (.ofExcept o) w = Run.ofExcept o w := by
  cases o <;> rfl

/-- A directory leads to the collections of accepted names, and to no others. -/
theorem Store.collection_directory_eq_ok {root c d : String} {v : Store} {w w' : World} :
    View.collection (directory root c) d w = .ok v w' ↔
      Name.isValidCollection d = true ∧ v = directory root d ∧ w' = w := by
  show (if Name.isValidCollection d then pure (directory root d)
    else Run.fail (.invalidName d) : Run World Store) w = _ ↔ _
  split
  · next hd =>
    constructor
    · intro h
      cases h
      exact ⟨hd, rfl, rfl⟩
    · rintro ⟨-, rfl, rfl⟩
      rfl
  · next hd =>
    constructor
    · intro h
      cases h
    · rintro ⟨hd', -, -⟩
      exact (hd hd').elim

/-! ### Texts -/

theorem Store.encode_directory (root c : String) (d : Document) :
    (View.storage (directory root c)).encode d = World.onFiles (.ofExcept d.encode) := by
  simp only [View.storage, Store.storage, Storage.lift, Directory.storage]

theorem Store.decode_directory (root c text : String) :
    (View.storage (directory root c)).decode text = World.onFiles (.ofExcept (Document.decode text)) := by
  simp only [View.storage, Store.storage, Storage.lift, Directory.storage]

/-! ## Shelves as stores -/

namespace Store

variable (i : Nat) (c : String) (w : World)

/-- An operation of a shelf that only reads leaves the world as it is. -/
theorem onShelf_ok {i : Nat} {w : World} {α : Type} {x : Run Shelf α} {a : α}
    (h : x (w.shelves.get i) = .ok a (w.shelves.get i)) : World.onShelf i x w = .ok a w := by
  rw [World.onShelf, Run.within, h]
  simp

theorem onShelf_ofExcept {α : Type} (i : Nat) (o : Except Failure α) (w : World) :
    World.onShelf i (.ofExcept o) w = Run.ofExcept o w := by
  cases o with
  | ok a => exact onShelf_ok rfl
  | error f =>
    show EStateM.Result.error _ { w with shelves := _ } = _
    rw [Table.replace_get]
    rfl

theorem contains_shelf (name : String) :
    (shelf i c).storage.contains name w = .ok ((w.documents i c).contains name) w := onShelf_ok rfl

theorem read_shelf (name : String) :
    (shelf i c).storage.read name w = .ok ((w.documents i c).get? name) w :=
  onShelf_ok rfl

theorem readMany_shelf (names : List String) :
    (shelf i c).storage.readMany names w = .ok ((w.documents i c).restrict names) w :=
  onShelf_ok (Storage.readEach_eq fun _ _ => rfl)

theorem write_shelf (name : String) (d : Document) :
    (shelf i c).storage.write name d w =
      .ok true (w.put i c ((w.documents i c).insert name d)) := by
  show World.onShelf i ((Shelf.storage c).write name d) w = _
  rw [World.onShelf, Run.within, Shelf.write_eq]
  rfl

theorem delete_shelf (name : String) :
    (shelf i c).storage.delete name w =
      .ok ((w.documents i c).contains name) (w.put i c ((w.documents i c).erase name)) := by
  show World.onShelf i ((Shelf.storage c).delete name) w = _
  rw [World.onShelf, Run.within, Shelf.delete_eq]
  rfl

theorem rename_shelf (old new : String) :
    (shelf i c).storage.rename old new w =
      match (w.documents i c).get? old with
      | none => .ok false w
      | some d => .ok true (w.put i c (((w.documents i c).erase old).insert new d)) := by
  show World.onShelf i ((Shelf.storage c).rename old new) w = _
  rw [World.onShelf, Run.within, Shelf.rename_eq, ← World.documents]
  cases (w.documents i c).get? old with
  | none => simp
  | some d => rfl

theorem list_shelf (start : String) :
    (shelf i c).storage.list start w =
      .ok ((w.documents i c).keys.filter (·.startsWith start)) w := onShelf_ok rfl

/-- All documents are read when those that are listed are. -/
theorem readMany_listed_shelf :
    (shelf i c).storage.readMany ((w.documents i c).keys.filter (·.startsWith "")) w =
      .ok (w.documents i c) w := by
  rw [readMany_shelf, Dict.restrict_eq_self]
  simp

theorem deleteAll_shelf (start : String) :
    (shelf i c).storage.deleteAll start w =
      .ok true (w.put i c ((w.documents i c).filterKeys (! ·.startsWith start))) := by
  show World.onShelf i ((Shelf.storage c).deleteAll start) w = _
  rw [World.onShelf, Run.within, Shelf.deleteAll_eq]
  rfl

theorem collectionNames_shelf :
    (shelf i c).storage.collectionNames w = .ok (w.shelves.get i).named w := onShelf_ok rfl

theorem encode_shelf (d : Document) :
    (View.storage (shelf i c)).encode d = World.onShelf i (.ofExcept d.encode) := by
  simp only [View.storage, Store.storage, Storage.lift, Shelf.storage]

theorem decode_shelf (text : String) :
    (View.storage (shelf i c)).decode text = World.onShelf i (.ofExcept (Document.decode text)) := by
  simp only [View.storage, Store.storage, Storage.lift, Shelf.storage]

theorem collection_shelf (other : String) :
    View.collection (shelf i c) other w = .ok (shelf i other) w := rfl

end Store

/-- A view of the default collection of a store, in which each collection has its own operations. -/
structure View.Opens {V : Type} [View World V] (v : V) (storages : String → Storage World) : Prop where
  storage : View.storage v = storages Name.defaultCollection
  collection : ∀ c w, ∃ u : V, View.collection v c w = .ok u w ∧ View.storage u = storages c

/-- A store that is opened from a store, one collection after the other. -/
inductive Store.Reaches (s : Store) : Store → Prop
  | self : Reaches s s
  | collection {t u : Store} {c : String} {w w' : World} : Reaches s t →
      View.collection t c w = .ok u w' → Reaches s u

theorem Store.opens_shelf (i : Nat) :
    View.Opens (shelf i Name.defaultCollection) fun c => (shelf i c).storage where
  storage := rfl
  collection c w := ⟨_, collection_shelf i Name.defaultCollection w c, rfl⟩

/-! ## Chains of filters -/

theorem Filter.chain_eq_map (source : Option (Storage World)) (fs : List Filter) :
    Filter.chain source fs = fs.map (Filter.hooks source) := by
  induction fs with
  | nil => rw [Filter.chain, List.map_nil]
  | cons f fs ih => rw [Filter.chain, List.map_cons, ih]

theorem Filter.derivations_eq_map (c : String) (fs : List Filter) :
    Filter.derivations c fs = fs.map (Filter.derive c) := by
  induction fs with
  | nil => rw [Filter.derivations, List.map_nil]
  | cons f fs ih => rw [Filter.derivations, List.map_cons, ih]

end LayeredConfig
