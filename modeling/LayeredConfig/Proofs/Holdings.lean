import LayeredConfig.Proofs.ByteOrder
import LayeredConfig.Proofs.Dialogue
import LayeredConfig.Proofs.World
import Mathlib.Data.Finmap
import Mathlib.Data.Finset.Sort
/-!
# One map for all collections

All views of a shelf work on one finite map, from a collection and a name to a document. `Holdings` is
that map, with its own operations; a shelf is the map of its documents (`Shelf.holdings`). In every
dialogue, the views of a shelf reply as the map does, and the shelf is its map after each turn. Names are
listed in the order of their bytes, no operation is seen in another collection, and no collection is kept
that has lost its last document (`Store.transcript_holdings`).
-/

namespace LayeredConfig

/-- Documents, each under a collection and a name. -/
abbrev Holdings := Finmap fun _ : String × String => Document

namespace Holdings

/-! ## The operations of the map -/

/-- The names that have a document in a collection. -/
def names (m : Holdings) (c : String) : Finset String := (m.keys.filter (·.1 = c)).image (·.2)

/-- The other collections than the default one that have a document. -/
def named (m : Holdings) : Finset String := (m.keys.image (·.1)).erase Name.defaultCollection

/-- The map without the documents whose collection and name pass a test. -/
def without (m : Holdings) (gone : String × String → Bool) : Holdings :=
  Finmap.keysLookupEquiv.symm
    ⟨(m.keys.filter fun k => gone k = false, fun k => if gone k then none else m.lookup k),
      fun k => by cases h : gone k <;> simp [h, Finmap.lookup_isSome, Finmap.mem_keys]⟩

/-- The operations on the documents that are under a collection. -/
def storage (c : String) : Storage Holdings where
  contains name := return ((← get).lookup (c, name)).isSome
  read name := return (← get).lookup (c, name)
  readMany names := do
    let m ← get
    return Dict.ofList (names.filterMap fun name => (m.lookup (c, name)).map (name, ·))
  write name d := do
    modify (·.insert (c, name) d)
    return true
  delete name := do
    let m ← get
    set (m.erase (c, name))
    return (m.lookup (c, name)).isSome
  rename old new := do
    let m ← get
    match m.lookup (c, old) with
    | none => return false
    | some d =>
      set ((m.erase (c, old)).insert (c, new) d)
      return true
  list start := return (((← get).names c).filter (·.startsWith start)).sort (· ≤ ·)
  deleteAll start := do
    modify (·.without fun k => k.1 = c && k.2.startsWith start)
    return true
  collectionNames := return (← get).named.sort (· ≤ ·)
  collectionName := c
  encode d := .ofExcept d.encode
  decode text := .ofExcept (Document.decode text)

/-- The documents that are under a collection. -/
structure Part where
  collection : String

instance : View Holdings Part where
  storage p := storage p.collection
  collection _ c := pure ⟨c⟩

theorem encode_part (p : Part) (d : Document) : (View.storage p).encode d = .ofExcept d.encode := rfl

theorem decode_part (p : Part) (text : String) :
    (View.storage p).decode text = .ofExcept (Document.decode text) := by
  simp only [View.storage, storage]

/-- A document that is renamed to its own name is kept. -/
theorem rename_self (m : Holdings) (c name : String) :
    (storage c).rename name name m = .ok (m.lookup (c, name)).isSome m := by
  refine (Run.bind_ok rfl _).trans ?_
  cases h : m.lookup (c, name) with
  | none => rfl
  | some d =>
    have hkept : (m.erase (c, name)).insert (c, name) d = m :=
      Finmap.ext_lookup fun k => by
        by_cases hk : (c, name) = k
        · rw [← hk, Finmap.lookup_insert, h]
        · rw [Finmap.lookup_insert_of_ne _ (Ne.symm hk), Finmap.lookup_erase_ne (Ne.symm hk)]
    show EStateM.Result.ok true ((m.erase (c, name)).insert (c, name) d) = _
    rw [hkept]
    rfl

/-! ## What is under a name -/

theorem lookup_insert_eq (m : Holdings) (k l : String × String) (d : Document) :
    (m.insert k d).lookup l = if k = l then some d else m.lookup l := by
  split
  · next h => rw [← h, Finmap.lookup_insert]
  · next h => rw [Finmap.lookup_insert_of_ne m (Ne.symm h)]

theorem lookup_erase_eq (m : Holdings) (k l : String × String) :
    (m.erase k).lookup l = if k = l then none else m.lookup l := by
  split
  · next h => rw [← h, Finmap.lookup_erase]
  · next h => rw [Finmap.lookup_erase_ne (Ne.symm h)]

theorem lookup_without (m : Holdings) (gone : String × String → Bool) (k : String × String) :
    (m.without gone).lookup k = if gone k then none else m.lookup k := by
  rw [without, Finmap.keysLookupEquiv_symm_apply_lookup]

theorem mem_names {m : Holdings} {c name : String} :
    name ∈ m.names c ↔ m.lookup (c, name) ≠ none := by
  simp [names, Finmap.mem_keys, Finmap.lookup_eq_none]

theorem mem_named {m : Holdings} {c : String} :
    c ∈ m.named ↔ c ≠ Name.defaultCollection ∧ ∃ name, m.lookup (c, name) ≠ none := by
  simp [named, Finmap.mem_keys, Finmap.lookup_eq_none]

theorem ascending_sort (names : Finset String) : (names.sort (· ≤ ·)).Pairwise (· < ·) :=
  names.sortedLT_sort.pairwise

end Holdings

/-! ## The map of a shelf -/

/-- The documents of a collection, each under the collection and its name. -/
def Shelf.filed (e : String × Dict Document) : List (Sigma fun _ : String × String => Document) :=
  e.2.entries.map fun x => ⟨(e.1, x.1), x.2⟩

/-- The documents of all collections. -/
def Shelf.holdings (s : Shelf) : Holdings := (s.entries.flatMap Shelf.filed).toFinmap

namespace Shelf

variable {s : Shelf} {c name : String}

theorem dlookup_filed (e : String × Dict Document) (c name : String) :
    (filed e).dlookup (c, name) = if e.1 = c then e.2.get? name else none := by
  rw [filed, Dict.get?]
  induction e.2.entries with
  | nil => simp [Dict.lookup]
  | cons x rest ih =>
    rw [List.map_cons, Dict.lookup]
    by_cases hx : (e.1, x.1) = (c, name)
    · cases hx
      simp
    · rw [List.dlookup_cons_ne _ _ (Ne.symm hx), ih]
      by_cases hc : e.1 = c
      · have hne : x.1 ≠ name := fun hname => hx (by rw [hc, hname])
        simp [hc, hne]
      · simp [hc]

theorem dlookup_flatMap_filed {es : List (String × Dict Document)} (hes : Dict.Distinct es)
    (c name : String) : (es.flatMap filed).dlookup (c, name) = (Dict.lookup c es).bind (·.get? name) := by
  induction es with
  | nil => rfl
  | cons e rest ih =>
    have ⟨he, hrest⟩ := List.pairwise_cons.mp hes
    rw [List.flatMap_cons, List.dlookup_append, dlookup_filed, ih hrest, Dict.lookup]
    split
    · next hc =>
      have hnone : Dict.lookup c rest = none := Dict.lookup_eq_none.mpr fun x hx => hc ▸ (he x hx).symm
      rw [hnone, Option.bind_none, Option.or_none, Option.bind_some]
    · rw [Option.none_or]

/-- Under a collection and a name is the document of that name in the collection. -/
theorem lookup_holdings (s : Shelf) (c name : String) :
    s.holdings.lookup (c, name) = (s.documents c).get? name := by
  rw [holdings, Finmap.dlookup_list_toFinmap, dlookup_flatMap_filed s.distinct_entries, documents,
    ← Dict.get?]
  cases s.get? c <;> rfl

theorem lookup_holdings_put (s : Shelf) (c : String) (ds : Dict Document) (d name : String) :
    (s.put c ds).holdings.lookup (d, name) =
      if c = d then ds.get? name else s.holdings.lookup (d, name) := by
  rw [lookup_holdings, documents_put, lookup_holdings]
  split <;> rfl

/-- The map of a shelf is determined by its documents. -/
theorem holdings_put_eq {ds : Dict Document} {m : Holdings}
    (h : ∀ d name, m.lookup (d, name) = if c = d then ds.get? name else s.holdings.lookup (d, name)) :
    (s.put c ds).holdings = m :=
  Finmap.ext_lookup fun ⟨d, name⟩ => by rw [lookup_holdings_put, h]

/-! ### Operations of the map -/

theorem contains_holdings (s : Shelf) (c name : String) :
    (Holdings.storage c).contains name s.holdings = .ok ((s.documents c).contains name) s.holdings := by
  rw [Dict.contains, ← lookup_holdings]
  rfl

theorem read_holdings (s : Shelf) (c name : String) :
    (Holdings.storage c).read name s.holdings = .ok ((s.documents c).get? name) s.holdings := by
  rw [← lookup_holdings]
  rfl

theorem readMany_holdings (s : Shelf) (c : String) (names : List String) :
    (Holdings.storage c).readMany names s.holdings = .ok ((s.documents c).restrict names) s.holdings := by
  have hfound : Dict.ofList (names.filterMap fun name => (s.holdings.lookup (c, name)).map (name, ·)) =
      (s.documents c).restrict names := by
    rw [← Dict.foldl_collect, Dict.ofList, Dict.insertAll, List.foldl_filterMap]
    congr
    funext found name
    rw [lookup_holdings, Dict.collect]
    cases (s.documents c).get? name <;> rfl
  rw [← hfound]
  rfl

theorem write_holdings (s : Shelf) (c name : String) (d : Document) :
    (Holdings.storage c).write name d s.holdings =
      .ok true (s.put c ((s.documents c).insert name d)).holdings := by
  have hmap : (s.put c ((s.documents c).insert name d)).holdings = s.holdings.insert (c, name) d := by
    refine holdings_put_eq fun other n => ?_
    rw [Holdings.lookup_insert_eq, Dict.get?_insert, lookup_holdings]
    by_cases hc : c = other <;> simp [hc]
  rw [hmap]
  rfl

theorem delete_holdings (s : Shelf) (c name : String) :
    (Holdings.storage c).delete name s.holdings =
      .ok ((s.documents c).contains name) (s.put c ((s.documents c).erase name)).holdings := by
  have hmap : (s.put c ((s.documents c).erase name)).holdings = s.holdings.erase (c, name) := by
    refine holdings_put_eq fun other n => ?_
    rw [Holdings.lookup_erase_eq, Dict.get?_erase, lookup_holdings]
    by_cases hc : c = other <;> simp [hc]
  rw [hmap, Dict.contains, ← lookup_holdings]
  rfl

theorem rename_holdings (s : Shelf) (c old new : String) :
    (Holdings.storage c).rename old new s.holdings =
      match (s.documents c).get? old with
      | none => .ok false s.holdings
      | some d => .ok true (s.put c (((s.documents c).erase old).insert new d)).holdings := by
  refine (Run.bind_ok rfl _).trans ?_
  rw [lookup_holdings]
  cases (s.documents c).get? old with
  | none => rfl
  | some d =>
    have hmap : (s.put c (((s.documents c).erase old).insert new d)).holdings =
        (s.holdings.erase (c, old)).insert (c, new) d := by
      refine holdings_put_eq fun other n => ?_
      rw [Holdings.lookup_insert_eq, Holdings.lookup_erase_eq, Dict.get?_insert, Dict.get?_erase,
        lookup_holdings]
      by_cases hc : c = other <;> simp [hc]
    simp only [hmap]
    rfl

theorem list_holdings (s : Shelf) (c start : String) :
    (Holdings.storage c).list start s.holdings =
      .ok ((s.documents c).keys.filter (·.startsWith start)) s.holdings := by
  have hlisted : ((s.holdings.names c).filter (·.startsWith start)).sort (· ≤ ·) =
      (s.documents c).keys.filter (·.startsWith start) := by
    refine Name.eq_of_ascending (Holdings.ascending_sort _) ((Dict.pairwise_keys _).filter _) fun name => ?_
    rw [Finset.mem_sort, Finset.mem_filter, Holdings.mem_names, lookup_holdings, List.mem_filter,
      Dict.mem_keys, Dict.contains_iff]
  rw [← hlisted]
  rfl

theorem deleteAll_holdings (s : Shelf) (c start : String) :
    (Holdings.storage c).deleteAll start s.holdings =
      .ok true (s.put c ((s.documents c).filterKeys (! ·.startsWith start))).holdings := by
  have hmap : (s.put c ((s.documents c).filterKeys (! ·.startsWith start))).holdings =
      s.holdings.without fun k => k.1 = c && k.2.startsWith start := by
    refine holdings_put_eq fun other n => ?_
    rw [Holdings.lookup_without, Dict.get?_filterKeys, lookup_holdings]
    by_cases hc : c = other
    · subst hc
      cases n.startsWith start <;> simp
    · simp [hc, Ne.symm hc]
  rw [hmap]
  rfl

theorem collectionNames_holdings (s : Shelf) (c : String) :
    (Holdings.storage c).collectionNames s.holdings = .ok s.named s.holdings := by
  have hnamed : s.holdings.named.sort (· ≤ ·) = s.named := by
    refine Name.eq_of_ascending (Holdings.ascending_sort _) ((Dict.pairwise_keys _).filter _) fun c => ?_
    have hsome : (∃ name, s.holdings.lookup (c, name) ≠ none) ↔ ¬ (s.documents c).isEmpty = true := by
      simp only [lookup_holdings, Dict.isEmpty_iff, not_forall, ne_eq]
    rw [Finset.mem_sort, Holdings.mem_named, mem_named, hsome]
  rw [← hnamed]
  rfl

/-! ### Collections that are kept -/

/-- No other collection than the default one is kept without documents. -/
def Tidy (s : Shelf) : Prop :=
  ∀ c ds, c ≠ Name.defaultCollection → s.get? c = some ds → ds.isEmpty = false

theorem tidy_empty : Tidy ∅ := nofun

theorem tidy_ofDocuments (ds : Dict Document) : (ofDocuments ds).Tidy := by
  intro c es hc hget
  rw [ofDocuments, Dict.get?_insert, if_neg (Ne.symm hc)] at hget
  cases hget

theorem Tidy.put (h : s.Tidy) (c : String) (ds : Dict Document) : (s.put c ds).Tidy := by
  intro d es hd hget
  rw [Shelf.put] at hget
  split at hget
  · rw [Dict.get?_erase] at hget
    split at hget
    · cases hget
    · exact h d es hd hget
  · next hkept =>
    rw [Dict.get?_insert] at hget
    split at hget
    · cases hget
      simpa using hkept
    · exact h d es hd hget

end Shelf

/-! ## Views of a shelf -/

/-- The documents of all collections of a shelf. -/
def World.holdings (w : World) (i : Nat) : Holdings := (w.shelves.get i).holdings

theorem World.holdings_put (w : World) (i : Nat) (c : String) (ds : Dict Document) :
    (w.put i c ds).holdings i = ((w.shelves.get i).put c ds).holdings := by
  rw [holdings, shelves_put, if_pos rfl]

/-- Whether names, if that is what is replied, are in the order of their bytes. -/
def Reply.Ascending : Reply → Prop
  | .answer (.names names) => names.Pairwise fun a b => Name.bytes a < Name.bytes b
  | _ => True

/-- Whether a call reads documents, or lists their names. -/
def Call.reads : Call → Bool
  | contains _ | read _ | readMany _ | list _ => true
  | write .. | delete _ | rename .. | deleteAll _ | collectionNames => false

namespace Store

open World

variable {i : Nat} {c d : String} {w w' : World}

theorem ascending_of_pairwise {names : List String} (h : names.Pairwise (· < ·)) :
    (Reply.answer (.names names)).Ascending := h.imp Name.bytes_lt_iff.mpr

/-- A call answers as the map does, and replaces no more than the documents of its collection. -/
theorem call_shelf (i : Nat) (c : String) (w : World) (k : Call) : ∃ a w',
    k.run (View.storage (shelf i c)) w = .ok a w' ∧
      k.run (View.storage (Holdings.Part.mk c)) (w.holdings i) = .ok a (w'.holdings i) ∧
      (w' = w ∨ ∃ ds, w' = w.put i c ds) ∧ (Reply.answer a).Ascending := by
  cases k with
  | contains name =>
    exact ⟨_, w, Run.map_ok (contains_shelf i c w name), Run.map_ok (Shelf.contains_holdings _ c name),
      .inl rfl, trivial⟩
  | read name =>
    exact ⟨_, w, Run.map_ok (read_shelf i c w name), Run.map_ok (Shelf.read_holdings _ c name),
      .inl rfl, trivial⟩
  | readMany names =>
    exact ⟨_, w, Run.map_ok (readMany_shelf i c w names), Run.map_ok (Shelf.readMany_holdings _ c names),
      .inl rfl, trivial⟩
  | write name d =>
    refine ⟨_, _, Run.map_ok (write_shelf i c w name d), ?_, .inr ⟨_, rfl⟩, trivial⟩
    rw [holdings_put]
    exact Run.map_ok (Shelf.write_holdings _ c name d)
  | delete name =>
    refine ⟨_, _, Run.map_ok (delete_shelf i c w name), ?_, .inr ⟨_, rfl⟩, trivial⟩
    rw [holdings_put]
    exact Run.map_ok (Shelf.delete_holdings _ c name)
  | rename old new =>
    have hshelf := rename_shelf i c w old new
    have hmap := Shelf.rename_holdings (w.shelves.get i) c old new
    rw [World.documents] at hshelf
    cases hd : ((w.shelves.get i).documents c).get? old with
    | none =>
      rw [hd] at hshelf hmap
      exact ⟨_, w, Run.map_ok hshelf, Run.map_ok hmap, .inl rfl, trivial⟩
    | some d =>
      rw [hd] at hshelf hmap
      refine ⟨_, _, Run.map_ok hshelf, ?_, .inr ⟨_, rfl⟩, trivial⟩
      rw [holdings_put]
      exact Run.map_ok hmap
  | list start =>
    exact ⟨_, w, Run.map_ok (list_shelf i c w start), Run.map_ok (Shelf.list_holdings _ c start), .inl rfl,
      ascending_of_pairwise ((Dict.pairwise_keys _).filter _)⟩
  | deleteAll start =>
    refine ⟨_, _, Run.map_ok (deleteAll_shelf i c w start), ?_, .inr ⟨_, rfl⟩, trivial⟩
    rw [holdings_put]
    exact Run.map_ok (Shelf.deleteAll_holdings _ c start)
  | collectionNames =>
    exact ⟨_, w, Run.map_ok (collectionNames_shelf i c w), Run.map_ok (Shelf.collectionNames_holdings _ c),
      .inl rfl, ascending_of_pairwise ((Dict.pairwise_keys _).filter _)⟩

/-! ### Other collections -/

/-- What is read of a collection depends on its documents alone. -/
theorem exists_answer_of_reads {k : Call} (hk : k.reads = true) (i : Nat) (c : String) :
    ∃ answer : Dict Document → Answer, ∀ w,
      k.run (View.storage (shelf i c)) w = .ok (answer (w.documents i c)) w := by
  cases k with
  | contains name =>
    exact ⟨fun ds => .truth (ds.contains name), fun w => Run.map_ok (contains_shelf i c w name)⟩
  | read name => exact ⟨fun ds => .document (ds.get? name), fun w => Run.map_ok (read_shelf i c w name)⟩
  | readMany names =>
    exact ⟨fun ds => .documents (ds.restrict names), fun w => Run.map_ok (readMany_shelf i c w names)⟩
  | list start =>
    exact ⟨fun ds => .names (ds.keys.filter (·.startsWith start)),
      fun w => Run.map_ok (list_shelf i c w start)⟩
  | write | delete | rename | deleteAll | collectionNames => cases hk

theorem after_onShelf_ofExcept {α : Type} (i : Nat) (o : Except Failure α) (w : World) :
    (World.onShelf i (.ofExcept o)).after w = w := by
  rw [Run.after, onShelf_ofExcept]
  cases o <;> rfl

/-- A question to a view changes no more than the documents of its collection. -/
theorem question_only (i : Nat) (c : String) (w : World) (q : Question) :
    OnlyAt i c w ((q.run (shelf i c)).after w) := by
  cases q with
  | call k =>
    obtain ⟨a, w', hrun, -, hchange, -⟩ := call_shelf i c w k
    rw [Question.run, Run.after_map, Run.after_of_ok hrun]
    rcases hchange with rfl | ⟨ds, rfl⟩
    · exact .refl i c w'
    · exact .put w i c ds
  | collectionName => exact .refl i c w
  | encode d =>
    rw [Question.run, Run.after_map, encode_shelf, after_onShelf_ofExcept]
    exact .refl i c w
  | decode text =>
    rw [Question.run, Run.after_map, decode_shelf, after_onShelf_ofExcept]
    exact .refl i c w
  | collection name => exact .refl i c w

/-! ### Dialogues -/

/-- The world has a shelf with the documents of the map, tidy, and differs from the first world in nothing
but that shelf. -/
structure Mapped (i : Nat) (w v : World) (m : Holdings) : Prop where
  holdings : v.holdings i = m
  tidy : (v.shelves.get i).Tidy
  only : OnlyOn i w v

/-- A view of a shelf, and the part of the map that it shows. -/
def Sees (i : Nat) (s : Store) (p : Holdings.Part) : Prop := s = shelf i p.collection

/-- The same is replied, with names in the order of their bytes. -/
structure Repeats (r r' : Reply) : Prop where
  eq : r = r'
  ascending : r.Ascending

/-- What depends on neither the shelf nor the map is replied by both. -/
theorem Mapped.alike_ofExcept {α : Type} {v : World} {m : Holdings} (h : Mapped i w v m)
    (o : Except Failure α) (reply : α → Reply) (hreply : ∀ a, (reply a).Ascending) :
    Session.Alike (Sees i) (Mapped i w) Repeats
      (((fun a => (reply a, [])) <$> World.onShelf i (.ofExcept o) : Run World (Reply × List Store)) v)
      (((fun a => (reply a, [])) <$> Run.ofExcept o : Run Holdings (Reply × List Holdings.Part)) m) := by
  rw [funext (onShelf_ofExcept i o)]
  cases o with
  | ok a => exact .ok ⟨rfl, hreply a⟩ .nil h
  | error f => exact .error h

/-- A view of a shelf ends each question as the same part of the map does. -/
theorem question_shelf {v : World} {m : Holdings} {s : Store} {p : Holdings.Part} (hs : Sees i s p)
    (h : Mapped i w v m) (q : Question) :
    Session.Alike (Sees i) (Mapped i w) Repeats (q.run s v) (q.run p m) := by
  obtain ⟨c⟩ := p
  cases hs
  obtain ⟨rfl, htidy, honly⟩ := h
  have hsame : Mapped i w v (v.holdings i) := ⟨rfl, htidy, honly⟩
  cases q with
  | call k =>
    obtain ⟨a, v', hshelf, hmap, hchange, hnames⟩ := call_shelf i c v k
    have hkept : Mapped i w v' (v'.holdings i) := by
      rcases hchange with rfl | ⟨ds, rfl⟩
      · exact hsame
      · refine ⟨rfl, ?_, honly.trans (OnlyAt.put v i c ds).toOnlyOn⟩
        rw [shelves_put, if_pos rfl]
        exact htidy.put c ds
    rw [Question.run, Question.run, Run.map_ok hshelf, Run.map_ok hmap]
    exact .ok ⟨rfl, hnames⟩ .nil hkept
  | collectionName => exact .ok ⟨rfl, trivial⟩ .nil hsame
  | encode d =>
    rw [Question.run, Question.run, encode_shelf, Holdings.encode_part]
    exact hsame.alike_ofExcept d.encode .text fun _ => trivial
  | decode text =>
    rw [Question.run, Question.run, decode_shelf, Holdings.decode_part]
    exact hsame.alike_ofExcept (Document.decode text) .document fun _ => trivial
  | collection name => exact .ok ⟨rfl, trivial⟩ (.cons rfl .nil) hsame

theorem Repeats.of_sameOutcome {o o' : Session.Outcome} (h : Session.SameOutcome Repeats o o') :
    o = o' ∧ ∀ r, o = some (.ok r) → r.Ascending := by
  cases h with
  | none => exact ⟨rfl, nofun⟩
  | ok h =>
    refine ⟨by rw [h.eq], ?_⟩
    rintro _ ⟨⟩
    exact h.ascending
  | error => exact ⟨rfl, nofun⟩

theorem shown_of_mapped {shown : List (Session.Outcome × World)}
    {mapped : List (Session.Outcome × Holdings)}
    (h : List.Forall₂ (fun x y => Session.SameOutcome Repeats x.1 y.1 ∧ Mapped i w x.2 y.2) shown mapped) :
    shown.map (fun e => (e.1, e.2.holdings i)) = mapped ∧
      ∀ e ∈ shown, (e.2.shelves.get i).Tidy ∧ OnlyOn i w e.2 ∧
        ∀ r, e.1 = some (.ok r) → r.Ascending := by
  induction h with
  | nil => exact ⟨rfl, by simp⟩
  | @cons x y _ _ hxy _ ih =>
    obtain ⟨hreply, hworld⟩ := hxy
    obtain ⟨hsame, hnames⟩ := Repeats.of_sameOutcome hreply
    have hshown : (x.1, x.2.holdings i) = y := Prod.ext hsame hworld.holdings
    rw [List.map_cons, List.forall_mem_cons, hshown, ih.1]
    exact ⟨rfl, ⟨hworld.tidy, hworld.only, hnames⟩, ih.2⟩

/-- The views of a shelf reply as the map of its documents, in every dialogue that starts with a shelf that
is empty or has documents in the default collection, with views of any collections; after each turn, the
shelf is the map, and has no other collection than the default one without documents. Names are listed in
the order of their bytes. What is asked through a view changes nothing that is read in another
collection. A document of the map that is renamed to its own name is kept. -/
theorem transcript_holdings {i : Nat} {w : World}
    (hw : w.shelves.get i = ∅ ∨ ∃ ds, w.shelves.get i = .ofDocuments ds) (cs : List String)
    (turns : List Turn) :
    let shown := Session.transcript ⟨cs.map (shelf i), w⟩ turns
    shown.map (fun e => (e.1, e.2.holdings i)) =
        Session.transcript (⟨cs.map .mk, w.holdings i⟩ : Session Holdings Holdings.Part) turns ∧
      (∀ e ∈ shown, (e.2.shelves.get i).Tidy ∧ OnlyOn i w e.2 ∧
        ∀ r, e.1 = some (.ok r) → r.Ascending) ∧
      (∀ c d, c ≠ d → ∀ (q : Question) (k : Call), k.reads = true → ∀ v, ∃ a,
        k.run (View.storage (shelf i d)) v = .ok a v ∧
          k.run (View.storage (shelf i d)) ((q.run (shelf i c)).after v) =
            .ok a ((q.run (shelf i c)).after v)) ∧
      ∀ c name m, (Holdings.storage c).rename name name m = .ok (m.lookup (c, name)).isSome m := by
  intro shown
  have htidy : (w.shelves.get i).Tidy := by
    rcases hw with hw | ⟨ds, hw⟩
    · exact hw ▸ Shelf.tidy_empty
    · exact hw ▸ Shelf.tidy_ofDocuments ds
  have hviews : List.Forall₂ (Sees i) (cs.map (shelf i)) (cs.map .mk) := by
    rw [List.forall₂_map_left_iff, List.forall₂_map_right_iff]
    exact List.forall₂_same.mpr fun _ _ => rfl
  have hstart : Session.Related (Sees i) (Mapped i w) (⟨cs.map (shelf i), w⟩ : Session World Store)
      ⟨cs.map .mk, w.holdings i⟩ := ⟨hviews, rfl, htidy, .refl i w⟩
  have hmay : Session.Allows (fun _ _ => True)
      (⟨cs.map .mk, w.holdings i⟩ : Session Holdings Holdings.Part) turns :=
    Session.allows_of_forall (fun _ _ _ => trivial) _
  have hrel := Session.transcript_related (fun _ _ q _ _ hs hm _ => question_shelf hs hm q) turns hstart
    hmay
  obtain ⟨hreplies, hall⟩ := shown_of_mapped hrel
  refine ⟨hreplies, hall, ?_, fun c name m => Holdings.rename_self m c name⟩
  intro c d hcd q k hk v
  obtain ⟨answer, hanswer⟩ := exists_answer_of_reads hk i d
  have hdocuments := (question_only i c v q).collections d (Ne.symm hcd)
  refine ⟨answer (v.documents i d), hanswer v, ?_⟩
  rw [hanswer, hdocuments]

/-- A page in German is renamed to the name of the other, and this one deleted: then no collection but the
default one is left, and its site as it was. -/
theorem transcript_holdings_german :
    let site : Dict Document := .ofList [("site", .ofList [("name", .string "Copy")])]
    let w := World.ofShelves (.ofDocuments site) ∅
    let turns : List Turn := [⟨0, .collection "language.de"⟩, ⟨1, .call (.write "page" ∅)⟩,
      ⟨1, .call (.write "site" ∅)⟩, ⟨1, .call (.rename "page" "site")⟩, ⟨0, .call .collectionNames⟩,
      ⟨1, .call (.delete "site")⟩, ⟨0, .call .collectionNames⟩, ⟨0, .call (.list "")⟩]
    let shown := Session.transcript ⟨[shelf 0 ""], w⟩ turns
    w.shelves.get 0 = .ofDocuments site ∧
      shown.map (fun e => (e.1, e.2.holdings 0)) =
        Session.transcript (⟨[⟨""⟩], w.holdings 0⟩ : Session Holdings Holdings.Part) turns ∧
      (∀ e ∈ shown, (e.2.shelves.get 0).Tidy) ∧
      ∀ v, ∃ a, (Call.read "site").run (View.storage (shelf 0 "")) v = .ok a v ∧
        (Call.read "site").run (View.storage (shelf 0 ""))
          (((Question.call (.delete "site")).run (shelf 0 "language.de")).after v) =
          .ok a (((Question.call (.delete "site")).run (shelf 0 "language.de")).after v) := by
  intro site w turns shown
  have hw : w.shelves.get 0 = .ofDocuments site := rfl
  obtain ⟨hreplies, hall, hapart, -⟩ := transcript_holdings (.inr ⟨site, hw⟩) [""] turns
  exact ⟨hw, hreplies, fun e he => (hall e he).1,
    hapart "language.de" "" (by decide) (.call (.delete "site")) (.read "site") rfl⟩

end Store

end LayeredConfig
