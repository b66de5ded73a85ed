import LayeredConfig.Proofs.RoundTrip
/-!
# An ignore filter that is turned off

An ignore filter that is turned off passes everything on but the names of collections: it still adds
those of its active storage (`Pipeline.storage_of_deactivated`). So a dialogue with a shelf behind such
a filter has the transcript that it has without the filter, but that these names are added wherever the
names of collections are asked for (`Store.transcript_deactivated`).
-/

namespace LayeredConfig

/-- A run that always answers, and only reads. -/
def Run.Silent {σ α : Type} (x : Run σ α) : Prop := ∀ s, ∃ a, x s = .ok a s

/-- A storage that names the collections of another one as well. -/
def Storage.naming {σ : Type} (s t : Storage σ) : Storage σ :=
  { s with
    collectionNames := do return Name.sortedUnique ((← s.collectionNames) ++ (← t.collectionNames)) }

@[simp] theorem Storage.naming_encode {σ : Type} (s t : Storage σ) : (s.naming t).encode = s.encode :=
  rfl

@[simp] theorem Storage.naming_decode {σ : Type} (s t : Storage σ) : (s.naming t).decode = s.decode :=
  rfl

/-! ## The hooks -/

namespace Ignore.Context

variable {σ : Type} {x : Context σ} (hx : x.deactivated = true)

include hx

theorem ignores_of_deactivated : x.ignores = fun _ => false := by
  funext name
  simp [ignores, hx]

theorem replaced_of_deactivated (name : String) (o : Option Document) :
    x.replaced name o = pure o := by
  cases o with
  | none => simp [replaced, ignores_of_deactivated hx]
  | some d => simp [replaced, ignores_of_deactivated hx, spliced, keys, hx]

theorem replacedMany_of_deactivated (names : List String) (ds : Dict Document) :
    x.replacedMany names ds = pure ds := by
  have hloop : (ds.entries.mapM fun e => (pure e : Run σ _)) = pure ds.entries := by
    rw [List.mapM_pure, List.map_id']
  simp [replacedMany, ignores_of_deactivated hx, spliced, keys, hx, hloop, Dict.ofList_entries]

/-- The names of the active storage are asked for, and none of them is listed. -/
theorem list_of_deactivated (hactive : ∀ start, (x.active.list start).Silent)
    (source : Option (Storage σ)) (start : String) (names : List String) :
    (x.hooks source).list start names = pure (Name.sortedUnique names) := by
  funext s
  obtain ⟨theirs, htheirs⟩ := hactive start s
  refine (Run.bind_ok htheirs _).trans ?_
  simp [ignores_of_deactivated hx]

/-- The names of both storages are asked for, and none of them is in the way. -/
theorem sparesAll_of_deactivated {source : Storage σ}
    (hsource : ∀ start, (source.list start).Silent)
    (hactive : ∀ start, (x.active.list start).Silent) (start : String) :
    x.sparesAll (some source) start = pure true := by
  funext s
  obtain ⟨ours, hours⟩ := hsource start s
  obtain ⟨theirs, htheirs⟩ := hactive start s
  rw [sparesAll, ignores_of_deactivated hx]
  refine (Run.bind_ok hours _).trans ?_
  rw [List.any_eq_false.mpr (by simp)]
  refine (Run.bind_ok htheirs _).trans ?_
  simp

end Ignore.Context

namespace Pipeline

variable {σ : Type} {base : Storage σ} {x : Ignore.Context σ}

theorem write_of_deactivated (hx : x.deactivated = true) (source : Option (Storage σ)) (name : String)
    (d : Document) : Pipeline.write base [x.hooks source] name d = base.sparing.write name d := by
  have hpayload : [x.hooks source].foldlM (fun p h => h.write name p) (some d) =
      (pure (some d) : Run σ _) := by
    rw [Run.foldlM_singleton]
    exact Ignore.Context.replaced_of_deactivated hx name (some d)
  have hdeletes : [x.hooks source].anyM (·.emptyDeletes name) = (pure false : Run σ Bool) := by
    simp [Ignore.Context.hooks, Ignore.Context.ignores_of_deactivated hx]
  rw [Pipeline.write, hpayload, pure_bind, hdeletes, Storage.sparing]
  cases hd : d.isEmpty with
  | true =>
    rw [Option.filter_some_neg (by simp [hd])]
    simp [hd]
  | false =>
    rw [Option.filter_some_pos (by simp [hd])]
    simp [hd]

/-- A storage behind a filter that is turned off writes no empty document, as behind any filter, and
names the collections of the active storage as well. -/
theorem storage_of_deactivated (hx : x.deactivated = true) (hbase : base.Orderly)
    (hlist : ∀ start, (base.list start).Silent) (hactive : ∀ start, (x.active.list start).Silent) :
    Pipeline.storage base [x.hooks (some base.readOnly)] = base.sparing.naming x.active := by
  have hignores := Ignore.Context.ignores_of_deactivated hx
  have hreplaced := Ignore.Context.replaced_of_deactivated hx
  rw [Pipeline.storage, Storage.naming, Storage.sparing, Storage.mk.injEq]
  refine ⟨?_, ?_, ?_, ?_, ?_, ?_, ?_, ?_, ?_, rfl, rfl, rfl⟩
  · funext name
    simp [Pipeline.contains, Ignore.Context.hooks, hignores]
  · funext name
    simp [Pipeline.read, Ignore.Context.hooks, hreplaced]
  · funext names
    simp [Pipeline.readMany, Ignore.Context.hooks, Ignore.Context.replacedMany_of_deactivated hx]
  · funext name d
    exact write_of_deactivated hx _ name d
  · funext name
    simp [Pipeline.delete, permitsDelete, Ignore.Context.hooks, hignores]
  · funext old new
    simp [Pipeline.rename, Ignore.Context.hooks, hignores]
  · funext start
    have hnames : Name.sortedUnique <$> (Name.sortedUnique <$> base.list start) = base.list start := by
      rw [hbase.list, hbase.list]
    refine Eq.trans ?_ hnames
    simp [Pipeline.list, Ignore.Context.list_of_deactivated hx hactive]
  · funext start
    have hspares : x.sparesAll (some base.readOnly) start = pure true :=
      Ignore.Context.sparesAll_of_deactivated hx hlist hactive start
    simp [Pipeline.deleteAll, Ignore.Context.hooks, hspares]
  · have htwice : ∀ names : List String,
        Name.sortedUnique (Name.sortedUnique names) = Name.sortedUnique names := by
      intro names
      exact Name.sortedUnique_of_ascending (Name.pairwise_sortedUnique names)
    simp [Pipeline.collectionNames, Ignore.Context.hooks, htwice]

end Pipeline

/-! ## Stores -/

namespace Store

open Transfer (unfiltered storage_unfiltered collection_unfiltered)

variable {p : Ignore.Patterns} {i j : Nat} {mark : Option Nat}

/-- A shelf behind a filter that is turned off, and that has another shelf as its active storage. -/
def turnedOff (mark : Option Nat) (p : Ignore.Patterns) (i : Nat) (c : String) (j : Nat) (d : String) :
    Store :=
  .layered mark (.shelf i c) [.ignore p true (.shelf j d)]

theorem storage_turnedOff (mark : Option Nat) (p : Ignore.Patterns) (i : Nat) (c : String) (j : Nat)
    (d : String) : (turnedOff mark p i c j d).storage =
      (shelf i c).storage.sparing.naming (shelf j d).storage :=
  Pipeline.storage_of_deactivated rfl (orderly_shelf i c) (fun start w => ⟨_, list_shelf i c w start⟩)
    fun start w => ⟨_, list_shelf j d w start⟩

theorem collection_turnedOff (c d e : String) (w : World) :
    (turnedOff mark p i c j d).collection e w = .ok (turnedOff none p i e j e) w := rfl

theorem collectionNames_turnedOff (c d : String) (w : World) :
    (turnedOff mark p i c j d).storage.collectionNames w =
      .ok (Name.sortedUnique ((w.shelves.get i).named ++ (w.shelves.get j).named)) w := by
  rw [storage_turnedOff]
  refine (Run.bind_ok (collectionNames_shelf i c w) _).trans ?_
  exact Run.bind_ok (collectionNames_shelf j d w) _

/-! ## Dialogues -/

/-- A view behind the filter that is turned off, and one of the same collection without a filter. -/
def Uncovers (p : Ignore.Patterns) (i j : Nat) (v u : Store) : Prop :=
  ∃ mark mark' c d, v = turnedOff mark p i c j d ∧ u = unfiltered mark' i c

/-- What a turn shows, with the collections of a shelf named as well where names are asked for. -/
def naming (j : Nat) (k : Turn) (shown : Session.Outcome × World) : Session.Outcome × World :=
  match k.question, shown with
  | .call .collectionNames, (some (.ok (.answer (.names names))), w) =>
    (some (.ok (.answer (.names (Name.sortedUnique (names ++ (w.shelves.get j).named))))), w)
  | _, shown => shown

theorem naming_of_ne {k : Turn} (hk : k.question ≠ .call .collectionNames)
    (shown : Session.Outcome × World) : naming j k shown = shown := by
  unfold naming
  split
  · next hq => exact (hk hq).elim
  · rfl

/-- All but the names of collections is the same on both sides of the filter. -/
theorem Uncovers.alike {v u : Store} (h : Uncovers p i j v u) {q : Question}
    (hq : q ≠ .call .collectionNames) (w : World) :
    Session.Alike (Uncovers p i j) Eq Eq (q.run v w) (q.run u w) := by
  obtain ⟨mark, mark', c, d, rfl, rfl⟩ := h
  have hleft : View.storage (turnedOff mark p i c j d) =
      (shelf i c).storage.sparing.naming (shelf j d).storage := storage_turnedOff mark p i c j d
  have hright : View.storage (unfiltered mark' i c) = (shelf i c).storage.sparing :=
    storage_unfiltered mark' i c
  have same : ∀ {α : Type} (x : Run World α) (reply : α → Reply),
      Session.Alike (Uncovers p i j) Eq Eq (((fun a => (reply a, ([] : List Store))) <$> x) w)
        (((fun a => (reply a, ([] : List Store))) <$> x) w) := by
    intro α x reply
    cases hx : x w with
    | ok a t =>
      rw [Run.map_ok hx]
      exact .ok rfl .nil rfl
    | error stop t =>
      rw [Run.map_error hx]
      exact .error rfl
  cases q with
  | call k =>
    have hcall : k.run ((shelf i c).storage.sparing.naming (shelf j d).storage) =
        k.run (shelf i c).storage.sparing := by
      cases k with
      | collectionNames => exact (hq rfl).elim
      | _ => rfl
    rw [Question.run, Question.run, hleft, hright, hcall]
    exact same (k.run (shelf i c).storage.sparing) .answer
  | collectionName =>
    rw [Question.run, Question.run, hleft, hright]
    exact .ok rfl .nil rfl
  | encode d =>
    rw [Question.run, Question.run, hleft, hright, Storage.naming_encode]
    exact same ((shelf i c).storage.sparing.encode d) .text
  | decode text =>
    rw [Question.run, Question.run, hleft, hright, Storage.naming_decode]
    exact same ((shelf i c).storage.sparing.decode text) .document
  | collection e =>
    have hbehind : View.collection (turnedOff mark p i c j d) e w = .ok (turnedOff none p i e j e) w :=
      collection_turnedOff c d e w
    have hwithout : View.collection (unfiltered mark' i c) e w = .ok (unfiltered none i e) w :=
      collection_unfiltered mark' i c e w
    rw [Question.run, Question.run, Run.map_ok hbehind, Run.map_ok hwithout]
    exact .ok rfl (.cons ⟨none, none, e, e, rfl, rfl⟩ .nil) rfl

/-- The names of collections on both sides of the filter. -/
theorem Uncovers.names {v u : Store} (h : Uncovers p i j v u) (w : World) :
    Question.run v (.call .collectionNames) w =
      .ok (.answer (.names (Name.sortedUnique ((w.shelves.get i).named ++ (w.shelves.get j).named))), [])
        w ∧
    Question.run u (.call .collectionNames) w = .ok (.answer (.names (w.shelves.get i).named), []) w := by
  obtain ⟨mark, mark', c, d, rfl, rfl⟩ := h
  constructor
  · exact Run.map_ok (Run.map_ok (collectionNames_turnedOff c d w))
  · exact Run.map_ok (Run.map_ok (Transfer.collectionNames_unfiltered mark' i c w))

/-- The names of another shelf add nothing exactly if they are among those of a shelf. -/
theorem sortedUnique_append_named_iff (w : World) (i j : Nat) :
    Name.sortedUnique ((w.shelves.get i).named ++ (w.shelves.get j).named) = (w.shelves.get i).named ↔
      ∀ c ∈ (w.shelves.get j).named, c ∈ (w.shelves.get i).named := by
  have hascending : (w.shelves.get i).named.Pairwise (· < ·) := (Dict.pairwise_keys _).filter _
  constructor
  · intro h c hc
    rw [← h, Name.mem_sortedUnique]
    exact List.mem_append_right _ hc
  · intro h
    exact Name.sortedUnique_append_of_subset hascending h

/-- A shelf has all collections of another one, if a turn asks a view for the names of collections. -/
def NamesAll (i j : Nat) (k : Turn) (shown : Session.Outcome × World) : Prop :=
  k.question = .call .collectionNames → shown.1 ≠ none →
    ∀ c ∈ (shown.2.shelves.get j).named, c ∈ (shown.2.shelves.get i).named

/-- At each turn, the store behind the filter shows what the store without it shows, with the names of
the active shelf added. -/
theorem turn_deactivated {s t : Session World Store} (h : Session.Related (Uncovers p i j) Eq s t)
    (k : Turn) :
    Session.Related (Uncovers p i j) Eq (s.turn k).1 (t.turn k).1 ∧
      ((s.turn k).2, (s.turn k).1.state) = naming j k ((t.turn k).2, (t.turn k).1.state) ∧
      (naming j k ((t.turn k).2, (t.turn k).1.state) = ((t.turn k).2, (t.turn k).1.state) ↔
        NamesAll i j k ((t.turn k).2, (t.turn k).1.state)) := by
  have hstate : s.state = t.state := h.state
  by_cases hk : k.question = .call .collectionNames
  · have hrel := Session.views_rel h.views k.view
    rw [Session.turn, Session.turn, hk]
    generalize s.views[k.view]? = v at hrel ⊢
    generalize t.views[k.view]? = u at hrel ⊢
    cases hrel with
    | none => exact ⟨h, by simp [naming, hk, hstate], by simp [naming, hk, NamesAll]⟩
    | some hvu =>
      obtain ⟨hv, hu⟩ := hvu.names t.state
      simp only [hstate, hv, hu, Session.record, List.append_nil]
      refine ⟨⟨h.views, rfl⟩, by simp [naming, hk], ?_⟩
      simp [naming, hk, NamesAll, sortedUnique_append_named_iff]
  · obtain ⟨hrelated, hsame⟩ := Session.turn_related h
      (fun v u q hvu (hq : q ≠ .call .collectionNames) => by rw [← hstate]; exact hvu.alike hq s.state)
      k fun _ _ => hk
    refine ⟨hrelated, ?_, ?_⟩
    · rw [naming_of_ne hk, hsame.eq, hrelated.state]
    · simp [naming_of_ne hk, NamesAll, hk]

/-- A dialogue with a shelf behind a filter that is turned off has the transcript that it has without the
filter, with the names of the active shelf's collections added where names are asked for. So the
transcripts are the same exactly if the shelf has had all of these collections whenever that was asked. -/
theorem transcript_deactivated (p : Ignore.Patterns) (i j : Nat) (c d : String)
    (mark mark' : Option Nat) (w : World) (turns : List Turn) :
    let behind := Session.transcript ⟨[turnedOff mark p i c j d], w⟩ turns
    let without := Session.transcript ⟨[unfiltered mark' i c], w⟩ turns
    behind = List.zipWith (naming j) turns without ∧
      (behind = without ↔ ∀ e ∈ turns.zip without, NamesAll i j e.1 e.2) := by
  have hstart : Session.Related (Uncovers p i j) Eq
      (⟨[turnedOff mark p i c j d], w⟩ : Session World Store) ⟨[unfiltered mark' i c], w⟩ :=
    ⟨.cons ⟨mark, mark', c, d, rfl, rfl⟩ .nil, rfl⟩
  generalize (⟨[turnedOff mark p i c j d], w⟩ : Session World Store) = s at hstart ⊢
  generalize (⟨[unfiltered mark' i c], w⟩ : Session World Store) = t at hstart ⊢
  induction turns generalizing s t with
  | nil => exact ⟨rfl, by simp [Session.transcript]⟩
  | cons k rest ih =>
    obtain ⟨hrelated, hshown, hall⟩ := turn_deactivated hstart k
    obtain ⟨hrest, hiff⟩ := ih _ _ hrelated
    simp only [Session.transcript, List.zipWith_cons_cons, List.zip_cons_cons, List.forall_mem_cons,
      List.cons.injEq]
    exact ⟨⟨hshown, hrest⟩, by rw [hshown, hall, hiff]⟩

/-- The active shelf has a collection in German, and the shelf behind the filter has none. The collection
is named all the same, though the filter is turned off. -/
theorem turnedOff_names_german :
    let w := World.ofShelves ∅ (Shelf.put ∅ "language.de"
      (.ofList [("system.site", .ofList [("name", .string "Beispiel")])]))
    let turns : List Turn := [⟨0, .call .collectionNames⟩]
    Ignore.Patterns.ofTexts? [] = .ok ⟨[]⟩ ∧
      Session.transcript ⟨[turnedOff none ⟨[]⟩ 0 "" 1 ""], w⟩ turns ≠
        Session.transcript ⟨[unfiltered none 0 ""], w⟩ turns := by
  intro w turns
  refine ⟨rfl, fun hsame => ?_⟩
  have hviews : Uncovers ⟨[]⟩ 0 1 (turnedOff none ⟨[]⟩ 0 "" 1 "") (unfiltered none 0 "") :=
    ⟨none, none, "", "", rfl, rfl⟩
  obtain ⟨hbehind, hwithout⟩ := hviews.names w
  simp [turns, Session.transcript, Session.turn, hbehind, hwithout, Session.record,
    sortedUnique_append_named_iff] at hsame
  have hgerman : "language.de" ∈ (w.shelves.get 0).named := hsame "language.de" (by decide +kernel)
  exact absurd hgerman (by decide +kernel)

end Store

end LayeredConfig
