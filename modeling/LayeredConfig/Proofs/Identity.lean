import LayeredConfig.Proofs.Dialogue
import LayeredConfig.Proofs.World
/-!
# Pipelines that pass everything on

A pipeline of filters that pass everything on is the storage that it wraps, but for one thing: it does
not write an empty document, and only asks whether the document is there (`Pipeline.storage_of_pass`).
So dialogues with it and with the wrapped store have the same transcript (`transcript_layered`).
-/

namespace LayeredConfig

namespace Run

variable {σ τ α β : Type}

theorem map_within (part : σ → τ) (put : τ → σ → σ) (f : α → β) (x : Run τ α) :
    f <$> Run.within part put x = Run.within part put (f <$> x) := by
  funext s
  cases h : x (part s) with
  | ok a t =>
    have hx : Run.within part put x s = .ok a (put t s) := by rw [Run.within, h]
    rw [map_ok hx, Run.within, map_ok h]
  | error stop t =>
    have hx : Run.within part put x s = .error stop (put t s) := by rw [Run.within, h]
    rw [map_error hx, Run.within, map_error h]

/-- A loop that passes on what it starts with. -/
theorem foldlM_pass {ε : Type} {f : β → ε → Run σ β} {es : List ε} (h : ∀ e ∈ es, ∀ b, f b e = pure b)
    (b : β) : es.foldlM f b = pure b := by
  induction es with
  | nil => rfl
  | cons e es ih =>
    rw [List.foldlM_cons, h e (by simp), pure_bind]
    exact ih fun x hx => h x (List.mem_cons_of_mem e hx)

end Run

/-! ## Storages -/

namespace Storage

variable {σ : Type}

/-- A storage that writes no empty document, and asks whether the document is there instead. -/
def sparing (s : Storage σ) : Storage σ :=
  { s with
    write := fun name d => if d.isEmpty then (fun _ => true) <$> s.contains name else s.write name d }

/-- A storage that lists names in ascending order, each once. -/
structure Orderly (s : Storage σ) : Prop where
  list : ∀ start, Name.sortedUnique <$> s.list start = s.list start
  collectionNames : Name.sortedUnique <$> s.collectionNames = s.collectionNames

end Storage

namespace Pipeline

variable {σ : Type} {base : Storage σ} {chain : List (Hooks σ)}

theorem anyM_pass (h : ∀ g ∈ chain, g = {}) (name : String) :
    chain.anyM (·.emptyDeletes name) = (pure false : Run σ Bool) := by
  induction chain with
  | nil => rfl
  | cons g rest ih =>
    rw [List.anyM, h g (by simp)]
    exact ih fun x hx => h x (List.mem_cons_of_mem g hx)

theorem write_of_pass (h : ∀ g ∈ chain, g = {}) (name : String) (d : Document) :
    Pipeline.write base chain name d = base.sparing.write name d := by
  have hpayload : chain.foldlM (fun p g => g.write name p) (some d) = (pure (some d) : Run σ _) :=
    Run.foldlM_pass (fun g hg _ => by rw [h g hg]) _
  rw [Pipeline.write, hpayload, pure_bind]
  cases hd : d.isEmpty with
  | true =>
    rw [Option.filter_some_neg (by simp [hd])]
    simp only [Storage.sparing, hd, if_true, anyM_pass h, map_eq_pure_bind]
    congr 1
    funext b
    cases b <;> rfl
  | false =>
    rw [Option.filter_some_pos (by simp [hd])]
    simp [Storage.sparing, hd]

theorem collectionName_pass (h : ∀ g ∈ chain, g = {}) (c : String) :
    chain.foldl (fun name g => g.collectionName name) c = c := by
  induction chain with
  | nil => rfl
  | cons g rest ih =>
    rw [List.foldl_cons, h g (by simp)]
    exact ih fun x hx => h x (List.mem_cons_of_mem g hx)

/-- A pipeline that passes everything on is its storage, but that it writes no empty document. -/
theorem storage_of_pass (hbase : base.Orderly) (h : ∀ g ∈ chain, g = {}) :
    Pipeline.storage base chain = base.sparing := by
  have pass : ∀ {β : Type} (f : β → Hooks σ → Run σ β), (∀ b, f b {} = pure b) → ∀ b,
      chain.foldlM f b = pure b := by
    intro β f hf b
    exact Run.foldlM_pass (fun g hg b => by rw [h g hg, hf]) b
  have permits : ∀ (f : Bool → Hooks σ → Run σ Bool), (∀ b, f b {} = pure b) → ∀ (x y : Run σ Bool),
      (do if ← chain.foldlM f true then x else y : Run σ Bool) = x := by
    intro f hf x y
    rw [pass f hf, pure_bind]
    rfl
  rw [Pipeline.storage, Storage.sparing, Storage.mk.injEq]
  refine ⟨?_, ?_, ?_, ?_, ?_, ?_, ?_, ?_, ?_, collectionName_pass h _, rfl, rfl⟩
  · funext name
    simp only [contains, pass (fun b (g : Hooks σ) => g.contains name b) fun _ => rfl, bind_pure]
  · funext name
    simp only [read, pass (fun d (g : Hooks σ) => g.read name d) fun _ => rfl, bind_pure]
  · funext names
    simp only [readMany, pass (fun ds (g : Hooks σ) => g.readMany names ds) fun _ => rfl, bind_pure]
  · funext name d
    exact write_of_pass h name d
  · funext name
    exact permits (fun b g => g.delete name b) (fun _ => rfl) _ _
  · funext old new
    exact permits (fun b g => g.rename old new b) (fun _ => rfl) _ _
  · funext start
    refine Eq.trans ?_ (hbase.list start)
    rw [list, map_eq_pure_bind]
    simp only [pass (fun names (g : Hooks σ) => g.list start names) fun _ => rfl, pure_bind]
  · funext start
    exact permits (fun b g => g.deleteAll start b) (fun _ => rfl) _ _
  · refine Eq.trans ?_ hbase.collectionNames
    rw [collectionNames, map_eq_pure_bind]
    simp only [pass (fun names (g : Hooks σ) => g.collectionNames names) fun _ => rfl, pure_bind]

end Pipeline

/-! ## Stores -/

/-- A store of shelves, directories and views for reading only. -/
inductive Store.Plain : Store → Prop
  | shelf (i : Nat) (c : String) : Plain (.shelf i c)
  | directory (root c : String) : Plain (.directory root c)
  | readOnly {s : Store} : Plain s → Plain (.readOnly s)

/-- A filter that passes everything on, and is its own filter for every collection. -/
structure Filter.PassesOn (f : Filter) : Prop where
  hooks : ∀ source, f.hooks source = {}
  derives : ∀ c, f.derive c = pure (some f)

/-- A store without filters around it. An empty document is not written to it: it is asked whether the
document is there, and every answer counts as yes. -/
structure Bare where
  store : Store

instance : View World Bare where
  storage b := b.store.storage.sparing
  collection b c := Bare.mk <$> b.store.collection c

namespace Store

theorem orderly_shelf (i : Nat) (c : String) : (shelf i c).storage.Orderly where
  list start := by
    funext w
    have hnames : ((w.documents i c).keys.filter (·.startsWith start)).Pairwise (· < ·) :=
      (Dict.pairwise_keys _).filter _
    rw [Run.map_ok (list_shelf i c w start), list_shelf, Name.sortedUnique_of_ascending hnames]
  collectionNames := by
    funext w
    have hnames : (w.shelves.get i).named.Pairwise (· < ·) := (Dict.pairwise_keys _).filter _
    rw [Run.map_ok (collectionNames_shelf i c w), collectionNames_shelf,
      Name.sortedUnique_of_ascending hnames]

theorem orderly_directory (root c : String) : (directory root c).storage.Orderly where
  list start := by
    show Name.sortedUnique <$> World.onFiles (Directory.list root c start) = _
    rw [World.onFiles, Run.map_within]
    simp only [Directory.list, map_bind, map_pure,
      Name.sortedUnique_of_ascending (Name.pairwise_sortedUnique _)]
    rfl
  collectionNames := by
    show Name.sortedUnique <$> World.onFiles (Directory.storage root c).collectionNames = _
    rw [World.onFiles, Run.map_within]
    simp only [Directory.storage, map_bind, map_pure,
      Name.sortedUnique_of_ascending (Name.pairwise_sortedUnique _)]
    rfl

theorem Plain.orderly {s : Store} (h : s.Plain) : s.storage.Orderly := by
  induction h with
  | shelf i c => exact orderly_shelf i c
  | directory root c => exact orderly_directory root c
  | readOnly _ ih => exact ⟨ih.list, ih.collectionNames⟩

theorem Plain.collection {s t : Store} {c : String} {w w' : World} (h : s.Plain)
    (hrun : s.collection c w = .ok t w') : t.Plain := by
  induction h generalizing t w w' with
  | shelf i c' =>
    rw [Store.collection] at hrun
    cases hrun
    exact .shelf i c
  | directory root c' =>
    rw [Store.collection] at hrun
    split at hrun
    · cases hrun
      exact .directory root c
    · cases hrun
  | @readOnly s _ ih =>
    rw [Store.collection, map_eq_pure_bind] at hrun
    obtain ⟨u, v, hu, hv⟩ := Run.bind_eq_ok.mp hrun
    cases hv
    exact .readOnly (ih hu)

/-- Filters that pass everything on are their own filters for every collection. -/
theorem collection_layered {mark : Option Nat} {base : Store} {filters : List Filter}
    (h : ∀ f ∈ filters, f.PassesOn) (c : String) :
    (layered mark base filters).collection c =
      (layered none · filters) <$> base.collection c := by
  have hderive : Pipeline.derive (Filter.derivations c filters) = pure filters := by
    induction filters with
    | nil => rfl
    | cons f rest ih =>
      rw [Filter.derivations, Pipeline.derive, (h f (by simp)).derives c, pure_bind,
        ih fun g hg => h g (List.mem_cons_of_mem f hg), pure_bind]
      rfl
  rw [Store.collection, Pipeline.collection, hderive, pure_bind, map_eq_pure_bind, bind_assoc]
  simp only [pure_bind]

theorem chain_layered {filters : List Filter} (h : ∀ f ∈ filters, f.PassesOn)
    (source : Option (Storage World)) : ∀ g ∈ Filter.chain source filters, g = {} := by
  intro g hg
  rw [Filter.chain_eq_map] at hg
  obtain ⟨f, hf, rfl⟩ := List.mem_map.mp hg
  exact (h f hf).hooks source

theorem storage_layered {mark : Option Nat} {base : Store} {filters : List Filter}
    (hbase : base.Plain) (h : ∀ f ∈ filters, f.PassesOn) :
    (layered mark base filters).storage = base.storage.sparing := by
  rw [Store.storage]
  exact Pipeline.storage_of_pass hbase.orderly (chain_layered h _)

/-! ## Dialogues -/

/-- The view of a store, and that of filters around it that pass everything on. -/
def Wraps (filters : List Filter) (v : Store) (b : Bare) : Prop :=
  b.store.Plain ∧ ∃ mark, v = layered mark b.store filters

theorem Wraps.alike {filters : List Filter} (h : ∀ f ∈ filters, f.PassesOn) {v : Store} {b : Bare}
    (hv : Wraps filters v b) (q : Question) (w : World) :
    Session.Alike (Wraps filters) Eq Eq (q.run v w) (q.run b w) := by
  obtain ⟨hplain, mark, rfl⟩ := hv
  have hstorage : View.storage (layered mark b.store filters) = View.storage b :=
    storage_layered hplain h
  have same : ∀ {α : Type} (x : Run World α) (reply : α → Reply),
      Session.Alike (Wraps filters) Eq Eq
        (((fun a => (reply a, ([] : List Store))) <$> x) w)
        (((fun a => (reply a, ([] : List Bare))) <$> x) w) := by
    intro α x reply
    cases hx : x w with
    | ok a t =>
      rw [Run.map_ok hx, Run.map_ok hx]
      exact .ok rfl .nil rfl
    | error stop t =>
      rw [Run.map_error hx, Run.map_error hx]
      exact .error rfl
  cases q with
  | call c =>
    rw [Question.run, Question.run, hstorage]
    exact same _ _
  | collectionName =>
    rw [Question.run, Question.run, hstorage]
    exact .ok rfl .nil rfl
  | encode d =>
    rw [Question.run, Question.run, hstorage]
    exact same _ _
  | decode text =>
    rw [Question.run, Question.run, hstorage]
    exact same _ _
  | collection c =>
    have hleft : View.collection (layered mark b.store filters) c =
        (layered none · filters) <$> b.store.collection c := collection_layered h c
    have hright : View.collection b c = Bare.mk <$> b.store.collection c := rfl
    rw [Question.run, Question.run, hleft, hright]
    cases hx : b.store.collection c w with
    | ok u t =>
      rw [Run.map_ok (Run.map_ok hx), Run.map_ok (Run.map_ok hx)]
      exact .ok rfl (.cons ⟨hplain.collection hx, none, rfl⟩ .nil) rfl
    | error stop t =>
      rw [Run.map_error (Run.map_error hx), Run.map_error (Run.map_error hx)]
      exact .error rfl

/-- Every dialogue with a store in filters that pass everything on, and with the collections that are
opened from there, has the transcript that it has with the store itself, replies, failures and worlds,
but that no empty document is written. -/
theorem transcript_layered {base : Store} (hbase : base.Plain) {filters : List Filter}
    (hfilters : ∀ f ∈ filters, f.PassesOn) (mark : Option Nat) (w : World) (turns : List Turn) :
    Session.transcript ⟨[layered mark base filters], w⟩ turns =
      Session.transcript ⟨[Bare.mk base], w⟩ turns := by
  have hrelated : Session.Related (Wraps filters) Eq ⟨[layered mark base filters], w⟩
      ⟨[Bare.mk base], w⟩ := ⟨.cons ⟨hbase, mark, rfl⟩ .nil, rfl⟩
  have halike : ∀ v b (q : Question) (s t : World), Wraps filters v b → s = t → True →
      Session.Alike (Wraps filters) Eq Eq (q.run v s) (q.run b t) := by
    rintro v b q s _ hv rfl -
    exact hv.alike hfilters q s
  have hall := Session.transcript_related halike turns hrelated
    (Session.allows_of_forall (fun _ _ _ => trivial) _)
  rw [← List.forall₂_eq_eq_eq]
  exact hall.imp fun x y hxy => Prod.ext hxy.1.eq hxy.2

end Store

/-- The stock filter that passes everything on does. -/
theorem Filter.passesOn_stock (id : String) : (Filter.stock ⟨id, .pass, none, false⟩).PassesOn where
  hooks source := by
    have hentries : ∀ ds : Dict Document,
        Dict.ofList (ds.entries.filterMap fun e => some (e.1, e.2)) = ds := by
      intro ds
      rw [List.filterMap_some, Dict.ofList_entries]
    rw [Filter.hooks, Stock.hooks, Hooks.mk.injEq]
    refine ⟨rfl, rfl, ?_, rfl, rfl, ?_, ?_, rfl, rfl, rfl, rfl⟩
    · funext names ds
      exact congrArg pure (hentries ds)
    · funext name b
      simp [Stock.permits, Stock.guard, Stock.Task.allows, Stock.Task.protected?]
    · funext old new b
      simp [Stock.permits, Stock.guard, Stock.Task.allows, Stock.Task.protected?]
  derives c := rfl

/-- A shelf in two filters, of which an empty document and a collection are asked for. -/
theorem Store.transcript_layered_stock :
    (Store.shelf 0 "").Plain ∧
      (∀ f ∈ [Filter.stock ⟨"first", .pass, none, false⟩, .stock ⟨"second", .pass, none, false⟩],
        f.PassesOn) ∧
      let turns : List Turn := [⟨0, .call (.write "system.site" ∅)⟩, ⟨0, .collection "language.de"⟩,
        ⟨1, .call (.write "system.site" (.ofList [("name", .string "Beispiel")]))⟩,
        ⟨1, .call (.deleteAll "system.")⟩, ⟨0, .call .collectionNames⟩]
      Session.transcript ⟨[Store.layered none (.shelf 0 "")
          [.stock ⟨"first", .pass, none, false⟩, .stock ⟨"second", .pass, none, false⟩]], World.empty⟩
          turns =
        Session.transcript ⟨[Bare.mk (.shelf 0 "")], World.empty⟩ turns := by
  have hplain : (Store.shelf 0 "").Plain := .shelf 0 ""
  have hfilters : ∀ f ∈ [Filter.stock ⟨"first", .pass, none, false⟩,
      .stock ⟨"second", .pass, none, false⟩], f.PassesOn := by
    simp [Filter.passesOn_stock]
  exact ⟨hplain, hfilters, Store.transcript_layered hplain hfilters none World.empty _⟩

end LayeredConfig
