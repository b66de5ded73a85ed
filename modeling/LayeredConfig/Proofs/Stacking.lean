import LayeredConfig.Proofs.Relocation
import LayeredConfig.Proofs.World
/-!
# Filters around filters

A storage may be wrapped in filters twice, or once in all of them. For reading it is the same, as long as
what the outer filters make of names depends on which names they are given, and not on their order: a
pipeline sorts the names that it lists (`Pipeline.readOnly_append`). It stays the same in all collections
that are opened from there (`reads_stacked`). Storages and filters are of any kind here. Stores and their
filters are one of them (`Wrapped.embeds_store`, `Store.reads_layered`).
-/

namespace LayeredConfig

/-! ## Sets of names -/

/-- Two runs end alike: they answer with the same names, or stop for the same cause. -/
inductive Run.SameNames {σ : Type} :
    EStateM.Result Halt σ (List String) → EStateM.Result Halt σ (List String) → Prop
  | ok {xs ys : List String} {s : σ} : (∀ n, n ∈ xs ↔ n ∈ ys) → SameNames (.ok xs s) (.ok ys s)
  | error {stop : Halt} {s : σ} : SameNames (.error stop s) (.error stop s)

theorem Name.sortedUnique_eq {xs ys : List String} (h : ∀ n, n ∈ xs ↔ n ∈ ys) :
    sortedUnique xs = sortedUnique ys := by
  apply eq_of_ascending (pairwise_sortedUnique xs) (pairwise_sortedUnique ys)
  intro n
  rw [mem_sortedUnique, mem_sortedUnique, h]

/-- What a hook makes of names depends, as a set, on which names they are. -/
def Setwise {σ : Type} (hook : List String → Run σ (List String)) : Prop :=
  ∀ xs ys, (∀ n, n ∈ xs ↔ n ∈ ys) → ∀ s, Run.SameNames (hook xs s) (hook ys s)

namespace Setwise

variable {σ ε : Type} {hook : ε → List String → Run σ (List String)} {es inner outer : List ε}

theorem foldlM (h : ∀ e ∈ es, Setwise (hook e)) :
    Setwise fun names => es.foldlM (fun xs e => hook e xs) names := by
  induction es with
  | nil => exact fun xs ys hsame s => .ok hsame
  | cons e es ih =>
    intro xs ys hsame s
    have hstep := h e (by simp) xs ys hsame s
    simp only [List.foldlM_cons]
    generalize hxs : hook e xs s = x at hstep
    generalize hys : hook e ys s = y at hstep
    cases hstep with
    | ok hnext =>
      rw [Run.bind_ok hxs, Run.bind_ok hys]
      exact ih (fun f hf => h f (List.mem_cons_of_mem e hf)) _ _ hnext _
    | error =>
      rw [Run.bind_error hxs, Run.bind_error hys]
      exact .error

/-- Names that are sorted at the end need not be sorted before. -/
theorem sorted {hook : List String → Run σ (List String)} (h : Setwise hook) (names : List String) :
    Name.sortedUnique <$> hook (Name.sortedUnique names) = Name.sortedUnique <$> hook names := by
  funext s
  have hsame := h (Name.sortedUnique names) names (fun _ => Name.mem_sortedUnique) s
  generalize hx : hook (Name.sortedUnique names) s = x at hsame
  generalize hy : hook names s = y at hsame
  cases hsame with
  | ok hnames => rw [Run.map_ok hx, Run.map_ok hy, Name.sortedUnique_eq hnames]
  | error => rw [Run.map_error hx, Run.map_error hy]

/-- Hooks that are called in two chains, the names sorted after each, or in one. -/
theorem sorted_append (h : ∀ e ∈ outer, Setwise (hook e)) (x : Run σ (List String)) :
    (do
      let names ← (do return Name.sortedUnique (← inner.foldlM (fun xs e => hook e xs) (← x)))
      return Name.sortedUnique (← outer.foldlM (fun xs e => hook e xs) names)) =
    (do return Name.sortedUnique (← (inner ++ outer).foldlM (fun xs e => hook e xs) (← x))) := by
  simp only [List.foldlM_append, bind_assoc, pure_bind]
  congr 1
  funext listed
  congr 1
  funext names
  have hsorted := (foldlM h).sorted names
  simpa only [map_eq_pure_bind] using hsorted

end Setwise

/-! ## Two chains and one -/

/-- The hooks of a filter that are called when a storage is read. -/
def Hooks.reading {σ : Type} (h : Hooks σ) : Hooks σ where
  contains := h.contains
  read := h.read
  readMany := h.readMany
  list := h.list
  collectionNames := h.collectionNames
  collectionName := h.collectionName

namespace Pipeline

variable {σ : Type} {base : Storage σ} {inner outer : List (Hooks σ)}

theorem readOnly_reading (base : Storage σ) (chain : List (Hooks σ)) :
    (Pipeline.storage base (chain.map Hooks.reading)).readOnly =
      (Pipeline.storage base chain).readOnly := by
  rw [Storage.readOnly, Storage.readOnly, Storage.mk.injEq]
  refine ⟨?_, ?_, ?_, rfl, rfl, rfl, ?_, rfl, ?_, ?_, rfl, rfl⟩
  · funext name
    simp only [Pipeline.storage, contains, List.foldlM_map, Hooks.reading]
  · funext name
    simp only [Pipeline.storage, read, List.foldlM_map, Hooks.reading]
  · funext names
    simp only [Pipeline.storage, readMany, List.foldlM_map, Hooks.reading]
  · funext start
    simp only [Pipeline.storage, list, List.foldlM_map, Hooks.reading]
  · simp only [Pipeline.storage, collectionNames, List.foldlM_map, Hooks.reading]
  · simp only [Pipeline.storage, collectionName, List.foldl_map, Hooks.reading]

/-- A storage in two chains of filters, one around the other, is read like the storage in one chain. -/
theorem readOnly_append (hlist : ∀ h ∈ outer, ∀ start, Setwise (h.list start))
    (hnames : ∀ h ∈ outer, Setwise h.collectionNames) :
    (Pipeline.storage (Pipeline.storage base inner) outer).readOnly =
      (Pipeline.storage base (inner ++ outer)).readOnly := by
  rw [Storage.readOnly, Storage.readOnly, Storage.mk.injEq]
  refine ⟨?_, ?_, ?_, rfl, rfl, rfl, ?_, rfl, ?_, ?_, rfl, rfl⟩
  · funext name
    simp [Pipeline.storage, contains, List.foldlM_append]
  · funext name
    simp [Pipeline.storage, read, List.foldlM_append]
  · funext names
    simp [Pipeline.storage, readMany, List.foldlM_append]
  · funext start
    exact Setwise.sorted_append (fun h hh => hlist h hh start) (base.list start)
  · exact Setwise.sorted_append hnames base.collectionNames
  · simp [Pipeline.storage, collectionName, List.foldl_append]

theorem derive_append {F : Type} (xs ys : List (Run σ (Option F))) :
    derive (xs ++ ys) = (derive xs >>= fun fs => (fs ++ ·) <$> derive ys) := by
  induction xs with
  | nil => simp [derive]
  | cons x xs ih => simp [derive, ih]

end Pipeline

/-! ## Filters of any kind -/

/-- Filters of one type: the hooks of each, once it is bound to a storage, and the filter that it derives
for a collection, unless it stays out of it. -/
class Filtering (σ : outParam Type) (F : Type) where
  hooks : Storage σ → F → Hooks σ
  derive : String → F → Run σ (Option F)

/-- A view wrapped in filters. -/
structure Wrapped (V F : Type) where
  base : V
  filters : List F

variable {σ V F : Type} [View σ V] [Filtering σ F]

/-- The hooks of the filters, which are bound to the view for reading only. -/
def Wrapped.chain (x : Wrapped V F) : List (Hooks σ) :=
  x.filters.map (Filtering.hooks (View.storage x.base).readOnly)

instance : View σ (Wrapped V F) where
  storage x := Pipeline.storage (View.storage x.base) x.chain
  collection x c := do
    let (base, filters) ← Pipeline.collection (x.filters.map (Filtering.derive c))
      (View.collection x.base c)
    pure ⟨base, filters⟩

/-- Filters of a kind are detached: they never stop when filters are derived from them, change nothing
then, and derive filters of the kind. When they are asked for what is read, they make no use of what they
are bound to, and list sets of names. -/
structure Detached (kind : F → Prop) : Prop where
  derive : ∀ f, kind f → ∀ c (s : σ), ∃ o, Filtering.derive c f s = .ok o s ∧ ∀ g ∈ o, kind g
  unbound : ∀ f, kind f → ∀ x y : Storage σ,
    (Filtering.hooks x f).reading = (Filtering.hooks y f).reading
  list : ∀ f, kind f → ∀ (x : Storage σ) start, Setwise ((Filtering.hooks x f).list start)
  collectionNames : ∀ f, kind f → ∀ x : Storage σ, Setwise (Filtering.hooks x f).collectionNames

/-- A view in two chains of filters, one around the other, and the view in one chain of all of them. -/
structure Stacked (kind : F → Prop) (x : Wrapped (Wrapped V F) F) (y : Wrapped V F) : Prop where
  base : x.base.base = y.base
  filters : x.base.filters ++ x.filters = y.filters
  kind : ∀ f ∈ y.filters, kind f

variable {kind : F → Prop} {x : Wrapped (Wrapped V F) F} {y : Wrapped V F}

theorem Stacked.readOnly_eq (h : Stacked kind x y) (hkind : Detached kind) :
    (View.storage x).readOnly = (View.storage y).readOnly := by
  obtain ⟨⟨base, inner⟩, outer⟩ := x
  obtain ⟨base', filters⟩ := y
  obtain ⟨rfl, rfl, hall⟩ := h
  dsimp only at hall
  have houter : ∀ f ∈ outer, kind f := fun f hf => hall f (List.mem_append_right inner hf)
  generalize hsource : (View.storage base).readOnly = source
  generalize hstack : (View.storage (Wrapped.mk base inner)).readOnly = stack
  -- The outer filters are bound to the stack here, and to the view itself in the one chain.
  have hbound : (outer.map (Filtering.hooks stack)).map Hooks.reading =
      (outer.map (Filtering.hooks source)).map Hooks.reading := by
    rw [List.map_map, List.map_map]
    exact List.map_congr_left fun f hf => hkind.unbound f (houter f hf) stack source
  calc (View.storage (Wrapped.mk (Wrapped.mk base inner) outer)).readOnly
    _ = (Pipeline.storage (View.storage (Wrapped.mk base inner))
          (outer.map (Filtering.hooks stack))).readOnly := by rw [← hstack]; rfl
    _ = (Pipeline.storage (View.storage (Wrapped.mk base inner))
          (outer.map (Filtering.hooks source))).readOnly := by
      rw [← Pipeline.readOnly_reading, hbound, Pipeline.readOnly_reading]
    _ = (Pipeline.storage (Pipeline.storage (View.storage base) (inner.map (Filtering.hooks source)))
          (outer.map (Filtering.hooks source))).readOnly := by rw [← hsource]; rfl
    _ = (Pipeline.storage (View.storage base)
          (inner.map (Filtering.hooks source) ++ outer.map (Filtering.hooks source))).readOnly := by
      apply Pipeline.readOnly_append
      · simp only [List.forall_mem_map]
        exact fun f hf => hkind.list f (houter f hf) source
      · simp only [List.forall_mem_map]
        exact fun f hf => hkind.collectionNames f (houter f hf) source
    _ = (View.storage (Wrapped.mk base (inner ++ outer))).readOnly := by
      rw [← List.map_append, ← hsource]; rfl

/-! ## Collections -/

theorem Detached.exists_derive (hkind : Detached kind) {filters : List F}
    (h : ∀ f ∈ filters, kind f) (c : String) (s : σ) :
    ∃ derived, Pipeline.derive (filters.map (Filtering.derive c)) s = .ok derived s ∧
      ∀ g ∈ derived, kind g := by
  induction filters with
  | nil => exact ⟨[], rfl, by simp⟩
  | cons f filters ih =>
    obtain ⟨o, ho, hog⟩ := hkind.derive f (h f (by simp)) c s
    obtain ⟨derived, hderived, hall⟩ := ih fun g hg => h g (List.mem_cons_of_mem f hg)
    refine ⟨o.toList ++ derived, ?_, ?_⟩
    · rw [List.map_cons, Pipeline.derive, Run.bind_ok ho, Run.bind_ok hderived]
      rfl
    · intro g hg
      rcases List.mem_append.mp hg with hg | hg
      · exact hog g (by simpa using hg)
      · exact hall g hg

/-- The view is opened after the filters have been derived. -/
theorem Wrapped.collection_eq (z : Wrapped V F) {c : String} {s : σ} {derived : List F}
    (h : Pipeline.derive (z.filters.map (Filtering.derive c)) s = .ok derived s) :
    View.collection z c s = ((fun v => Wrapped.mk v derived) <$> View.collection z.base c) s := by
  have hcollection : Pipeline.collection (z.filters.map (Filtering.derive c))
      (View.collection z.base c) s = ((·, derived) <$> View.collection z.base c) s := by
    rw [Pipeline.collection, Run.bind_ok h, map_eq_pure_bind]
  cases hbase : View.collection z.base c s with
  | ok v t =>
    rw [Run.map_ok hbase] at hcollection ⊢
    exact Run.bind_ok hcollection _
  | error stop t =>
    rw [Run.map_error hbase] at hcollection ⊢
    exact Run.bind_error hcollection _

theorem Stacked.collection (h : Stacked kind x y) (hkind : Detached kind) (c : String) (s : σ) :
    (∃ x' y' t, View.collection x c s = .ok x' t ∧ View.collection y c s = .ok y' t ∧
      Stacked kind x' y') ∨
    ∃ stop t, View.collection x c s = .error stop t ∧ View.collection y c s = .error stop t := by
  obtain ⟨⟨base, inner⟩, outer⟩ := x
  obtain ⟨base', filters⟩ := y
  obtain ⟨rfl, rfl, hall⟩ := h
  dsimp only at hall
  obtain ⟨fs, hfs, hinner⟩ := hkind.exists_derive
    (fun f hf => hall f (List.mem_append_left outer hf)) c s
  obtain ⟨gs, hgs, houter⟩ := hkind.exists_derive
    (fun f hf => hall f (List.mem_append_right inner hf)) c s
  have happend : Pipeline.derive ((inner ++ outer).map (Filtering.derive c)) s = .ok (fs ++ gs) s := by
    rw [List.map_append, Pipeline.derive_append, Run.bind_ok hfs, Run.map_ok hgs]
  have hinside := Wrapped.collection_eq (Wrapped.mk base inner) hfs
  have hstack := Wrapped.collection_eq (Wrapped.mk (Wrapped.mk base inner) outer) hgs
  have hone := Wrapped.collection_eq (Wrapped.mk base (inner ++ outer)) happend
  cases hbase : View.collection base c s with
  | ok v t =>
    rw [Run.map_ok hbase] at hinside hone
    refine .inl ⟨⟨⟨v, fs⟩, gs⟩, ⟨v, fs ++ gs⟩, t, hstack.trans (Run.map_ok hinside), hone, rfl, rfl, ?_⟩
    exact fun f hf => (List.mem_append.mp hf).elim (hinner f) (houter f)
  | error stop t =>
    rw [Run.map_error hbase] at hinside hone
    exact .inr ⟨stop, t, hstack.trans (Run.map_error hinside), hone⟩

theorem Stacked.collections (h : Stacked kind x y) (hkind : Detached kind)
    (collections : List String) (s : σ) :
    (∃ x' y' t, collections.foldlM View.collection x s = .ok x' t ∧
      collections.foldlM View.collection y s = .ok y' t ∧ Stacked kind x' y') ∨
    ∃ stop t, collections.foldlM View.collection x s = .error stop t ∧
      collections.foldlM View.collection y s = .error stop t := by
  induction collections generalizing x y s with
  | nil => exact .inl ⟨x, y, s, rfl, rfl, h⟩
  | cons c collections ih =>
    rw [List.foldlM_cons, List.foldlM_cons]
    rcases h.collection hkind c s with ⟨x', y', t, hx, hy, h'⟩ | ⟨stop, t, hx, hy⟩
    · rw [Run.bind_ok hx, Run.bind_ok hy]
      exact ih h' t
    · exact .inr ⟨stop, t, Run.bind_error hx _, Run.bind_error hy _⟩

/-! ## The filters of stores -/

instance : Filtering World Filter where
  hooks x f := f.hooks (some x)
  derive c f := f.derive c

/-- A view of one type is also one of another type: with the same storage, and the same collections. -/
structure Embeds {V W : Type} [View σ V] [View σ W] (f : V → W) : Prop where
  storage : ∀ v, View.storage (f v) = View.storage v
  collection : ∀ v c, View.collection (f v) c = f <$> View.collection v c

namespace Embeds

variable {U W : Type} [View σ U] [View σ W] {f : V → W}

theorem comp {g : W → U} (hg : Embeds g) (hf : Embeds f) : Embeds (g ∘ f) where
  storage v := (hg.storage (f v)).trans (hf.storage v)
  collection v c := by
    rw [Function.comp_apply, hg.collection, hf.collection, Functor.map_map]
    rfl

/-- A view may be embedded inside of filters. -/
theorem wrapped (h : Embeds f) : Embeds fun x : Wrapped V F => Wrapped.mk (f x.base) x.filters where
  storage x := by
    simp only [View.storage, Wrapped.chain]
    rw [h.storage]
  collection x c := by
    simp only [View.collection, Pipeline.collection]
    rw [h.collection]
    simp only [bind_assoc, pure_bind, bind_map_left, map_bind, map_pure]

theorem collections (h : Embeds f) (v : V) (path : List String) :
    path.foldlM View.collection (f v) = f <$> path.foldlM View.collection v := by
  induction path generalizing v with
  | nil => rw [List.foldlM_nil, List.foldlM_nil, map_pure]
  | cons c path ih =>
    rw [List.foldlM_cons, List.foldlM_cons, h.collection, bind_map_left, map_bind]
    exact bind_congr ih

end Embeds

/-- A store in filters, as a store. -/
def Wrapped.store (x : Wrapped Store Filter) : Store := .layered none x.base x.filters

theorem Wrapped.embeds_store : Embeds Wrapped.store where
  storage x := by
    show (Store.layered none x.base x.filters).storage = _
    rw [Store.storage, Filter.chain_eq_map]
    rfl
  collection x c := by
    show (Store.layered none x.base x.filters).collection c = _
    rw [Store.collection, Filter.derivations_eq_map]
    simp only [View.collection, map_bind, map_pure]
    rfl

theorem Setwise.pure {σ : Type} {f : List String → List String}
    (h : ∀ xs ys, (∀ n, n ∈ xs ↔ n ∈ ys) → ∀ n, n ∈ f xs ↔ n ∈ f ys) :
    Setwise fun names => (Pure.pure (f names) : Run σ (List String)) :=
  fun xs ys hsame _ => .ok (h xs ys hsame)

/-- Names that are added from elsewhere, all or some of them. -/
theorem Setwise.added {σ : Type} (x : Run σ (List String)) (part : List String → List String) :
    Setwise fun names => do return Name.sortedUnique (names ++ part (← x)) := by
  intro xs ys hsame s
  beta_reduce
  cases hx : x s with
  | ok added t =>
    rw [Run.bind_ok hx, Run.bind_ok hx]
    refine .ok fun n => ?_
    simp only [Name.mem_sortedUnique, List.mem_append, hsame]
  | error stop t =>
    rw [Run.bind_error hx, Run.bind_error hx]
    exact .error

/-- A filter that never fails when a collection is opened: an ignore filter that takes from a movable
store, or a stock filter that does not fail. -/
def Filter.willing : Filter → Bool
  | .ignore _ _ active => active.movable
  | .stock f =>
    match f.task with
    | .fail _ => false
    | _ => true

/-- Where a stock filter does not fail, it is as if it had no guard. -/
theorem Stock.guard_of_willing {σ α : Type} {f : Stock} (h : (Filter.stock f).willing = true)
    (hook : Hook) (x : Run σ α) : f.guard hook x = x := by
  rw [Filter.willing] at h
  rw [Stock.guard]
  split <;> simp_all

theorem Filter.detached_willing : Detached fun f : Filter => f.willing = true where
  derive := by
    intro f h c w
    cases f with
    | ignore p b active =>
      refine ⟨_, congrFun (Filter.derive_of_movable (f := .ignore p b active) c h) w, ?_⟩
      rintro g ⟨⟩
      rw [Filter.moved, Filter.willing, Store.movable_moved]
      exact h
    | stock f =>
      have hderive : f.derive c = (pure _ : Run World (Option Stock)) := Stock.guard_of_willing h _ _
      refine ⟨_, Run.map_ok (congrFun hderive w), ?_⟩
      intro g hg
      obtain ⟨f', hf', rfl⟩ := Option.map_eq_some_iff.mp hg
      have hself : f' = f := by split at hf' <;> simp_all
      rw [hself]
      exact h
  unbound := by
    intro f _ x y
    cases f with
    | ignore p b active => rfl
    | stock f => rfl
  list := by
    intro f h x start
    cases f with
    | ignore p b active =>
      exact Setwise.added (active.storage.list start)
        (List.filter (Ignore.Context.ignores ⟨p, b, active.storage⟩))
    | stock f =>
      show Setwise fun names => f.guard .list _
      simp only [Stock.guard_of_willing h]
      refine Setwise.pure fun xs ys hsame n => ?_
      split <;> simp [hsame]
  collectionNames := by
    intro f h x
    cases f with
    | ignore p b active => exact Setwise.added active.storage.collectionNames fun names => names
    | stock f =>
      show Setwise fun names => f.guard .collectionNames _
      simp only [Stock.guard_of_willing h]
      refine Setwise.pure fun xs ys hsame n => ?_
      split <;> simp [hsame]

/-! ## Reading -/

/-- Of a view in two chains of detached filters, one around the other, and of the view in one chain of
all of them, the same collections can be opened, one from the other, and the others fail for the same
cause. What is opened is read alike: with the same answers, the same failures and the same states. -/
theorem reads_stacked (hkind : Detached kind) {inner outer : List F}
    (h : ∀ f ∈ inner ++ outer, kind f) (base : V) (collections : List String) (s : σ) :
    (∃ x y t,
      collections.foldlM View.collection (Wrapped.mk (Wrapped.mk base inner) outer) s = .ok x t ∧
      collections.foldlM View.collection (Wrapped.mk base (inner ++ outer)) s = .ok y t ∧
      (View.storage x).readOnly = (View.storage y).readOnly) ∨
    ∃ stop t,
      collections.foldlM View.collection (Wrapped.mk (Wrapped.mk base inner) outer) s = .error stop t ∧
      collections.foldlM View.collection (Wrapped.mk base (inner ++ outer)) s = .error stop t := by
  have hstacked : Stacked kind (Wrapped.mk (Wrapped.mk base inner) outer)
      (Wrapped.mk base (inner ++ outer)) := ⟨rfl, rfl, h⟩
  rcases hstacked.collections hkind collections s with ⟨x, y, t, hx, hy, hxy⟩ | hstop
  · exact .inl ⟨x, y, t, hx, hy, hxy.readOnly_eq hkind⟩
  · exact .inr hstop

/-- The German settings of users, in an ignore filter that takes the mail address from another shelf, and
in two stock filters around it. In the collection that is opened, one of these stays out, and the other
lists further names. -/
theorem reads_stacked_language :
    let settings (mail role : String) : Document := .ofList [("mail", .string mail), ("role", .string role)]
    let german (mail role : String) : Shelf :=
      Dict.insert ∅ "language.de" (.ofList [("user.settings", settings mail role)])
    let w := World.ofShelves (german "sync@example.com" "Redakteur") (german "live@example.com" "Gast")
    let patterns := (Ignore.Patterns.ofTexts? ["system.*", "user.*:mail"]).toOption.getD ⟨[]⟩
    let ignoring (c : String) : Filter := .ignore patterns false (.shelf 1 c)
    let ending : Filter := .stock ⟨"ending", .rename ".old", some "language.de", false⟩
    let order : Filter := .stock ⟨"order", .shuffle, none, false⟩
    let path := ["language.de"]
    let twice : Wrapped (Wrapped Store Filter) Filter :=
      ⟨⟨.shelf 0 "language.de", [ignoring "language.de"]⟩, [order]⟩
    let once : Wrapped Store Filter := ⟨.shelf 0 "language.de", [ignoring "language.de", order]⟩
    (∀ f ∈ [ignoring ""] ++ [ending, order], f.willing = true) ∧
      path.foldlM View.collection
          (Wrapped.mk (Wrapped.mk (Store.shelf 0 "") [ignoring ""]) [ending, order]) w = .ok twice w ∧
      path.foldlM View.collection (Wrapped.mk (Store.shelf 0 "") ([ignoring ""] ++ [ending, order])) w =
        .ok once w ∧
      (View.storage twice).readOnly = (View.storage once).readOnly ∧
      (∃ u, (View.storage twice).list "" w = .ok ["aaa.first", "user.settings", "zzz.last"] u ∧
        (View.storage once).list "" w = .ok ["aaa.first", "user.settings", "zzz.last"] u) ∧
      ∃ d u, (View.storage twice).read "user.settings" w = .ok (some d) u ∧
        (View.storage once).read "user.settings" w = .ok (some d) u ∧
        d.same (settings "live@example.com" "Redakteur") = true := by
  intro settings german w patterns ignoring ending order path twice once
  have hwilling : ∀ f ∈ [ignoring ""] ++ [ending, order], f.willing = true := by decide
  have htwice : path.foldlM View.collection
      (Wrapped.mk (Wrapped.mk (Store.shelf 0 "") [ignoring ""]) [ending, order]) w = .ok twice w := rfl
  have honce : path.foldlM View.collection
      (Wrapped.mk (Store.shelf 0 "") ([ignoring ""] ++ [ending, order])) w = .ok once w := rfl
  have hequal : (View.storage twice).readOnly = (View.storage once).readOnly := by
    rcases reads_stacked Filter.detached_willing hwilling (Store.shelf 0 "") path w with
      ⟨x, y, t, hx, hy, hxy⟩ | ⟨stop, t, hx, -⟩
    · obtain ⟨rfl, -⟩ := Run.ok_unique htwice hx
      obtain ⟨rfl, -⟩ := Run.ok_unique honce hy
      exact hxy
    · rw [htwice] at hx
      cases hx
  have hlists : Run.answers (fun names _ => names == ["aaa.first", "user.settings", "zzz.last"])
      ((View.storage twice).list "" w) = true := by decide +kernel
  have hreads : Run.answers (fun d _ => d.any (·.same (settings "live@example.com" "Redakteur")))
      ((View.storage twice).read "user.settings" w) = true := by decide +kernel
  obtain ⟨names, u, hlist, hnames⟩ := Run.exists_of_answers hlists
  obtain ⟨o, v, hread, hsame⟩ := Run.exists_of_answers hreads
  obtain ⟨d, rfl, hd⟩ := (Option.any_eq_true _ _).mp hsame
  rw [beq_iff_eq] at hnames
  subst hnames
  have hlistOnce := congrFun (congrFun (congrArg Storage.list hequal) "") w
  have hreadOnce := congrFun (congrFun (congrArg Storage.read hequal) "user.settings") w
  exact ⟨hwilling, htwice, honce, hequal, ⟨u, hlist, hlistOnce.symm.trans hlist⟩,
    d, v, hread, hreadOnce.symm.trans hread, hd⟩

/-- Of a store in two chains of detached filters and of the store in one chain, the same is read, in all
collections that are opened from there. -/
theorem Store.reads_layered {kind : Filter → Prop} (hkind : Detached kind) {inner outer : List Filter}
    (h : ∀ f ∈ inner ++ outer, kind f) (base : Store) (path : List String) (w : World) :
    (∃ s t w', path.foldlM View.collection (layered none (layered none base inner) outer) w = .ok s w' ∧
      path.foldlM View.collection (layered none base (inner ++ outer)) w = .ok t w' ∧
      s.storage.readOnly = t.storage.readOnly) ∨
    ∃ stop w',
      path.foldlM View.collection (layered none (layered none base inner) outer) w = .error stop w' ∧
      path.foldlM View.collection (layered none base (inner ++ outer)) w = .error stop w' := by
  have hone := Wrapped.embeds_store
  have htwo := hone.comp (hone.wrapped (F := Filter))
  have hstacked : Stacked kind (Wrapped.mk (Wrapped.mk base inner) outer)
      (Wrapped.mk base (inner ++ outer)) := ⟨rfl, rfl, h⟩
  have hleft := htwo.collections (Wrapped.mk (Wrapped.mk base inner) outer) path
  have hright := hone.collections (Wrapped.mk base (inner ++ outer)) path
  change path.foldlM View.collection (layered none (layered none base inner) outer) = _ at hleft
  change path.foldlM View.collection (layered none base (inner ++ outer)) = _ at hright
  rw [hleft, hright]
  rcases hstacked.collections hkind path w with ⟨x, y, w', hx, hy, hxy⟩ | ⟨stop, w', hx, hy⟩
  · refine .inl ⟨_, _, w', Run.map_ok hx, Run.map_ok hy, ?_⟩
    have hread := hxy.readOnly_eq hkind
    rw [← htwo.storage, ← hone.storage] at hread
    exact hread
  · exact .inr ⟨stop, w', Run.map_error hx, Run.map_error hy⟩

end LayeredConfig
