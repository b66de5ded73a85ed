import LayeredConfig.Proofs.Reflection
/-!
# Views for reading only

What a store shows for reading only cannot be changed, however deep the store is nested: neither through
its own view for reading only, nor through the storage that the filters around it are bound to, nor
through any collection that is opened from there. Every change is refused by its name, everything else is
answered as by the store that is shown, and no turn of a dialogue leaves another world
(`Store.transcript_protected`).
-/

namespace LayeredConfig

/-! ## Storages -/

/-- A storage whose reading operations leave every state as it is, whether they answer or stop. -/
structure Storage.Quiet {σ : Type} (x : Storage σ) : Prop where
  contains : ∀ name, (x.contains name).Steady
  read : ∀ name, (x.read name).Steady
  readMany : ∀ names, (x.readMany names).Steady
  list : ∀ start, (x.list start).Steady
  collectionNames : x.collectionNames.Steady
  encode : ∀ d, (x.encode d).Steady
  decode : ∀ text, (x.decode text).Steady

/-- A filter whose hooks for reading operations leave every state as it is. -/
structure Hooks.Quiet {σ : Type} (h : Hooks σ) : Prop where
  contains : ∀ name b, (h.contains name b).Steady
  read : ∀ name d, (h.read name d).Steady
  readMany : ∀ names ds, (h.readMany names ds).Steady
  list : ∀ start names, (h.list start names).Steady
  collectionNames : ∀ names, (h.collectionNames names).Steady

theorem Pipeline.quiet {σ : Type} {base : Storage σ} {chain : List (Hooks σ)} (hbase : base.Quiet)
    (hchain : ∀ h ∈ chain, h.Quiet) : (Pipeline.storage base chain).Quiet where
  contains name := (hbase.contains name).bind fun b =>
    .foldlM (fun h hh b => (hchain h hh).contains name b) b
  read name := (hbase.read name).bind fun d => .foldlM (fun h hh d => (hchain h hh).read name d) d
  readMany names := (hbase.readMany names).bind fun ds =>
    .foldlM (fun h hh ds => (hchain h hh).readMany names ds) ds
  list start := (hbase.list start).bind fun names =>
    .bind (.foldlM (fun h hh names => (hchain h hh).list start names) names) fun _ => .pure _
  collectionNames := hbase.collectionNames.bind fun names =>
    .bind (.foldlM (fun h hh names => (hchain h hh).collectionNames names) names) fun _ => .pure _
  encode := hbase.encode
  decode := hbase.decode

namespace Ignore.Context

variable {σ : Type} {x : Context σ}

theorem steady_spliced (hx : x.active.Quiet) (name : String) (d : Document) :
    (x.spliced name d).Steady := by
  unfold spliced
  split
  · exact .pure d
  · apply (hx.read name).bind
    intro active
    split
    · exact .pure _
    · exact .crash

theorem steady_replaced (hx : x.active.Quiet) (name : String) (d : Option Document) :
    (x.replaced name d).Steady := by
  unfold replaced
  split
  · exact hx.read name
  · split
    · exact .pure none
    · exact (steady_spliced hx name _).map

theorem steady_replacedMany (hx : x.active.Quiet) (names : List String) (ds : Dict Document) :
    (x.replacedMany names ds).Steady := by
  have hstep : ∀ e : String × Document,
      (if x.ignores e.1 then pure e else return (e.1, ← x.spliced e.1 e.2) : Run σ _).Steady := by
    intro e
    split
    · exact .pure e
    · exact (steady_spliced hx e.1 e.2).bind fun d => .pure (e.1, d)
  refine (Run.Steady.mapM hstep ds.entries).bind fun spliced => ?_
  split
  · exact .pure _
  · exact (hx.readMany _).bind fun _ => .pure _

theorem quiet_hooks (hx : x.active.Quiet) (source : Option (Storage σ)) : (x.hooks source).Quiet where
  contains name b := by
    show (if !b && x.ignores name then x.active.contains name else pure b).Steady
    split
    · exact hx.contains name
    · exact .pure b
  read := steady_replaced hx
  readMany := steady_replacedMany hx
  list start _ := (hx.list start).bind fun _ => .pure _
  collectionNames _ := hx.collectionNames.bind fun _ => .pure _

end Ignore.Context

/-! ## Stores -/

mutual

/-- Whether a store is made of shelves, of directories, of views for reading only and of ignore filters
that take from such stores. -/
def Store.standard : Store → Bool
  | .shelf .. | .directory .. => true
  | .readOnly s => s.standard
  | .layered _ base filters => base.standard && Filter.allStandard filters
  | .journaled .. => false

/-- Whether a filter is an ignore filter that takes from a standard store. -/
def Filter.standard : Filter → Bool
  | .ignore _ _ active => active.standard
  | .stock _ => false

/-- Whether all filters are standard. -/
def Filter.allStandard : List Filter → Bool
  | [] => true
  | f :: rest => f.standard && Filter.allStandard rest

end

/-! ## Reading -/

theorem Store.quiet_shelf (i : Nat) (c : String) : (shelf i c).storage.Quiet where
  contains := (steady_shelf i c).contains
  read := (steady_shelf i c).read
  readMany := (steady_shelf i c).readMany
  list := (steady_shelf i c).list
  collectionNames := (steady_shelf i c).collectionNames
  encode d := by
    have hencode : (shelf i c).storage.encode d = .ofExcept d.encode :=
      (encode_shelf i c d).trans (funext (onShelf_ofExcept i _))
    rw [hencode]
    exact .ofExcept _
  decode text := by
    have hdecode : (shelf i c).storage.decode text = .ofExcept (Document.decode text) :=
      (decode_shelf i c text).trans (funext (onShelf_ofExcept i _))
    rw [hdecode]
    exact .ofExcept _

theorem Store.quiet_directory (root c : String) : (directory root c).storage.Quiet where
  contains := (steady_directory root c).contains
  read := (steady_directory root c).read
  readMany := (steady_directory root c).readMany
  list := (steady_directory root c).list
  collectionNames := (steady_directory root c).collectionNames
  encode d := by
    have hencode : (directory root c).storage.encode d = _ := encode_directory root c d
    rw [hencode]
    exact World.steady_onFiles (.ofExcept _)
  decode text := by
    have hdecode : (directory root c).storage.decode text = _ := decode_directory root c text
    rw [hdecode]
    exact World.steady_onFiles (.ofExcept _)

mutual

/-- Nothing is changed by reading, through any number of filters. -/
theorem Store.quiet : ∀ {s : Store}, s.standard = true → s.storage.Quiet
  | .shelf i c, _ => Store.quiet_shelf i c
  | .directory root c, _ => Store.quiet_directory root c
  | .readOnly s, h => by
    rw [Store.standard] at h
    have hs := Store.quiet h
    rw [Store.storage]
    exact ⟨hs.contains, hs.read, hs.readMany, hs.list, hs.collectionNames, hs.encode, hs.decode⟩
  | .layered _ base filters, h => by
    rw [Store.standard, Bool.and_eq_true] at h
    rw [Store.storage]
    exact Pipeline.quiet (Store.quiet h.1) (Filter.quiet_chain h.2 _)
  | .journaled .., h => by simp only [Store.standard, Bool.false_eq_true] at h

theorem Filter.quiet_chain : ∀ {fs : List Filter}, Filter.allStandard fs = true →
    ∀ source, ∀ g ∈ Filter.chain source fs, g.Quiet
  | [], _, _ => by simp [Filter.chain]
  | f :: rest, h, source => by
    rw [Filter.allStandard, Bool.and_eq_true] at h
    rw [Filter.chain, List.forall_mem_cons]
    exact ⟨Filter.quiet_hooks h.1 source, Filter.quiet_chain h.2 source⟩

theorem Filter.quiet_hooks : ∀ {f : Filter}, f.standard = true → ∀ source, (f.hooks source).Quiet
  | .ignore _ _ active, h, source => by
    rw [Filter.standard] at h
    rw [Filter.hooks]
    exact Ignore.Context.quiet_hooks (Store.quiet h) source
  | .stock _, h, _ => by simp only [Filter.standard, Bool.false_eq_true] at h

end

/-! ## Opening collections -/

/-- A run leaves the state as it is, and what it answers, if it does, has a property. -/
def Run.Finds {σ α : Type} (good : α → Prop) (x : Run σ α) : Prop :=
  ∀ s, (∃ a, x s = .ok a s ∧ good a) ∨ ∃ stop, x s = .error stop s

namespace Run.Finds

variable {σ α β : Type} {good : α → Prop} {fine : β → Prop} {x : Run σ α} {f : α → Run σ β}

theorem pure {a : α} (h : good a) : Finds good (Pure.pure a : Run σ α) := fun _ => .inl ⟨a, rfl, h⟩

theorem fail (cause : Failure) : Finds good (Run.fail cause : Run σ α) := fun _ => .inr ⟨_, rfl⟩

theorem bind (hx : Finds good x) (hf : ∀ a, good a → Finds fine (f a)) : Finds fine (x >>= f) := by
  intro s
  rcases hx s with ⟨a, ha, hgood⟩ | ⟨stop, hstop⟩
  · rw [bind_ok ha]
    exact hf a hgood s
  · exact .inr ⟨stop, bind_error hstop f⟩

theorem map {g : α → β} (hx : Finds good x) (hg : ∀ a, good a → fine (g a)) : Finds fine (g <$> x) := by
  rw [map_eq_pure_bind]
  exact hx.bind fun a ha => .pure (hg a ha)

theorem of_steady (hx : x.Steady) (h : ∀ a, good a) : Finds good x := fun s =>
  (hx s).imp_left fun ⟨a, ha⟩ => ⟨a, ha, h a⟩

theorem of_ok {a : α} {s t : σ} (hx : Finds good x) (h : x s = .ok a t) : t = s ∧ good a := by
  rcases hx s with ⟨b, hb, hgood⟩ | ⟨stop, hstop⟩
  · obtain ⟨rfl, rfl⟩ := ok_unique h hb
    exact ⟨rfl, hgood⟩
  · rw [hstop] at h
    cases h

end Run.Finds

mutual

/-- The collections of a standard store are standard, and opening one changes nothing. -/
theorem Store.finds_collection (c : String) : ∀ {s : Store}, s.standard = true →
    (s.collection c).Finds fun t => t.standard = true
  | .shelf .., _ => by
    rw [Store.collection]
    exact .pure rfl
  | .directory .., _ => by
    rw [Store.collection]
    split
    · exact .pure rfl
    · exact .fail _
  | .readOnly s, h => by
    rw [Store.standard] at h
    rw [Store.collection]
    exact (Store.finds_collection c h).map fun t ht => by rwa [Store.standard]
  | .layered _ base filters, h => by
    rw [Store.standard, Bool.and_eq_true] at h
    rw [Store.collection, Pipeline.collection]
    have hparts : (do
        let gs ← Pipeline.derive (Filter.derivations c filters)
        let t ← base.collection c
        pure (t, gs) : Run World _).Finds
          fun r => r.1.standard = true ∧ Filter.allStandard r.2 = true :=
      (Filter.finds_derivations c h.2).bind fun gs hgs =>
        (Store.finds_collection c h.1).bind fun t ht => .pure ⟨ht, hgs⟩
    refine hparts.bind fun r hr => .pure ?_
    rw [Store.standard, Bool.and_eq_true]
    exact hr
  | .journaled .., h => by simp only [Store.standard, Bool.false_eq_true] at h

theorem Filter.finds_derivations (c : String) : ∀ {fs : List Filter}, Filter.allStandard fs = true →
    (Pipeline.derive (Filter.derivations c fs)).Finds fun gs => Filter.allStandard gs = true
  | [], _ => by
    rw [Filter.derivations, Pipeline.derive]
    exact .pure rfl
  | f :: rest, h => by
    rw [Filter.allStandard, Bool.and_eq_true] at h
    rw [Filter.derivations, Pipeline.derive]
    refine (Filter.finds_derive c h.1).bind fun o ho => ?_
    refine (Filter.finds_derivations c h.2).bind fun gs hgs => .pure ?_
    cases o with
    | none => exact hgs
    | some g =>
      show Filter.allStandard (g :: gs) = true
      rw [Filter.allStandard, Bool.and_eq_true]
      exact ⟨ho g rfl, hgs⟩

theorem Filter.finds_derive (c : String) : ∀ {f : Filter}, f.standard = true →
    (f.derive c).Finds fun o => ∀ g ∈ o, g.standard = true
  | .ignore _ _ active, h => by
    rw [Filter.standard] at h
    rw [Filter.derive]
    refine (Store.finds_collection c h).map fun t ht => ?_
    rintro g ⟨⟩
    rwa [Filter.standard]
  | .stock _, h => by simp only [Filter.standard, Bool.false_eq_true] at h

end

/-! ## What is shown -/

namespace Store

variable {s t p g : Store} {mark : Option Nat} {filters : List Filter} {c : String} {cs : List String}
  {w w' : World}

/-- A collection behind filters is that of the store, behind the filters for it. -/
theorem exists_of_collection_layered (hs : s.standard = true) (hfilters : Filter.allStandard filters = true)
    (h : View.collection (layered mark s filters) c w = .ok p w') :
    w' = w ∧ ∃ t gs, View.collection s c w = .ok t w ∧ p = layered none t gs ∧ t.standard = true ∧
      Filter.allStandard gs = true := by
  have h : (layered mark s filters).collection c w = .ok p w' := h
  rw [Store.collection, Pipeline.collection] at h
  obtain ⟨r, u, hparts, hp⟩ := Run.bind_eq_ok.mp h
  obtain ⟨gs, v, hgs, hbase⟩ := Run.bind_eq_ok.mp hparts
  obtain ⟨t, v', ht, hr⟩ := Run.bind_eq_ok.mp hbase
  obtain ⟨rfl, hstandard⟩ := (Filter.finds_derivations c hfilters).of_ok hgs
  obtain ⟨rfl, htstandard⟩ := (Store.finds_collection c hs).of_ok ht
  cases hr
  cases hp
  exact ⟨rfl, t, gs, ht, rfl, htstandard, hstandard⟩

theorem exists_of_descend_layered (hs : s.standard = true) (hfilters : Filter.allStandard filters = true)
    (h : descend cs (layered mark s filters) w = .ok p w') :
    w' = w ∧ ∃ mark' t gs, descend cs s w = .ok t w ∧ p = layered mark' t gs ∧ t.standard = true := by
  induction cs generalizing s mark filters w with
  | nil =>
    cases h
    exact ⟨rfl, mark, s, filters, rfl, rfl, hs⟩
  | cons c cs ih =>
    obtain ⟨q, v, hq, h⟩ := Run.bind_eq_ok.mp h
    obtain ⟨rfl, t, gs, ht, rfl, htstandard, hgs⟩ := exists_of_collection_layered hs hfilters hq
    obtain ⟨rfl, mark', u, fs, hu, hp, hustandard⟩ := ih htstandard hgs h
    exact ⟨rfl, mark', u, fs, (Run.bind_ok ht _).trans hu, hp, hustandard⟩

/-- What shows a store for reading only, and the store that it shows: the view of the store itself, and
what the filters around the store are bound to in a collection that is opened through them, which shows
that collection of the store. -/
inductive Shows (s : Store) : Store → Store → Prop
  | self : Shows s (.readOnly s) s
  | source {mark : Option Nat} {filters : List Filter} {cs : List String} {w v v' : World} {p g t : Store} :
      Filter.allStandard filters = true → descend cs (layered mark s filters) w = .ok p v →
      p.source? = some g → descend cs s w = .ok t v' → Shows s g t

theorem Shows.eq_readOnly (hs : s.standard = true) (h : Shows s g t) :
    g = .readOnly t ∧ t.standard = true := by
  cases h with
  | self => exact ⟨rfl, hs⟩
  | source hfilters hp hg ht =>
    obtain ⟨-, mark', u, gs, hu, rfl, hustandard⟩ := exists_of_descend_layered hs hfilters hp
    obtain ⟨rfl, rfl⟩ := Run.ok_unique hu ht
    cases hg
    exact ⟨rfl, hustandard⟩

end Store

/-! ## Dialogues -/

/-- The change that a question asks for, by its name. -/
def Question.change? : Question → Option String
  | .call (.write ..) => some "write"
  | .call (.delete _) => some "delete"
  | .call (.rename ..) => some "rename"
  | .call (.deleteAll _) => some "delete_all"
  | _ => none

/-- A turn that asks for no change: where it would, it asks for the name of the collection. -/
def Turn.withoutChange (k : Turn) : Turn :=
  if k.question.change?.isSome then { k with question := .collectionName } else k

/-- What a turn shows where changes are refused by their names. -/
def Turn.refused (k : Turn) (shown : Session.Outcome × World) : Session.Outcome × World :=
  match k.question.change? with
  | none => shown
  | some name => (shown.1.map fun _ => .error (.failure (.readOnly name)), shown.2)

namespace Store

variable {s t g : Store} {q : Question}

theorem run_readOnly_of_change {name : String} (hq : q.change? = some name) (t : Store) (w : World) :
    q.run (Store.readOnly t) w = .error (.failure (.readOnly name)) w := by
  have hstorage : View.storage (Store.readOnly t) = t.storage.readOnly := by
    show (Store.readOnly t).storage = _
    rw [Store.storage]
  rw [Question.run.eq_def]
  unfold Question.change? at hq
  split at hq <;> cases hq <;> rw [hstorage] <;> rfl

/-- What is not a change is asked of the store that is shown, and what is opened is shown as well. -/
theorem run_readOnly (hq : q.change? = none) (t : Store) :
    q.run (Store.readOnly t) = (fun r => (r.1, r.2.map Store.readOnly)) <$> q.run t := by
  have hstorage : View.storage (Store.readOnly t) = (View.storage t).readOnly := by
    show (Store.readOnly t).storage = t.storage.readOnly
    rw [Store.storage]
  have hcollection : ∀ c, View.collection (Store.readOnly t) c = Store.readOnly <$> View.collection t c := by
    intro c
    show (Store.readOnly t).collection c = Store.readOnly <$> t.collection c
    rw [Store.collection]
  cases q with
  | call k =>
    have hcall : k.run (View.storage t).readOnly = k.run (View.storage t) := by
      cases k <;> first | rfl | cases hq
    simp only [Question.run, hstorage, hcall, Functor.map_map, List.map_nil]
  | collectionName => rw [Question.run, Question.run, hstorage, map_pure]; rfl
  | encode d => simp only [Question.run, hstorage, Functor.map_map, List.map_nil]; rfl
  | decode text => simp only [Question.run, hstorage, Functor.map_map, List.map_nil]; rfl
  | collection c => simp only [Question.run, hcollection, Functor.map_map, List.map_cons, List.map_nil]

/-- What is not a change changes nothing, and opens standard stores. -/
theorem finds_run (ht : t.standard = true) (hq : q.change? = none) :
    (q.run t).Finds fun r => ∀ u ∈ r.2, u.standard = true := by
  have hquiet : (View.storage t).Quiet := Store.quiet ht
  have opensNone : ∀ {α : Type} {x : Run World α} (reply : α → Reply), x.Steady →
      Run.Finds (fun r => ∀ u ∈ r.2, u.standard = true)
        ((fun a => (reply a, ([] : List Store))) <$> x) :=
    fun reply hx => (Run.Finds.of_steady hx fun _ => trivial).map fun _ _ => by simp
  cases q with
  | call k =>
    have hcall : (k.run (View.storage t)).Steady := by
      cases k with
      | contains name => exact (hquiet.contains name).map
      | read name => exact (hquiet.read name).map
      | readMany names => exact (hquiet.readMany names).map
      | list start => exact (hquiet.list start).map
      | collectionNames => exact hquiet.collectionNames.map
      | write | delete | rename | deleteAll => cases hq
    exact opensNone .answer hcall
  | collectionName => exact .pure (by simp)
  | encode d => exact opensNone .text (hquiet.encode d)
  | decode text => exact opensNone .document (hquiet.decode text)
  | collection c => exact (Store.finds_collection c ht).map fun u hu => by simpa using hu

/-- A view for reading only, and the standard store that it shows. -/
def Guards (g t : Store) : Prop := g = .readOnly t ∧ t.standard = true

theorem Guards.alike (h : Guards g t) (hq : q.change? = none) (w : World) :
    Session.Alike Guards Eq Eq (q.run g w) (q.run t w) := by
  obtain ⟨rfl, ht⟩ := h
  rw [run_readOnly hq t]
  rcases finds_run ht hq w with ⟨r, hr, hopened⟩ | ⟨stop, hstop⟩
  · rw [Run.map_ok hr, hr]
    refine .ok rfl ?_ rfl
    rw [List.forall₂_map_left_iff, List.forall₂_same]
    exact fun u hu => ⟨rfl, hopened u hu⟩
  · rw [Run.map_error hstop, hstop]
    exact .error rfl

theorem Guards.steady (h : Guards g t) (q : Question) : (q.run g).Steady := by
  obtain ⟨rfl, ht⟩ := h
  cases hq : q.change? with
  | none =>
    rw [run_readOnly hq t]
    intro w
    rcases finds_run ht hq w with ⟨r, hr, -⟩ | ⟨stop, hstop⟩
    · exact .inl ⟨_, Run.map_ok hr⟩
    · exact .inr ⟨stop, Run.map_error hstop⟩
  | some name => exact fun w => .inr ⟨_, run_readOnly_of_change hq t w⟩

/-- A turn leaves the world in which it is taken. -/
theorem Guards.state_turn {a b : Session World Store} (h : Session.Related Guards Eq a b) (k : Turn) :
    (a.turn k).1.state = a.state := by
  have hrel := Session.views_rel h.views k.view
  rw [Session.turn]
  generalize a.views[k.view]? = v at hrel ⊢
  generalize b.views[k.view]? = u at hrel
  cases hrel with
  | none => rfl
  | some hguards =>
    rcases hguards.steady k.question a.state with ⟨r, hr⟩ | ⟨stop, hstop⟩
    · simp only [hr, Session.record]
    · simp only [hstop, Session.record]

/-- At each turn, views for reading only refuse a change, and show all else as the stores do. -/
theorem Guards.turn {a b : Session World Store} (h : Session.Related Guards Eq a b) (k : Turn) :
    Session.Related Guards Eq (a.turn k).1 (b.turn k.withoutChange).1 ∧
      ((a.turn k).2, (a.turn k).1.state) =
        k.refused ((b.turn k.withoutChange).2, (b.turn k.withoutChange).1.state) := by
  have hstate : a.state = b.state := h.state
  unfold Turn.withoutChange Turn.refused
  cases hk : k.question.change? with
  | none =>
    have halike : ∀ g t, a.views[k.view]? = some g → b.views[k.view]? = some t → Guards g t →
        Session.Alike Guards Eq Eq (k.question.run g a.state) (k.question.run t b.state) := by
      intro g t _ _ hguards
      rw [← hstate]
      exact hguards.alike hk a.state
    obtain ⟨hrelated, hsame⟩ := Session.turn_related_of_views h k halike
    simp only [Option.isSome_none, Bool.false_eq_true, if_false]
    exact ⟨hrelated, by rw [hsame.eq, hrelated.state]⟩
  | some name =>
    simp only [Option.isSome_some, if_true]
    have hrel := Session.views_rel h.views k.view
    rw [Session.turn, Session.turn]
    generalize a.views[k.view]? = v at hrel ⊢
    generalize b.views[k.view]? = u at hrel ⊢
    cases hrel with
    | none => exact ⟨h, by rw [hstate]; rfl⟩
    | @some g t hguards =>
      obtain ⟨rfl, -⟩ := hguards
      have hname : Question.run t .collectionName b.state =
          .ok (.text (View.storage t).collectionName, []) b.state := rfl
      simp only [run_readOnly_of_change hk t, hname, Session.record, List.append_nil, hstate]
      exact ⟨⟨h.views, rfl⟩, rfl⟩

/-- Nothing that a store shows for reading only can be changed, in any dialogue with any number of such
views and with the collections that are opened from them. Whatever pipeline around the store a collection
is opened through, all its filters are bound to one view, which shows that collection of the store. Every
write, deletion, renaming and deletion together is refused by its name. All else is replied as the stores
that are shown reply, and the world stays as it is, with all shelves, files and journals. -/
theorem transcript_protected {s : Store} (hs : s.standard = true) :
    (∀ {mark : Option Nat} {filters : List Filter} {cs : List String} {w v : World} {p : Store},
      Filter.allStandard filters = true → descend cs (layered mark s filters) w = .ok p v →
        ∃ g t fs, p.source? = some g ∧ p.filters? = some fs ∧
          p.storage = Pipeline.storage t.storage (Filter.chain (some g.storage) fs) ∧
          descend cs s w = .ok t v ∧ Shows s g t) ∧
    ∀ (gs ts : List Store) (w : World) (turns : List Turn), List.Forall₂ (Shows s) gs ts →
      Session.transcript ⟨gs, w⟩ turns =
        List.zipWith Turn.refused turns (Session.transcript ⟨ts, w⟩ (turns.map Turn.withoutChange)) ∧
      ∀ e ∈ Session.transcript ⟨gs, w⟩ turns, e.2 = w := by
  constructor
  · intro mark filters cs w v p hfilters hp
    obtain ⟨rfl, mark', t, gs, ht, rfl, -⟩ := exists_of_descend_layered hs hfilters hp
    have hbound : (layered mark' t gs).storage =
        Pipeline.storage t.storage (Filter.chain (some (readOnly t).storage) gs) := by
      rw [Store.storage, Store.storage]
    exact ⟨.readOnly t, t, gs, rfl, rfl, hbound, ht, .source hfilters hp rfl ht⟩
  · intro gs ts w turns hshows
    have hstart : Session.Related Guards Eq (⟨gs, w⟩ : Session World Store) ⟨ts, w⟩ :=
      ⟨hshows.imp fun _ _ h => h.eq_readOnly hs, rfl⟩
    have hworld : (⟨gs, w⟩ : Session World Store).state = w := rfl
    generalize (⟨gs, w⟩ : Session World Store) = a at hstart hworld ⊢
    generalize (⟨ts, w⟩ : Session World Store) = b at hstart ⊢
    induction turns generalizing a b with
    | nil => exact ⟨rfl, by simp [Session.transcript]⟩
    | cons k rest ih =>
      obtain ⟨hrelated, hshown⟩ := Guards.turn hstart k
      have hstate : (a.turn k).1.state = w := (Guards.state_turn hstart k).trans hworld
      obtain ⟨hrest, hworlds⟩ := ih _ hstate _ hrelated
      simp only [Session.transcript, List.map_cons, List.zipWith_cons_cons, List.forall_mem_cons,
        List.cons.injEq]
      exact ⟨⟨hshown, hrest⟩, hstate, hworlds⟩

/-- A shelf with a page in German, whose ignored configuration is taken from files, and the German
collection of a pipeline that is put around it. In neither, and in no collection that is opened from them,
can anything be written, deleted or renamed, and the page is read as before. -/
theorem transcript_protected_german :
    let page : Document := .ofList [("title", .string "Entwurf")]
    let w : World :=
      { World.ofShelves (Dict.insert ∅ "language.de" (.ofList [("page", page)])) ∅ with
        files := ⟨[(["sync"], .directory),
          (["sync", "system.site.yml"], .file "name: Beispiel\n".toUTF8)]⟩ }
    let patterns := (Ignore.Patterns.ofTexts? ["system.*"]).toOption.getD ⟨[]⟩
    let s := layered none (.shelf 0 "") [.ignore patterns false (.directory "sync" "")]
    let german :=
      layered none (.shelf 0 "language.de") [.ignore patterns false (.directory "sync" "language.de")]
    let filters : List Filter := [.ignore patterns false (.shelf 1 "")]
    let views := [readOnly s, readOnly german]
    let turns : List Turn := [⟨0, .call (.write "page" ∅)⟩, ⟨1, .call (.delete "page")⟩,
      ⟨0, .collection "language.de"⟩, ⟨2, .call (.rename "page" "site")⟩, ⟨2, .call (.deleteAll "")⟩,
      ⟨1, .call (.read "page")⟩]
    s.standard = true ∧ Filter.allStandard filters = true ∧
      (∃ p v g, descend ["language.de"] (layered none s filters) w = .ok p v ∧
        p.source? = some g ∧ g = readOnly german) ∧
      Session.transcript ⟨views, w⟩ turns = List.zipWith Turn.refused turns
        (Session.transcript ⟨[s, german], w⟩ (turns.map Turn.withoutChange)) ∧
      (∀ e ∈ Session.transcript ⟨views, w⟩ turns, e.2 = w) ∧
      ∃ d, (Session.transcript ⟨views, w⟩ turns).getLast?.bind (Session.found? ·.1) = some d ∧
        d.same page = true := by
  intro page w patterns s german filters views turns
  have hs : s.standard = true := by decide
  have hfilters : Filter.allStandard filters = true := by decide
  have hgerman : descend ["language.de"] s w = .ok german w := rfl
  have hopened : descend ["language.de"] (layered none s filters) w =
      .ok (layered none german [.ignore patterns false (.shelf 1 "language.de")]) w := rfl
  have hshows : List.Forall₂ (Shows s) views [s, german] :=
    .cons .self (.cons (.source hfilters hopened rfl hgerman) .nil)
  obtain ⟨hsources, hdialogues⟩ := transcript_protected hs
  obtain ⟨g, t, fs, hg, -, -, ht, -⟩ := hsources hfilters hopened
  obtain ⟨rfl, -⟩ := Run.ok_unique ht hgerman
  obtain ⟨hreplies, hworlds⟩ := hdialogues views [s, german] w turns hshows
  have hread : ((Session.transcript ⟨views, w⟩ turns).getLast?.bind (Session.found? ·.1)).any
      (·.same page) = true := by decide +kernel
  exact ⟨hs, hfilters, ⟨_, _, g, hopened, hg, (Option.some.inj hg).symm⟩, hreplies, hworlds,
    (Option.any_eq_true _ _).mp hread⟩

end Store

end LayeredConfig
